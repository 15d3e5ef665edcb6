/-
Module: Jcl.FileIo
Layer: Model
Purpose: `file_io.c`: reading and writing a number of bytes.
Imports: Jcl.IoLoop
Trusted boundary: human-reviewed spec
Main exports: jfsFioWrite, jfsFioRead
-/
import Jcl.IoLoop

namespace Jcl

/-- `jfs_fio_write`. An interruption leaves `*err` as it is. -/
def jfsFioWrite (buf : List UInt8) (size rounds : Nat) : IoM Output Nat :=
  ioLoop (jclWrite buf) false none size rounds 0

/-- `jfs_fio_read`. An interruption leaves `*err` as it is. -/
def jfsFioRead (size rounds : Nat) : IoM Input Nat :=
  ioLoop jclRead false (some .fioFileEnd) size rounds 0

end Jcl
