/-
Module: Jcl.Wrappers
Layer: Model
Purpose: `error.c`: every wrapper, with the `errno` of the thread, which one call leaves behind for the next. A
  call comes with its outcome. A system call that fails stores its error number in `errno`; a `pthread_*` call
  and `posix_memalign` return it and leave `errno` alone.
Imports: Jcl.Resources
Trusted boundary: human-reviewed spec. An `errno` of 0 is `Errno.other 0`. The arguments that a wrapper hands on
  are not named, since they decide the outcome and nothing else; memory, streams and lists are addresses.
Main exports: ErrState, ErrM, sysCall, pthreadCall, onErrno, WrapperCall, WrapperCall.run
-/
import Jcl.Resources

namespace Jcl.Wrappers

/-- The `errno` of the thread and the `*err` of the wrapper. -/
structure ErrState where
  errno : Errno
  err : JclErr
deriving DecidableEq, Repr

/-- A call that sees both. -/
abbrev ErrM := StateM ErrState

/-- A system call: its value, or `none` and its error number in `errno`. -/
def sysCall {α : Type} (outcome : Except Errno α) : ErrM (Option α) := do
  match outcome with
  | .ok value => return some value
  | .error errno =>
      modify fun s => { s with errno := errno }
      return none

/-- A `pthread_*` call, which returns 0 or an error number. -/
def pthreadCall (status : Option Errno) : ErrM (Option Unit) := do
  match status with
  | none => return some ()
  | some _ => return none

/-- A wrapper: the value of the call, or `failValue` after a `switch` over `errno`. -/
def onErrno {α : Type} (switch : Errno → JclErr) (failValue : α) (call : ErrM (Option α)) : ErrM α := do
  match ← call with
  | some value => return value
  | none =>
      modify fun s => { s with err := switch s.errno }
      return failValue

/-- A `switch` with no case but `default`. -/
def defaultErr : Errno → JclErr := fun _ => .sys

/-! ### Memory and files -/

/-- `jcl_malloc`, which does not look at `errno`. -/
def jclMalloc (outcome : Except Errno Addr) : ErrM Addr := onErrno defaultErr null (sysCall outcome)

/-- `jcl_realloc`, which does not look at `errno`. -/
def jclRealloc (outcome : Except Errno Addr) : ErrM Addr := onErrno defaultErr null (sysCall outcome)

/-- The `switch` of `jcl_lstat`. -/
def lstatErr : Errno → JclErr
  | .eacces => .access
  | .enoent => .invalPath
  | .enotdir => .invalPath
  | _ => .sys

/-- `jcl_lstat`: the bytes of `*stat_init` as they are left. -/
def jclLstat (statInit : List UInt8) (outcome : Except Errno (List UInt8)) : ErrM (List UInt8) :=
  onErrno lstatErr statInit (sysCall outcome)

/-- `jcl_opendir`. -/
def jclOpendir (outcome : Except Errno Addr) : ErrM Addr := onErrno opendirErr null (sysCall outcome)

/-- `jcl_eventfd`. -/
def jclEventfd (outcome : Except Errno Int) : ErrM Int := onErrno defaultErr (-1) (sysCall outcome)

/-- `jcl_read`. -/
def jclRead (outcome : Except Errno Nat) : ErrM Nat := onErrno readErr 0 (sysCall outcome)

/-- `jcl_write`. -/
def jclWrite (outcome : Except Errno Nat) : ErrM Nat := onErrno writeErr 0 (sysCall outcome)

/-- `jcl_mmap`. -/
def jclMmap (outcome : Except Errno Addr) : ErrM Addr := onErrno defaultErr null (sysCall outcome)

/-- `jcl_aligned_alloc`: the error number that `posix_memalign` returns is not looked at. -/
def jclAlignedAlloc (outcome : Except Errno Addr) : ErrM Addr := do
  match outcome with
  | .ok mem => return mem
  | .error _ =>
      modify fun s => { s with err := .sys }
      return null

/-! ### Sockets -/

/-- `jcl_shutdown`. -/
def jclShutdown (outcome : Except Errno Unit) : ErrM Unit := onErrno defaultErr () (sysCall outcome)

/-- The values of `getaddrinfo` that the file tells apart, and the others by number. With `EAI_SYSTEM` the reason
    is in `errno`. -/
inductive GaiStatus where
  | again
  | fail
  | noname
  | system (errno : Errno)
  | other (code : Nat)
deriving DecidableEq, Repr

/-- The `switch` of `jcl_getaddrinfo`. -/
def gaiErr : GaiStatus → JclErr
  | .again => .again
  | .fail => .lanHostUnreach
  | .noname => .lanHostUnreach
  | .system _ => .sys
  | .other _ => .getaddrinfo

/-- `getaddrinfo`. -/
def getaddrinfo (outcome : Except GaiStatus Addr) : ErrM (Except GaiStatus Addr) := do
  match outcome with
  | .error (.system errno) =>
      modify fun s => { s with errno := errno }
      return outcome
  | _ => return outcome

/-- `jcl_getaddrinfo`. -/
def jclGetaddrinfo (outcome : Except GaiStatus Addr) : ErrM Addr := do
  match ← getaddrinfo outcome with
  | .ok result => return result
  | .error status =>
      modify fun s => { s with err := gaiErr status }
      return null

/-- `jcl_bind`. -/
def jclBind (outcome : Except Errno Unit) : ErrM Unit := onErrno defaultErr () (sysCall outcome)

/-- `jcl_listen`. -/
def jclListen (outcome : Except Errno Unit) : ErrM Unit := onErrno defaultErr () (sysCall outcome)

/-- The `switch` of `jcl_accept`. -/
def acceptErr : Errno → JclErr
  | .econnaborted => .connectionAbort
  | .eproto => .again
  | .enoprotoopt => .again
  | .ehostdown => .again
  | .enonet => .again
  | .ehostunreach => .again
  | .eopnotsupp => .again
  | .enetunreach => .again
  | .eagain => .again
  | .eintr => .inter
  | _ => .sys

/-- `jcl_accept`. -/
def jclAccept (outcome : Except Errno Int) : ErrM Int := onErrno acceptErr (-1) (sysCall outcome)

/-- The `switch` of `jcl_connect`. -/
def connectErr : Errno → JclErr
  | .eagain => .again
  | .econnrefused => .lanHostUnreach
  | .etimedout => .lanHostUnreach
  | .enetunreach => .lanHostUnreach
  | .eintr => .inter
  | _ => .sys

/-- `jcl_connect`. -/
def jclConnect (outcome : Except Errno Unit) : ErrM Unit := onErrno connectErr () (sysCall outcome)

/-- `jcl_recv`. -/
def jclRecv (outcome : Except Errno Nat) : ErrM Nat := onErrno recvErr 0 (sysCall outcome)

/-- `jcl_send`. -/
def jclSend (outcome : Except Errno Nat) : ErrM Nat := onErrno sendErr 0 (sysCall outcome)

/-- `jcl_socket`. -/
def jclSocket (outcome : Except Errno Int) : ErrM Int := onErrno defaultErr (-1) (sysCall outcome)

/-- `jcl_close`. -/
def jclClose (outcome : Except Errno Unit) : ErrM Unit := onErrno defaultErr () (sysCall outcome)

/-! ### Threads -/

/-- `jcl_mutex_init`. -/
def jclMutexInit (status : Option Errno) : ErrM Unit := onErrno defaultErr () (pthreadCall status)

/-- A `switch` with one case beside `default`. -/
def caseErr (errno : Errno) (err : JclErr) : Errno → JclErr := fun e => if e = errno then err else .sys

/-- `jcl_mutex_destroy`. -/
def jclMutexDestroy (status : Option Errno) : ErrM Unit :=
  onErrno (caseErr .ebusy .mutexBusy) () (pthreadCall status)

/-- `jcl_mutex_trylock`. -/
def jclMutexTrylock (status : Option Errno) : ErrM Unit :=
  onErrno (caseErr .ebusy .mutexBusy) () (pthreadCall status)

/-- `jcl_cond_destroy`. -/
def jclCondDestroy (status : Option Errno) : ErrM Unit :=
  onErrno (caseErr .ebusy .condBusy) () (pthreadCall status)

/-- `jcl_cond_timedwait`. -/
def jclCondTimedwait (status : Option Errno) : ErrM Unit :=
  onErrno (caseErr .etimedout .condTimedOut) () (pthreadCall status)

/-! ### Any wrapper -/

/-- A wrapper together with the outcome of the call that it wraps. -/
inductive WrapperCall where
  | malloc (outcome : Except Errno Addr)
  | realloc (outcome : Except Errno Addr)
  | lstat (statInit : List UInt8) (outcome : Except Errno (List UInt8))
  | opendir (outcome : Except Errno Addr)
  | shutdown (outcome : Except Errno Unit)
  | getaddrinfo (outcome : Except GaiStatus Addr)
  | bind (outcome : Except Errno Unit)
  | listen (outcome : Except Errno Unit)
  | accept (outcome : Except Errno Int)
  | connect (outcome : Except Errno Unit)
  | recv (outcome : Except Errno Nat)
  | send (outcome : Except Errno Nat)
  | socket (outcome : Except Errno Int)
  | close (outcome : Except Errno Unit)
  | mutexInit (status : Option Errno)
  | mutexDestroy (status : Option Errno)
  | mutexTrylock (status : Option Errno)
  | condDestroy (status : Option Errno)
  | condTimedwait (status : Option Errno)
  | eventfd (outcome : Except Errno Int)
  | read (outcome : Except Errno Nat)
  | write (outcome : Except Errno Nat)
  | mmap (outcome : Except Errno Addr)
  | alignedAlloc (outcome : Except Errno Addr)

/-- The wrapper run, for what it does to `errno` and `*err`. -/
def WrapperCall.run : WrapperCall → ErrM Unit
  | .malloc outcome => discard (jclMalloc outcome)
  | .realloc outcome => discard (jclRealloc outcome)
  | .lstat statInit outcome => discard (jclLstat statInit outcome)
  | .opendir outcome => discard (jclOpendir outcome)
  | .shutdown outcome => jclShutdown outcome
  | .getaddrinfo outcome => discard (jclGetaddrinfo outcome)
  | .bind outcome => jclBind outcome
  | .listen outcome => jclListen outcome
  | .accept outcome => discard (jclAccept outcome)
  | .connect outcome => jclConnect outcome
  | .recv outcome => discard (jclRecv outcome)
  | .send outcome => discard (jclSend outcome)
  | .socket outcome => discard (jclSocket outcome)
  | .close outcome => jclClose outcome
  | .mutexInit status => jclMutexInit status
  | .mutexDestroy status => jclMutexDestroy status
  | .mutexTrylock status => jclMutexTrylock status
  | .condDestroy status => jclCondDestroy status
  | .condTimedwait status => jclCondTimedwait status
  | .eventfd outcome => discard (jclEventfd outcome)
  | .read outcome => discard (jclRead outcome)
  | .write outcome => discard (jclWrite outcome)
  | .mmap outcome => discard (jclMmap outcome)
  | .alignedAlloc outcome => discard (jclAlignedAlloc outcome)

end Jcl.Wrappers
