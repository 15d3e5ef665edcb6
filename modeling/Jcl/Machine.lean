/-
Module: Jcl.Machine
Layer: Model
Purpose: What the models of the C modules share: 64-bit addresses and sizes, the ways a call can stop
  without returning, the build-time choice that makes `assert` a check or a no-op, and the values of the
  error variable that every public function takes.
Trusted boundary: human-reviewed spec
Main exports: Addr, Fault, Build, assert, JclErr
-/

namespace Jcl

/-- A pointer or `uintptr_t`; address 0 is `NULL`. -/
abbrev Addr := UInt64

/-- `NULL`. -/
abbrev null : Addr := 0

/-- Ways a call stops without returning to its caller. -/
inductive Fault where
  /-- an active `assert` was false -/
  | assertion
  /-- `NULL` was dereferenced or called -/
  | nullDeref
  /-- an array was accessed past its end -/
  | outOfBounds
  /-- a field that was never written was used -/
  | uninitialized
  /-- a loop never ends -/
  | diverges
  /-- an integer was divided by 0 -/
  | divByZero
deriving DecidableEq, Repr

/-- How the library was compiled: `asserts` is false under `NDEBUG`. -/
class Build where
  asserts : Bool

/-- C's `assert`: stops the program when the build keeps assertions and the condition is false. -/
def assert [Build] (cond : Bool) : Except Fault Unit :=
  if Build.asserts && !cond then .error .assertion else .ok ()

@[simp] theorem assert_true [Build] : assert true = .ok () := by simp [assert]

theorem assert_of_noasserts [Build] (h : Build.asserts = false) (cond : Bool) :
    assert cond = .ok () := by
  simp [assert, h]

/-- `jcl_err_t`, under the names the sources use for its values. The last group is used by the sources
    and not listed in the header's enumeration. -/
inductive JclErr where
  | ok
  | sys
  | inter
  | again
  | access
  | invalPath
  | arg
  | empty
  | full
  | badConf
  | getaddrinfo
  | lanHostUnreach
  | connectionAbort
  | connectionReset
  | pipe
  | mutexBusy
  | condBusy
  | condTimedOut
  | bstBadKey
  | fioFileEnd
  | fioPathLen
  | fioNameLen
  | fioPathOverflow
  | fwSkip
  | fwFail
  | fwState
  | fwUnknown
  | fwUnsupported
  | nsBadAddr
  | nsBadAccept
  | nsConnectionClose
deriving DecidableEq, Repr

end Jcl
