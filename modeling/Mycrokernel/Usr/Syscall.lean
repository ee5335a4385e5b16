import Mycrokernel.Usr.Number
import Mycrokernel.Lib.Dialogue

/-!
# The system calls of a process

What the stubs of `usrlib/syscall.hla` pass to the kernel and are given back.
-/

namespace Mycrokernel

/-- What the stubs of `usrlib/syscall.hla` ask the kernel for.  A send has the bytes that the
kernel finds in the memory of the process. -/
inductive Syscall where
  | receive (sender buffer length : Word)
  | sendByFeature (feature : Word) (message : List Byte) (block : Word)
  | claimPort (port : Word)
  | requestIrq (irq : Word)
  | inb (port : Word)
  | inw (port : Word)
  | outb (port value : Word)
  | outw (port value : Word)
deriving DecidableEq

/-- The registers a stub passes on: `eax` is its result, and `esi` the error. -/
structure Reply where
  value : Word
  error : Word
deriving DecidableEq

/-- `hasFailed(*error)`, a comparison of signed numbers. -/
def hasFailed (error : Word) : Bool := error.slt 0

/-- `FEATURE_TTY`. -/
def featureTty : Word := 1

/-- The messages among the requests of a process that go to the terminal. -/
def ttyMessages (log : List (Syscall × Reply)) : List (List Byte) :=
  log.filterMap fun
    | (.sendByFeature feature message _, _) => if feature = featureTty then some message else none
    | _ => none

end Mycrokernel
