import IPPcode23.Instruction

/-!
# Failures of a run

What can go wrong while a program runs, the exit code that each cause ends with, and its wording. A failure is a cause
together with the index of the instruction that was executing.
-/

namespace IPPcode23

/-- How a channel to the outside fails. An input has words of its own for it. -/
inductive ChannelFault where
  | input (text : String)
  | sinkFull
  | flushRefused
  deriving DecidableEq, Repr

/-- The wording of a channel's failure. -/
def ChannelFault.message : ChannelFault → String
  | input text => text
  | sinkFull => "sink full"
  | flushRefused => "flush refused"

/-- Why a run cannot go on. -/
inductive Fault where
  | malformed (cause : SignatureError)
  | duplicateLabel (label : String)
  | undefinedLabel (label : String)
  | redefinition (v : Variable)
  | typeMismatch (opcode : Opcode)
  | undefinedVariable (v : Variable)
  | missingFrame (frame : FrameTag)
  | missingValue (v : Variable)
  | emptyDataStack
  | emptyCallStack
  | divisionByZero
  | invalidExitCode (code : Int64)
  | invalidCodePoint (code : Int64)
  | indexOutOfRange (index : Int64) (length : Nat)
  | emptyReplacement
  | channel (cause : ChannelFault)
  deriving DecidableEq, Repr

/-- The exit code that a cause ends the run with. -/
def Fault.exitCode : Fault → Nat
  | malformed _ => 32
  | duplicateLabel _ | undefinedLabel _ | redefinition _ => 52
  | typeMismatch _ => 53
  | undefinedVariable _ => 54
  | missingFrame _ => 55
  | missingValue _ | emptyDataStack | emptyCallStack => 56
  | divisionByZero | invalidExitCode _ => 57
  | invalidCodePoint _ | indexOutOfRange _ _ | emptyReplacement => 58
  | channel _ => 99

/-- A failed run: the cause, and the index of the instruction at which it arose. -/
structure RunError where
  position : Nat
  fault : Fault
  deriving DecidableEq, Repr

namespace RunError

/-- The exit code of a failed run. -/
def exitCode (e : RunError) : Nat :=
  e.fault.exitCode

/-- The wording of a failed run. -/
def message (e : RunError) : String :=
  let n := e.position
  match e.fault with
  | .malformed cause => s!"malformed instruction at {n}: {cause.message}"
  | .duplicateLabel label => s!"label '{label}' redefined at instruction {n}"
  | .undefinedLabel label => s!"undefined label '{label}' at instruction {n}"
  | .redefinition v => s!"variable {v.text} redefined at instruction {n}"
  | .typeMismatch opcode => s!"operand type mismatch in {opcode.mnemonic} at instruction {n}"
  | .undefinedVariable v => s!"undefined variable {v.text} at instruction {n}"
  | .missingFrame frame => s!"frame {frame.mark} does not exist at instruction {n}"
  | .missingValue v => s!"variable {v.text} is uninitialized at instruction {n}"
  | .emptyDataStack => s!"data stack is empty at instruction {n}"
  | .emptyCallStack => s!"call stack is empty at instruction {n}"
  | .divisionByZero => s!"division by zero at instruction {n}"
  | .invalidExitCode code => s!"exit code {code.toInt} out of range 0-49 at instruction {n}"
  | .invalidCodePoint code => s!"invalid code point {code.toInt} at instruction {n}"
  | .indexOutOfRange index length =>
    s!"string index {index.toInt} out of range (length {length}) at instruction {n}"
  | .emptyReplacement => s!"empty replacement string at instruction {n}"
  | .channel cause => s!"i/o failure at instruction {n}: {cause.message}"

end RunError

end IPPcode23
