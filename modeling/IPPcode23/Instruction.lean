import IPPcode23.Opcode

/-!
# Instructions and programs

An instruction is an opcode with any operands. Its arguments are what the operands provide once they have been checked
against the signature; an opcode is only ever executed on its arguments.
-/

namespace IPPcode23

/-- An opcode with operands. Whether they fit its signature is a separate question. -/
structure Instruction where
  opcode : Opcode
  operands : List Operand
  deriving DecidableEq, Repr

/-- A program: instructions, counted from zero. -/
abbrev Program := Array Instruction

/-- Why an instruction does not fit its signature. Positions count from one. -/
inductive SignatureError where
  | count (opcode : Opcode) (expected found : Nat)
  | kind (opcode : Opcode) (position : Nat) (expected : OperandKind)
  deriving DecidableEq, Repr

/-- The wording of the cause. -/
def SignatureError.message : SignatureError → String
  | count opcode expected found => s!"{opcode.mnemonic} expects {expected} operand(s), found {found}"
  | kind opcode position expected => s!"{opcode.mnemonic} operand {position} must be {expected.describe}"

/-- One argument for each kind of a signature. -/
@[reducible] def Arguments : List OperandKind → Type
  | [] => Unit
  | k :: ks => k.Argument × Arguments ks

namespace Instruction

/-- Takes the arguments from operands of the right number, naming the first position of the wrong kind. -/
def takeArguments (opcode : Opcode) (position : Nat) : (ks : List OperandKind) → (os : List Operand) →
    os.length = ks.length → Except SignatureError (Arguments ks)
  | [], _, _ => .ok ()
  | k :: ks, o :: os, h =>
    match k.argument? o with
    | none => .error (.kind opcode position k)
    | some a => (fun as => (a, as)) <$> takeArguments opcode (position + 1) ks os (by simpa using h)

/-- The arguments of an instruction, or how it fails to fit its signature: first by the number of its operands, then
by the first one of the wrong kind. -/
def arguments (i : Instruction) : Except SignatureError (Arguments i.opcode.signature) :=
  if h : i.operands.length = i.opcode.signature.length then
    takeArguments i.opcode 1 i.opcode.signature i.operands h
  else .error (.count i.opcode i.opcode.signature.length i.operands.length)

/-- Checks an instruction against its signature. -/
def checkSignature (i : Instruction) : Except SignatureError Unit :=
  (fun _ => ()) <$> i.arguments

/-- The label that an instruction declares: the first operand of a `LABEL`, whatever follows it. -/
def declaredLabel? (i : Instruction) : Option String :=
  match i.opcode, i.operands with
  | .label, .label name :: _ => some name
  | _, _ => none

end Instruction

end IPPcode23
