import IPPcode23.Machine.Step
import IPPcode23.Proofs.Signature

/-!
# Operands by position

An instruction can also be carried out on its operands directly: each opcode looks an operand up by its position where
it needs it, and refuses one that is missing or of the wrong kind. After the check against the signature no such
look-up is refused, so that this comes to the same as carrying out the action (`dispatch_eq_perform`).
-/

namespace IPPcode23

variable {σ : Type} [Input σ]

namespace Instruction

/-- The operand at a position, counted from zero, as an argument of a kind. -/
def argumentAt (i : Instruction) (k : OperandKind) (n : Nat) : Except Fault k.Argument :=
  match i.operands[n]? with
  | none => .error (.malformed (.count i.opcode i.opcode.signature.length i.operands.length))
  | some o =>
    match k.argument? o with
    | none => .error (.malformed (.kind i.opcode (n + 1) k))
    | some a => .ok a

/-- The operand at a position as a type. One that is missing counts as one of the wrong kind. -/
def typeAt (i : Instruction) (n : Nat) : Except Fault TypeName :=
  match i.operands[n]? with
  | some (.type t) => .ok t
  | _ => .error (.malformed (.kind i.opcode (n + 1) .type))

end Instruction

namespace Machine

/-- Continues with what is looked up, or fails with this machine as it is. -/
def withArgument {α : Type} (m : Machine σ) (x : Except Fault α) (k : α → Outcome σ) : Outcome σ :=
  match x with
  | .ok a => k a
  | .error cause => .fail cause m

/-- Carries an instruction out on its operands, whether or not they fit the signature. -/
def dispatch (m : Machine σ) (i : Instruction) : Outcome σ :=
  match i.opcode with
  | .createFrame => .next { m with memory := m.memory.create }
  | .pushFrame => m.withMemory m.memory.push
  | .popFrame => m.withMemory m.memory.pop
  | .defVar => m.withMemory do m.memory.declare (← i.argumentAt .var 0)
  | .call => m.attempt do m.callLabel (← i.argumentAt .label 0)
  | .ret => m.attempt m.returnFromCall
  | .pushs => m.attempt do
    let x ← m.memory.value (← i.argumentAt .symb 0)
    return { m with data := x :: m.data }
  | .pops => m.attempt do m.popInto (← i.argumentAt .var 0)
  | .unary op => m.attempt do
    let x ← m.memory.value (← i.argumentAt .symb 1)
    let y ← op.eval x
    m.store (← i.argumentAt .var 0) y
  | .binary op => m.attempt do
    let x ← m.memory.value (← i.argumentAt .symb 1)
    let y ← m.memory.value (← i.argumentAt .symb 2)
    let z ← op.eval x y
    m.store (← i.argumentAt .var 0) z
  | .setChar => m.attempt do
    let v ← i.argumentAt .var 0
    let s ← m.memory.read v
    let index ← m.memory.value (← i.argumentAt .symb 1)
    let replacement ← m.memory.value (← i.argumentAt .symb 2)
    m.store v (← s.setChar index replacement)
  | .typeOf => m.attempt do
    let name ← m.memory.typeName (← i.argumentAt .symb 1)
    m.store (← i.argumentAt .var 0) (.string name)
  | .read => m.withArgument (i.typeAt 1) fun t =>
    let (answer, input) := Input.read m.input
    let m' := { m with input }
    match answer with
    | .error cause => .fail (.channel cause) m'
    | .ok line? => m'.attempt do m'.store (← i.argumentAt .var 0) (t.interpret line?)
  | .write => m.withArgument (i.argumentAt .symb 0) fun source =>
    m.withValue source fun x => m.writeOutput x.text
  | .label => .next m
  | .jump => m.attempt do return m.goto (← m.target (← i.argumentAt .label 0))
  | .jumpIf wanted => m.attempt do
    let n ← m.target (← i.argumentAt .label 0)
    let x ← m.memory.value (← i.argumentAt .symb 1)
    let y ← m.memory.value (← i.argumentAt .symb 2)
    match x.same? y with
    | none => .error (.typeMismatch (.jumpIf wanted))
    | some result => return if result = wanted then m.goto n else m
  | .exit => m.withArgument (i.argumentAt .symb 0) fun source =>
    m.withValue source fun x =>
      match x.exitCode with
      | .ok code => .exit code m
      | .error cause => .fail cause m
  | .dprint => m.withArgument (i.argumentAt .symb 0) fun source =>
    m.withValue source fun x => m.writeDiagnostics (x.text ++ "\n")
  | .dump => m.writeDiagnostics m.dump

/-- On an instruction that is an action, every operand is found at its position. -/
private theorem dispatch_instruction (m : Machine σ) (a : Action) : m.dispatch a.instruction = m.execute a := by
  cases a with
  | pushs s | write s | exit s | dprint s | unary _ _ s | typeOf _ s => cases s <;> rfl
  | binary _ _ l r | setChar _ l r | jumpIf _ _ l r => cases l <;> cases r <;> rfl
  | _ => rfl

/-- After the check, looking operands up by position comes to the same as carrying out the action. -/
theorem dispatch_eq_perform {m : Machine σ} {i : Instruction} (h : i.checkSignature = .ok ()) :
    m.dispatch i = m.perform i := by
  obtain ⟨a, ha⟩ := Instruction.exists_action_iff.2 h
  rw [perform, ha]
  rw [← Instruction.action_eq_ok_iff.1 ha, dispatch_instruction]

end Machine

end IPPcode23
