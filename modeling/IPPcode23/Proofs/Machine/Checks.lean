import IPPcode23.Proofs.Machine.Control
import IPPcode23.Proofs.Machine.Effect

/-!
# Checks

What an instruction depends on, as a list of checks in the order in which they are made (`Machine.checks`): its label,
what it takes from the frames and the stacks with its sources from left to right, their types, their values, and its
destination. Each check says by itself when it passes and what a run fails with if it does not.
-/

namespace IPPcode23

variable {σ : Type}

/-- The type of a value other than `nil`. -/
def Value.type? : Value → Option TypeName
  | int _ => some .int
  | bool _ => some .bool
  | string _ => some .string
  | nil => none

/-- Whether an opcode takes sources of these types, `none` being the type of `nil`. -/
def Opcode.accepts : Opcode → List (Option TypeName) → Bool
  | .unary .not, types => types = [some .bool]
  | .unary .int2char, types | .exit, types => types = [some .int]
  | .unary .strlen, types => types = [some .string]
  | .binary .add, types | .binary .sub, types | .binary .mul, types | .binary .idiv, types =>
    types = [some .int, some .int]
  | .binary .and, types | .binary .or, types => types = [some .bool, some .bool]
  | .binary .stri2int, types | .binary .getchar, types => types = [some .string, some .int]
  | .binary .concat, types => types = [some .string, some .string]
  | .binary .lt, [s, t] | .binary .gt, [s, t] => s = t && s.isSome
  | .binary .eq, [s, t] | .jumpIf _, [s, t] => s = t || s.isNone || t.isNone
  | .setChar, types => types = [some .string, some .int, some .string]
  | _, _ => true

/-- Something that an instruction depends on. -/
inductive Check where
  /-- A label is declared. -/
  | label (name : String)
  /-- A frame exists. -/
  | frame (tag : FrameTag)
  /-- A variable is declared. -/
  | declared (v : Variable)
  /-- A variable is not declared. -/
  | undeclared (v : Variable)
  /-- A variable has a value. -/
  | initialized (v : Variable)
  /-- There is a value to pop. -/
  | dataStack
  /-- There is a call to return from. -/
  | callStack
  /-- The sources of an opcode are of types that it takes. -/
  | types (opcode : Opcode) (sources : List Value)
  | divisor (n : Int64)
  | exitCode (n : Int64)
  | codePoint (n : Int64)
  /-- An index denotes a position in a string of a length. -/
  | index (i : Int64) (length : Nat)
  /-- There is a character to replace another one by. -/
  | replacement (s : String)

namespace Check

/-- Whether a check passes. -/
def holds (m : Machine σ) : Check → Bool
  | label name => (m.labels.lookup name).isSome
  | frame tag => (m.memory.frame? tag).isSome
  | declared v => (m.memory.slot? v).any (· ≠ .undeclared)
  | undeclared v => m.memory.slot? v = some .undeclared
  | initialized v => (m.memory.value? (.var v)).isSome
  | dataStack => m.data ≠ []
  | callStack => m.calls ≠ []
  | types opcode sources => opcode.accepts (sources.map Value.type?)
  | divisor n => n ≠ 0
  | exitCode n => 0 ≤ n.toInt ∧ n.toInt ≤ 49
  | codePoint n => 0 ≤ n.toInt ∧ n.toInt < 0xD800 ∨ 0xE000 ≤ n.toInt ∧ n.toInt ≤ 0x10FFFF
  | index i length => 0 ≤ i.toInt ∧ i.toInt < length
  | replacement s => s ≠ ""

/-- What a run fails with if a check does not pass. -/
def fault : Check → Fault
  | label name => .undefinedLabel name
  | frame tag => .missingFrame tag
  | declared v => .undefinedVariable v
  | undeclared v => .redefinition v
  | initialized v => .missingValue v
  | dataStack => .emptyDataStack
  | callStack => .emptyCallStack
  | types opcode _ => .typeMismatch opcode
  | divisor _ => .divisionByZero
  | exitCode n => .invalidExitCode n
  | codePoint n => .invalidCodePoint n
  | index i length => .indexOutOfRange i length
  | replacement _ => .emptyReplacement

/-- The exit code that a check is reported by. -/
def code : Check → Nat
  | label _ | undeclared _ => 52
  | types _ _ => 53
  | declared _ => 54
  | frame _ => 55
  | initialized _ | dataStack | callStack => 56
  | divisor _ | exitCode _ => 57
  | codePoint _ | index _ _ | replacement _ => 58

theorem exitCode_fault (c : Check) : c.fault.exitCode = c.code := by
  cases c <;> rfl

end Check

/-- The checks of a variable that is looked up, whether or not it has a value. -/
def Variable.checks (v : Variable) : List Check :=
  [.frame v.frame, .declared v]

/-- The checks of a source. -/
def Symb.checks : Symb → List Check
  | .var v => v.checks ++ [.initialized v]
  | .const _ => []

/-- The checks of the values that an opcode is applied to: their types, then what it asks of them beyond that. -/
def Opcode.checks (opcode : Opcode) (sources : List Value) : List Check :=
  .types opcode sources ::
    match opcode, sources with
    | .binary .idiv, [_, .int n] => [.divisor n]
    | .exit, [.int n] => [.exitCode n]
    | .unary .int2char, [.int n] => [.codePoint n]
    | .binary .stri2int, [.string s, .int i] | .binary .getchar, [.string s, .int i] => [.index i s.length]
    | .setChar, [.string s, .int i, .string r] => [.index i s.length, .replacement r]
    | _, _ => []

namespace Action

/-- The sources of an action from left to right. The destination of a `SETCHAR` is one of them. -/
def sources : Action → List Symb
  | pushs source | unary _ _ source | typeOf _ source | write source | exit source | dprint source => [source]
  | binary _ _ left right | jumpIf _ _ left right => [left, right]
  | setChar v index replacement => [.var v, index, replacement]
  | _ => []

/-- The checks of what an action takes from the frames and the stacks. -/
def accessChecks : Action → List Check
  | pushFrame => [.frame .temporary]
  | popFrame => [.frame .local]
  | ret => [.callStack]
  | pops v => v.checks ++ [.dataStack]
  | typeOf _ (.var v) => v.checks
  | a => a.sources.flatMap Symb.checks

/-- The checks of what an action declares or stores into. -/
def destinationChecks : Action → List Check
  | defVar v => [.frame v.frame, .undeclared v]
  | a => a.assigned?.elim [] Variable.checks

end Action

namespace Machine

/-- The checks of the values of an action's sources. There are none before all sources have a value. -/
def valueChecks (m : Machine σ) (a : Action) : List Check :=
  match a.sources.mapM m.memory.value? with
  | some values => a.instruction.opcode.checks values
  | none => []

/-- The checks of an action in the order in which they are made. -/
def actionChecks (m : Machine σ) (a : Action) : List Check :=
  a.destination?.toList.map Check.label ++ (a.accessChecks ++ (m.valueChecks a ++ a.destinationChecks))

/-- The checks of an instruction that fits its signature. -/
def checks (m : Machine σ) (i : Instruction) : List Check :=
  match i.action with
  | .ok a => m.actionChecks a
  | .error _ => []

/-- The fault of the first check that does not pass. -/
def firstFault? (m : Machine σ) (cs : List Check) : Option Fault :=
  (cs.find? fun c => !c.holds m).map Check.fault

/-! ### Lists of checks -/

theorem firstFault?_cons (m : Machine σ) (c : Check) (cs : List Check) :
    m.firstFault? (c :: cs) = if c.holds m then m.firstFault? cs else some c.fault := by
  unfold firstFault?
  cases h : c.holds m <;> simp [h]

theorem firstFault?_singleton (m : Machine σ) (c : Check) :
    m.firstFault? [c] = if c.holds m then none else some c.fault :=
  firstFault?_cons m c []

theorem firstFault?_append (m : Machine σ) (cs ds : List Check) :
    m.firstFault? (cs ++ ds) = (m.firstFault? cs).or (m.firstFault? ds) := by
  unfold firstFault?
  rw [List.find?_append]
  cases cs.find? fun c => !c.holds m <;> rfl

theorem firstFault?_eq_none_iff {m : Machine σ} {cs : List Check} :
    m.firstFault? cs = none ↔ ∀ c ∈ cs, c.holds m = true := by
  simp [firstFault?]

end Machine

end IPPcode23
