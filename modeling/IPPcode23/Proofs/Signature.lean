import IPPcode23.Action
import IPPcode23.Proofs.Except
import Mathlib.Data.List.Forall2

/-!
# Instructions that fit their signatures

Arguments are taken from the operands that provide them and from no others, so an instruction is an action exactly if it
is the one that the action is written as (`action_eq_ok_iff`). It passes the check against its signature exactly if
its operands stand for the kinds of the signature one by one (`checkSignature_eq_ok_iff`). A program is valid if every
instruction passes the check and every name in it is an identifier.
-/

namespace IPPcode23

/-! ### Arguments and the operands that provide them -/

/-- The operand that provides a source. -/
def Symb.operand : Symb → Operand
  | var v => .var v
  | const x => .const x

namespace OperandKind

/-- The operand that provides an argument of a kind. -/
def operand : (k : OperandKind) → k.Argument → Operand
  | var, v => .var v
  | symb, source => source.operand
  | label, name => .label name
  | type, t => .type t

private theorem argument?_eq_some_iff {k : OperandKind} {o : Operand} {a : k.Argument} :
    k.argument? o = some a ↔ k.operand a = o := by
  constructor
  · intro h
    cases k <;> cases o <;> cases h <;> rfl
  · rintro rfl
    cases k with
    | symb => cases a <;> rfl
    | var | label | type => rfl

end OperandKind

/-- The operands that provide arguments. -/
def Arguments.operands : (ks : List OperandKind) → Arguments ks → List Operand
  | [], _ => []
  | k :: ks, (a, as) => k.operand a :: operands ks as

/-- Operands that fit a signature: as many as it has kinds, each at a position of its kind. -/
def Fits (ks : List OperandKind) (os : List Operand) : Prop :=
  List.Forall₂ (fun k o => k.accepts o = true) ks os

private theorem fits_iff {ks : List OperandKind} {os : List Operand} :
    Fits ks os ↔ ∃ as, Arguments.operands ks as = os := by
  constructor
  · intro h
    induction h with
    | nil => exact ⟨(), rfl⟩
    | cons hk _ ih =>
      obtain ⟨a, ha⟩ := Option.isSome_iff_exists.1 hk
      obtain ⟨as, rfl⟩ := ih
      rw [← OperandKind.argument?_eq_some_iff.1 ha]
      exact ⟨(a, as), rfl⟩
  · rintro ⟨as, rfl⟩
    induction ks with
    | nil => exact .nil
    | cons k ks ih =>
      obtain ⟨a, as⟩ := as
      refine .cons ?_ (ih as)
      rw [OperandKind.accepts, OperandKind.argument?_eq_some_iff.2 rfl]
      rfl

namespace Instruction

private theorem takeArguments_eq_ok_iff {op : Opcode} {n : Nat} {ks : List OperandKind} {os : List Operand}
    {h : os.length = ks.length} {as : Arguments ks} :
    takeArguments op n ks os h = .ok as ↔ Arguments.operands ks as = os := by
  induction ks generalizing n os with
  | nil =>
    obtain rfl := List.length_eq_zero_iff.1 h
    exact ⟨fun _ => rfl, fun _ => rfl⟩
  | cons k ks ih =>
    cases os with
    | nil => simp at h
    | cons o os =>
      obtain ⟨a, as⟩ := as
      simp only [Arguments.operands, List.cons.injEq]
      rw [← OperandKind.argument?_eq_some_iff, ← ih (n := n + 1) (h := by simpa using h), takeArguments]
      cases k.argument? o with
      | none => simp
      | some a' => simp [map_eq_ok, and_comm]

private theorem arguments_eq_ok_iff {i : Instruction} {as : Arguments i.opcode.signature} :
    i.arguments = .ok as ↔ Arguments.operands i.opcode.signature as = i.operands := by
  unfold arguments
  split
  case isTrue h => exact takeArguments_eq_ok_iff
  case isFalse h =>
    constructor
    · intro has
      cases has
    · intro has
      have hfits : Fits i.opcode.signature i.operands := fits_iff.2 ⟨as, has⟩
      exact absurd (List.Forall₂.length_eq hfits).symm h

theorem checkSignature_eq_ok_iff {i : Instruction} :
    i.checkSignature = .ok () ↔ Fits i.opcode.signature i.operands := by
  rw [fits_iff, checkSignature, map_eq_ok]
  simp only [arguments_eq_ok_iff, and_true]

end Instruction

/-! ### Instructions as actions -/

/-- The instruction that an action is written as. -/
def Action.instruction : Action → Instruction
  | createFrame => ⟨.createFrame, []⟩
  | pushFrame => ⟨.pushFrame, []⟩
  | popFrame => ⟨.popFrame, []⟩
  | defVar v => ⟨.defVar, [.var v]⟩
  | call name => ⟨.call, [.label name]⟩
  | ret => ⟨.ret, []⟩
  | pushs source => ⟨.pushs, [source.operand]⟩
  | pops v => ⟨.pops, [.var v]⟩
  | unary op v source => ⟨.unary op, [.var v, source.operand]⟩
  | binary op v left right => ⟨.binary op, [.var v, left.operand, right.operand]⟩
  | setChar v index replacement => ⟨.setChar, [.var v, index.operand, replacement.operand]⟩
  | typeOf v source => ⟨.typeOf, [.var v, source.operand]⟩
  | read v t => ⟨.read, [.var v, .type t]⟩
  | write source => ⟨.write, [source.operand]⟩
  | label name => ⟨.label, [.label name]⟩
  | jump name => ⟨.jump, [.label name]⟩
  | jumpIf wanted name left right => ⟨.jumpIf wanted, [.label name, left.operand, right.operand]⟩
  | exit source => ⟨.exit, [source.operand]⟩
  | dprint source => ⟨.dprint, [source.operand]⟩
  | dump => ⟨.dump, []⟩

private theorem Opcode.instruction_action (op : Opcode) (as : Arguments op.signature) :
    (op.action as).instruction = ⟨op, Arguments.operands op.signature as⟩ := by
  cases op <;> rfl

namespace Instruction

/-- An instruction is an action if and only if it is the one that the action is written as. -/
theorem action_eq_ok_iff {i : Instruction} {a : Action} : i.action = .ok a ↔ a.instruction = i := by
  constructor
  · intro h
    obtain ⟨as, has, rfl⟩ := map_eq_ok.1 h
    rw [Opcode.instruction_action, arguments_eq_ok_iff.1 has]
  · rintro rfl
    cases a with
    | pushs s | write s | exit s | dprint s | unary _ _ s | typeOf _ s => cases s <;> rfl
    | binary _ _ l r | setChar _ l r | jumpIf _ _ l r => cases l <;> cases r <;> rfl
    | _ => rfl

theorem exists_action_iff {i : Instruction} : (∃ a, i.action = .ok a) ↔ i.checkSignature = .ok () := by
  simp only [action, checkSignature, map_eq_ok, and_true]
  constructor
  · rintro ⟨a, as, has, _⟩
    exact ⟨as, has⟩
  · rintro ⟨as, has⟩
    exact ⟨_, as, has, rfl⟩

/-- An instruction that is no action fails for the reason that the check gives. -/
theorem action_eq_error_iff {i : Instruction} {cause : SignatureError} :
    i.action = .error cause ↔ i.checkSignature = .error cause := by
  rw [action, checkSignature, map_eq_error, map_eq_error]

end Instruction

/-! ### Valid programs -/

/-- The name that an operand holds: that of a variable or that of a label. -/
def Operand.name? : Operand → Option String
  | var v => some v.name
  | label name => some name
  | const _ | type _ => none

/-- An operand that holds no name but an identifier. -/
def Operand.WellNamed (o : Operand) : Prop :=
  ∀ name, o.name? = some name → isIdentifier name = true

/-- An instruction that fits its signature and holds no names but identifiers. -/
structure Instruction.Valid (i : Instruction) : Prop where
  signature : i.checkSignature = .ok ()
  names : ∀ o ∈ i.operands, o.WellNamed

/-- A program of valid instructions. -/
def Program.Valid (p : Program) : Prop :=
  ∀ i ∈ p, i.Valid

instance (o : Operand) : Decidable o.WellNamed :=
  inferInstanceAs (Decidable (∀ name ∈ o.name?, isIdentifier name = true))

instance (i : Instruction) : Decidable i.Valid :=
  decidable_of_iff (i.checkSignature = .ok () ∧ ∀ o ∈ i.operands, o.WellNamed)
    ⟨fun h => ⟨h.1, h.2⟩, fun h => ⟨h.signature, h.names⟩⟩

instance (p : Program) : Decidable p.Valid :=
  inferInstanceAs (Decidable (∀ i ∈ p, i.Valid))

end IPPcode23
