import IPPcode23.Fault
import IPPcode23.Proofs.Signature
import Mathlib.Logic.Embedding.Basic

/-!
# Renaming in programs

A renaming gives variables and labels other names, different ones for different ones. It keeps the kinds of operands, so a
renamed instruction fits its signature exactly if the instruction does, and fails to fit it for the same reason
(`action_rename`).
-/

namespace IPPcode23

/-- Other names for variables, whichever frame they live in, and for labels. -/
structure Renaming where
  var : String ↪ String
  label : String ↪ String

/-- The renaming that leaves all names as they are. -/
def Renaming.refl : Renaming :=
  ⟨.refl _, .refl _⟩

variable (r : Renaming)

def Variable.rename (v : Variable) : Variable :=
  ⟨v.frame, r.var v.name⟩

def Operand.rename : Operand → Operand
  | var v => var (v.rename r)
  | label name => label (r.label name)
  | const x => const x
  | type t => type t

def Instruction.rename (i : Instruction) : Instruction :=
  ⟨i.opcode, i.operands.map (Operand.rename r)⟩

def Program.rename (p : Program) : Program :=
  p.map (Instruction.rename r)

def Symb.rename : Symb → Symb
  | var v => var (v.rename r)
  | const x => const x

def Action.rename : Action → Action
  | createFrame => createFrame
  | pushFrame => pushFrame
  | popFrame => popFrame
  | defVar v => defVar (v.rename r)
  | call name => call (r.label name)
  | ret => ret
  | pushs source => pushs (source.rename r)
  | pops v => pops (v.rename r)
  | unary op v source => unary op (v.rename r) (source.rename r)
  | binary op v left right => binary op (v.rename r) (left.rename r) (right.rename r)
  | setChar v index replacement => setChar (v.rename r) (index.rename r) (replacement.rename r)
  | typeOf v source => typeOf (v.rename r) (source.rename r)
  | read v t => read (v.rename r) t
  | write source => write (source.rename r)
  | label name => label (r.label name)
  | jump name => jump (r.label name)
  | jumpIf wanted name left right => jumpIf wanted (r.label name) (left.rename r) (right.rename r)
  | exit source => exit (source.rename r)
  | dprint source => dprint (source.rename r)
  | dump => dump

/-- The fault with the names that it holds renamed. -/
def Fault.rename : Fault → Fault
  | duplicateLabel label => duplicateLabel (r.label label)
  | undefinedLabel label => undefinedLabel (r.label label)
  | redefinition v => redefinition (v.rename r)
  | undefinedVariable v => undefinedVariable (v.rename r)
  | missingValue v => missingValue (v.rename r)
  | fault => fault

theorem Fault.exitCode_rename (fault : Fault) : (fault.rename r).exitCode = fault.exitCode := by
  cases fault <;> rfl

theorem Instruction.declaredLabel?_rename (i : Instruction) :
    (i.rename r).declaredLabel? = i.declaredLabel?.map r.label := by
  obtain ⟨opcode, operands⟩ := i
  cases operands with
  | nil => cases opcode <;> rfl
  | cons o operands => cases opcode <;> cases o <;> rfl

/-! ### Names as they are -/

theorem Instruction.rename_refl (i : Instruction) : i.rename .refl = i := by
  have hoperand : Operand.rename .refl = id := by
    funext o
    cases o <;> rfl
  rw [rename, hoperand, List.map_id]

theorem Fault.rename_refl (fault : Fault) : fault.rename .refl = fault := by
  cases fault <;> rfl

/-! ### Actions of renamed instructions -/

private theorem OperandKind.argument?_rename_eq_none_iff {k : OperandKind} {o : Operand} :
    k.argument? (o.rename r) = none ↔ k.argument? o = none := by
  cases k <;> cases o <;> simp [argument?, Operand.rename]

namespace Instruction

private theorem takeArguments_rename_eq_error {op : Opcode} {n : Nat} {ks : List OperandKind} {os : List Operand}
    {h : os.length = ks.length} {h' : (os.map (Operand.rename r)).length = ks.length} {cause : SignatureError}
    (herror : takeArguments op n ks os h = .error cause) :
    takeArguments op n ks (os.map (Operand.rename r)) h' = .error cause := by
  induction ks generalizing n os with
  | nil => cases herror
  | cons k ks ih =>
    cases os with
    | nil => simp at h
    | cons o os =>
      change takeArguments op n (k :: ks) (o.rename r :: os.map (Operand.rename r)) h' = .error cause
      rw [takeArguments] at herror ⊢
      cases ho : k.argument? o with
      | none =>
        rw [ho] at herror
        rw [(OperandKind.argument?_rename_eq_none_iff r).2 ho]
        exact herror
      | some a =>
        rw [ho] at herror
        have hne : k.argument? (o.rename r) ≠ none := by
          rw [Ne, OperandKind.argument?_rename_eq_none_iff r, ho]
          simp
        obtain ⟨a', ho'⟩ := Option.ne_none_iff_exists'.1 hne
        rw [ho']
        exact map_eq_error.2 (ih (map_eq_error.1 herror))

private theorem arguments_rename_eq_error {i : Instruction} {cause : SignatureError} (h : i.arguments = .error cause) :
    (i.rename r).arguments = .error cause := by
  unfold arguments at h ⊢
  split at h
  case isTrue hlength =>
    have hlength' : (i.rename r).operands.length = (i.rename r).opcode.signature.length := by
      simpa [rename] using hlength
    rw [dif_pos hlength']
    exact takeArguments_rename_eq_error r h
  case isFalse hlength =>
    have hlength' : ¬ (i.rename r).operands.length = (i.rename r).opcode.signature.length := by
      simpa [rename] using hlength
    rw [dif_neg hlength']
    cases h
    simp [rename]

private theorem operand_rename (source : Symb) : (source.rename r).operand = source.operand.rename r := by
  cases source <;> rfl

theorem instruction_rename (a : Action) : (a.rename r).instruction = a.instruction.rename r := by
  cases a <;> simp [Action.rename, Action.instruction, rename, Operand.rename, operand_rename]

/-- A renamed instruction is the renamed action, or it fails to fit its signature as before. -/
theorem action_rename (i : Instruction) : (i.rename r).action = Action.rename r <$> i.action := by
  cases ha : i.action with
  | ok a =>
    obtain rfl := action_eq_ok_iff.1 ha
    exact action_eq_ok_iff.2 (instruction_rename r a)
  | error cause => exact map_eq_error.2 (arguments_rename_eq_error r (map_eq_error.1 ha))

end Instruction

end IPPcode23
