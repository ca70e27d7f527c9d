import IPPcode23.Proofs.Machine.Execution

/-!
# Effects on frames

What an action does to the frames: it makes, pushes or pops one, it updates one variable, or it leaves them as they are
(`Effect`). So an instruction other than the three that handle frames changes one slot at most, the one that its first
operand names, and what is once declared or initialized in the global frame remains so (`changes_only_first_operand`).
-/

namespace IPPcode23

variable {σ : Type} [Input σ]

/-- The variable that an action gives a value. -/
def Action.assigned? : Action → Option Variable
  | pops v | unary _ v _ | binary _ v _ _ | setChar v _ _ | typeOf v _ | read v _ => some v
  | _ => none

namespace Machine

/-- The value that an action gives its variable, provided that it succeeds. -/
def result? (m : Machine σ) : Action → Option Value
  | .pops _ => m.data.head?
  | .unary op _ source => (do op.eval (← m.memory.value source)).toOption
  | .binary op _ left right => (do op.eval (← m.memory.value left) (← m.memory.value right)).toOption
  | .setChar v index replacement =>
    (do (← m.memory.read v).setChar (← m.memory.value index) (← m.memory.value replacement)).toOption
  | .typeOf _ source => (Value.string <$> m.memory.typeName source).toOption
  | .read _ t => (t.interpret <$> Input.answer m.input).toOption
  | _ => none

/-- The variable that an action updates, and how, provided that it succeeds. -/
def update? (m : Machine σ) : Action → Option (Variable × Update)
  | .defVar v => some (v, .declare)
  | a =>
    match a.assigned?, m.result? a with
    | some v, some x => some (v, .assign x)
    | _, _ => none

private theorem update?_eq_some_iff {m : Machine σ} {a : Action} {v : Variable} {u : Update} :
    m.update? a = some (v, u) ↔
      a = .defVar v ∧ u = .declare ∨ ∃ x, a.assigned? = some v ∧ m.result? a = some x ∧ u = .assign x := by
  unfold update?
  split
  case h_1 w =>
    simp only [Action.assigned?, reduceCtorEq, false_and, exists_false, or_false, Option.some.injEq, Prod.mk.injEq,
      Action.defVar.injEq, eq_comm]
  case h_2 hother =>
    have hdefVar : a ≠ .defVar v := hother v
    cases a.assigned? with
    | none => simp [hdefVar]
    | some w =>
      cases m.result? a with
      | none => simp [hdefVar]
      | some x => simp [hdefVar, eq_comm]

/-- The variable that is updated is the first operand. -/
private theorem head?_operands_of_update? {m : Machine σ} {a : Action} {v : Variable} {u : Update}
    (h : m.update? a = some (v, u)) : a.instruction.operands.head? = some (.var v) := by
  rcases update?_eq_some_iff.1 h with ⟨rfl, _⟩ | ⟨_, hv, _⟩
  · rfl
  · cases a <;> cases hv <;> rfl

/-- Only a `DEFVAR` declares. -/
private theorem opcode_of_update?_declare {m : Machine σ} {a : Action} {v : Variable}
    (h : m.update? a = some (v, .declare)) : a.instruction.opcode = .defVar := by
  rcases update?_eq_some_iff.1 h with ⟨rfl, _⟩ | ⟨_, _, _, hu⟩
  · rfl
  · cases hu

/-! ### One action -/

/-- What an action does to the frames of a machine. -/
inductive Effect (m : Machine σ) (memory : Memory) : Action → Prop where
  | keep {a : Action} (ha : m.update? a = none) (h : memory = m.memory) : Effect m memory a
  | create (h : memory = m.memory.create) : Effect m memory .createFrame
  | push (h : m.memory.push = .ok memory) : Effect m memory .pushFrame
  | pop (h : m.memory.pop = .ok memory) : Effect m memory .popFrame
  | update {a : Action} {v : Variable} {u : Update} (ha : m.update? a = some (v, u))
    (h : m.memory.Updates memory v u) : Effect m memory a

private theorem effect_of_assign {m : Machine σ} {memory : Memory} {a : Action} {v : Variable} {x : Value}
    (hv : a.assigned? = some v) (hx : m.result? a = some x) (h : m.memory.assign v x = .ok memory) :
    Effect m memory a :=
  .update (update?_eq_some_iff.2 (Or.inr ⟨x, hv, hx, rfl⟩)) (Memory.assign_eq_ok_iff.1 h)

theorem Executes.effect {m m' : Machine σ} {a : Action} (h : Executes m a m') : Effect m m'.memory a := by
  cases h with
  | createFrame => exact .create rfl
  | pushFrame h => exact .push h
  | popFrame h => exact .pop h
  | defVar h => exact .update rfl (Memory.declare_eq_ok_iff.1 h)
  | pops hdata h => exact effect_of_assign rfl (by rw [result?, hdata]; rfl) h
  | unary hx hy h => exact effect_of_assign rfl (by rw [result?, hx]; exact congrArg Except.toOption hy) h
  | binary hx hy hz h => exact effect_of_assign rfl (by rw [result?, hx, hy]; exact congrArg Except.toOption hz) h
  | setChar hs hi hr hx h =>
    exact effect_of_assign rfl (by rw [result?, hs, hi, hr]; exact congrArg Except.toOption hx) h
  | typeOf hname h => exact effect_of_assign rfl (by rw [result?, hname]; rfl) h
  | read hread h => exact effect_of_assign rfl (by rw [result?, hread]; rfl) h
  | jumpIf => exact .keep rfl (by split <;> rfl)
  | _ => exact .keep rfl rfl

/-- Only `PUSHS` and `POPS` change the data stack. -/
private theorem Executes.data_eq {m m' : Machine σ} {a : Action} (h : Executes m a m')
    (hpushs : a.instruction.opcode ≠ .pushs) (hpops : a.instruction.opcode ≠ .pops) : m'.data = m.data := by
  cases h with
  | pushs => exact absurd rfl hpushs
  | pops => exact absurd rfl hpops
  | jumpIf => split <;> rfl
  | _ => rfl

/-- Only `CALL` and `RETURN` change the call stack. -/
private theorem Executes.calls_eq {m m' : Machine σ} {a : Action} (h : Executes m a m')
    (hcall : a.instruction.opcode ≠ .call) (hret : a.instruction.opcode ≠ .ret) : m'.calls = m.calls := by
  cases h with
  | call => exact absurd rfl hcall
  | ret => exact absurd rfl hret
  | jumpIf => split <;> rfl
  | _ => rfl

/-! ### One step -/

/-- A step leaves the frames as they are, or it updates the first operand, or it handles frames. -/
private theorem step_effect {p : Program} {m : Machine σ} {i : Instruction} (hi : p[m.pc]? = some i) :
    (m.step p).machine.memory = m.memory ∨
      (∃ v u, i.operands.head? = some (.var v) ∧ (u = .declare → i.opcode = .defVar) ∧
        m.memory.Updates (m.step p).machine.memory v u) ∨
      i.opcode = .createFrame ∨ i.opcode = .pushFrame ∨ i.opcode = .popFrame := by
  rcases step_running_or_kept p m with ⟨a, m', ha, hexec, hstep⟩ | ⟨_, hmemory, _⟩
  · obtain rfl := Option.some.inj (hi.symm.trans ha)
    rw [hstep]
    cases hexec.effect with
    | keep _ h => exact Or.inl h
    | create | push | pop => simp [Action.instruction]
    | update hu h =>
      refine Or.inr (Or.inl ⟨_, _, head?_operands_of_update? hu, ?_, h⟩)
      rintro rfl
      exact opcode_of_update?_declare hu
  · exact Or.inl hmemory

private theorem step_data {p : Program} {m : Machine σ} {i : Instruction} (hi : p[m.pc]? = some i)
    (hpushs : i.opcode ≠ .pushs) (hpops : i.opcode ≠ .pops) : (m.step p).machine.data = m.data := by
  rcases step_running_or_kept p m with ⟨a, m', ha, hexec, hstep⟩ | ⟨_, _, hdata, _⟩
  · obtain rfl := Option.some.inj (hi.symm.trans ha)
    rw [hstep]
    exact hexec.data_eq hpushs hpops
  · exact hdata

private theorem step_calls {p : Program} {m : Machine σ} {i : Instruction} (hi : p[m.pc]? = some i)
    (hcall : i.opcode ≠ .call) (hret : i.opcode ≠ .ret) : (m.step p).machine.calls = m.calls := by
  rcases step_running_or_kept p m with ⟨a, m', ha, hexec, hstep⟩ | ⟨_, _, _, hcalls⟩
  · obtain rfl := Option.some.inj (hi.symm.trans ha)
    rw [hstep]
    exact hexec.calls_eq hcall hret
  · exact hcalls

/-- No step takes a name or a value away from the global frame. -/
private theorem global_extends_step (p : Program) (m : Machine σ) :
    m.memory.global.Extends (m.step p).machine.memory.global := by
  rcases step_running_or_kept p m with ⟨a, m', _, hexec, hstep⟩ | ⟨_, hmemory, _⟩
  · rw [hstep]
    show m.memory.global.Extends m'.memory.global
    cases hexec.effect with
    | keep _ h => rw [h]; exact .refl _
    | create h => rw [h]; exact .refl _
    | push h =>
      obtain ⟨f, _, hpush⟩ := Memory.push_eq_ok_iff.1 h
      rw [← hpush]
      exact .refl _
    | pop h =>
      obtain ⟨f, rest, _, hpop⟩ := Memory.pop_eq_ok_iff.1 h
      rw [← hpop]
      exact .refl _
    | update _ h =>
      rcases h.global_eq with hglobal | hupdate
      · rw [hglobal]
        exact .refl _
      · exact Frame.extends_of_update? hupdate
  · rw [hmemory]
    exact .refl _

/-- Neither a run nor any number of executions takes a name or a value away from the global frame. -/
private theorem global_extends_executions (p : Program) (m : Machine σ) (n : Nat) (ns : List Nat) :
    m.memory.global.Extends ((m.run p n).machine.executions p ns).memory.global := by
  have hstep : ∀ s : Machine σ, m.memory.global.Extends s.memory.global →
      m.memory.global.Extends (s.step p).machine.memory.global :=
    fun s hs => hs.trans (global_extends_step p s)
  have hrun : m.memory.global.Extends (m.run p n).machine.memory.global :=
    run_invariant (P := fun s => m.memory.global.Extends s.memory.global) hstep (.refl _) n
  refine executions_invariant (P := fun s => m.memory.global.Extends s.memory.global) hstep ?_ hrun ns
  intro s labels pc hs
  exact hs

/-- An instruction other than `CREATEFRAME`, `PUSHFRAME` and `POPFRAME`, whether it succeeds or not, changes nothing but
the variable that is its first operand: all other variables, the local frames below the innermost one, the number of
local frames and the presence of the temporary frame stay as they are. Only a `DEFVAR` adds a name, and none takes one
away. Only `PUSHS` and `POPS` change the data stack, and only `CALL` and `RETURN` the call stack. So from any machine on,
along a run and any number of executions after it, names of the global frame are only added, and its initialized variables
remain initialized. -/
theorem changes_only_first_operand :
    (∀ (p : Program) (m m' : Machine σ) (i : Instruction), p[m.pc]? = some i → (m.step p).machine = m' →
      i.opcode ≠ .createFrame → i.opcode ≠ .pushFrame → i.opcode ≠ .popFrame →
      (∀ v, i.operands.head? ≠ some (.var v) → m'.memory.slot? v = m.memory.slot? v) ∧
      m'.memory.locals.tail = m.memory.locals.tail ∧
      m'.memory.locals.length = m.memory.locals.length ∧
      m'.memory.temporary.isSome = m.memory.temporary.isSome ∧
      (∀ v, m.memory.HasVariable v → m'.memory.HasVariable v) ∧
      (i.opcode ≠ .defVar → ∀ v, m'.memory.HasVariable v → m.memory.HasVariable v)) ∧
    (∀ (p : Program) (m m' : Machine σ) (i : Instruction), p[m.pc]? = some i → (m.step p).machine = m' →
      (i.opcode ≠ .pushs → i.opcode ≠ .pops → m'.data = m.data) ∧
      (i.opcode ≠ .call → i.opcode ≠ .ret → m'.calls = m.calls)) ∧
    (∀ (p : Program) (m m' : Machine σ) (n : Nat) (ns : List Nat), (m.run p n).machine.executions p ns = m' →
      m.memory.global.names ⊆ m'.memory.global.names ∧
      ∀ name x, m.memory.global.lookup name = .initialized x → ∃ y, m'.memory.global.lookup name = .initialized y) := by
  refine ⟨?_, ?_, ?_⟩
  · rintro p m _ i hi rfl hcreate hpush hpop
    rcases step_effect hi with hmemory | ⟨v, u, hv, hu, h⟩ | hframe | hframe | hframe
    · rw [hmemory]
      exact ⟨fun _ _ => rfl, rfl, rfl, rfl, fun _ h => h, fun _ _ h => h⟩
    · refine ⟨?_, h.tail_locals, h.length_locals, h.isSome_temporary, ?_, ?_⟩
      · intro w hw
        have hne : w ≠ v := by
          rintro rfl
          exact hw hv
        rw [h.slot?_eq, if_neg hne]
      · intro w hw
        exact (h.hasVariable_iff w).2 (Or.inl hw)
      · intro hdefVar w hw
        rcases (h.hasVariable_iff w).1 hw with hw | ⟨hdeclare, _⟩
        · exact hw
        · exact absurd (hu hdeclare) hdefVar
    · exact absurd hframe hcreate
    · exact absurd hframe hpush
    · exact absurd hframe hpop
  · rintro p m _ i hi rfl
    exact ⟨step_data hi, step_calls hi⟩
  · rintro p m _ n ns rfl
    exact ⟨(global_extends_executions p m n ns).names, (global_extends_executions p m n ns).initialized⟩

/-- A `MOVE`, and after it a second execution, which fails at the `DEFVAR` of the first instruction. -/
theorem changes_only_first_operand_move :
    let p : Program := #[⟨.defVar, [.var ⟨.global, "x"⟩]⟩, ⟨.unary .move, [.var ⟨.global, "x"⟩, .const .nil]⟩]
    let m := ((fresh (Source.lines []) {} {}).run p 1).machine
    let m' := (m.step p).machine
    m.memory.slot? ⟨.global, "x"⟩ = some .uninitialized ∧ m'.memory.slot? ⟨.global, "x"⟩ = some (.initialized .nil) ∧
      m'.memory.slot? ⟨.global, "y"⟩ = m.memory.slot? ⟨.global, "y"⟩ ∧ m'.data = m.data ∧ m'.calls = m.calls ∧
      ∃ y, ((m'.run p 1).machine.executions p [1]).memory.global.lookup "x" = .initialized y := by
  intro p m m'
  obtain ⟨hslots, hstacks, hglobal⟩ := @changes_only_first_operand Source _
  have hslots := hslots p m m' _ rfl rfl (by decide) (by decide) (by decide)
  have hstacks := hstacks p m m' _ rfl rfl
  refine ⟨rfl, rfl, hslots.1 _ (by decide), hstacks.1 (by decide) (by decide), hstacks.2 (by decide) (by decide), ?_⟩
  exact (hglobal p m' _ 1 [1] rfl).2 "x" .nil rfl

end Machine

end IPPcode23
