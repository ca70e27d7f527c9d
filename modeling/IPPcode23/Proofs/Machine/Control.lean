import IPPcode23.Proofs.Machine.Execution
import IPPcode23.Proofs.Machine.Labels

/-!
# Control

Where a machine is in its program: the program counter, the call stack and the label table. Each instruction goes on
with the next one, with the declaration of the label that it names, or behind the innermost call (`Transfers`). So the
program counter never leaves the program, every index on the call stack is one behind a `CALL`, and the label table
is that of the program (`InControl`), from the start of an execution to its end and from one execution to the next.
-/

namespace IPPcode23

variable {σ : Type}

/-- The label that an action may go to. -/
def Action.destination? : Action → Option String
  | call name | jump name | jumpIf _ name _ _ => some name
  | _ => none

theorem Action.head?_operands_of_destination? {a : Action} {label : String} (h : a.destination? = some label) :
    a.instruction.operands.head? = some (.label label) := by
  cases a <;> cases h <;> rfl

namespace Machine

/-! ### Control within the program -/

/-- An index behind a `CALL` of the program. -/
def IsReturn (p : Program) (n : Nat) : Prop :=
  1 ≤ n ∧ n ≤ p.size ∧ ∃ i, p[n - 1]? = some i ∧ i.opcode = .call

/-- A machine that is within its program. -/
structure InControl (p : Program) (m : Machine σ) : Prop where
  pc_le : m.pc ≤ p.size
  returns : ∀ n ∈ m.calls, IsReturn p n
  labels : m.labels.Resolves p.toList

private theorem isReturn_succ {p : Program} {n : Nat} {label : String}
    (h : p[n]? = some (Action.call label).instruction) : IsReturn p (n + 1) := by
  have hlt : n < p.size := (Array.getElem?_eq_some_iff.1 h).1
  exact ⟨by omega, by omega, _, h, rfl⟩

/-- The start of an execution needs only the call stack to be one of the program. -/
theorem InControl.of_start {p : Program} {m m₁ : Machine σ} (hcalls : ∀ n ∈ m.calls, IsReturn p n)
    (hstart : m.start p = .running m₁) : InControl p m₁ := by
  obtain ⟨labels, htable, rfl⟩ := start_eq_running_iff.1 hstart
  exact ⟨Nat.zero_le _, hcalls, LabelTable.ofProgram_resolves htable⟩

variable [Input σ]

/-! ### One action -/

/-- How an action moves control from a machine to another one. -/
inductive Transfers (m m' : Machine σ) : Action → Prop where
  | next {a : Action} (hpc : m'.pc = m.pc) (hcalls : m'.calls = m.calls) : Transfers m m' a
  | jump {a : Action} {label : String} (ha : a.destination? = some label)
    (hpc : m.labels.lookup label = some m'.pc) (hcalls : m'.calls = m.calls) : Transfers m m' a
  | call {label : String} (hpc : m.labels.lookup label = some m'.pc) (hcalls : m'.calls = m.pc :: m.calls) :
    Transfers m m' (.call label)
  | ret (hcalls : m.calls = m'.pc :: m'.calls) : Transfers m m' .ret

theorem Executes.transfers {m m' : Machine σ} {a : Action} (h : Executes m a m') : Transfers m m' a := by
  cases h with
  | call h => exact .call h rfl
  | ret h => exact .ret h
  | jump h => exact .jump rfl h rfl
  | @jumpIf wanted result label _ _ n _ _ h hx hy hresult =>
    by_cases hwanted : result = wanted
    · rw [if_pos hwanted]
      exact .jump rfl h rfl
    · rw [if_neg hwanted]
      exact .next rfl rfl
  | _ => exact .next rfl rfl

theorem Executes.labels_eq {m m' : Machine σ} {a : Action} (h : Executes m a m') : m'.labels = m.labels := by
  cases h with
  | jumpIf => split <;> rfl
  | _ => rfl

/-- A step goes on by the rule of the next instruction, or it ends the execution with the control at most one
instruction further. -/
theorem step_running_or_over (p : Program) (m : Machine σ) :
    (∃ a m', p[m.pc]? = some a.instruction ∧ Executes m.enter a m' ∧ m.step p = .running m') ∨
      ((m.step p).machine.labels = m.labels ∧ (m.step p).machine.calls = m.calls ∧
        ((m.step p).machine.pc = m.pc ∨ m.pc < p.size ∧ (m.step p).machine.pc = m.pc + 1)) := by
  have h := steps_step p m
  generalize m.step p = r at h
  cases h with
  | next hi h => exact Or.inl ⟨_, _, hi, h, rfl⟩
  | atEnd => right; simp
  | malformed hi =>
    have hlt : m.pc < p.size := (Array.getElem?_eq_some_iff.1 hi).1
    exact Or.inr ⟨rfl, rfl, Or.inr ⟨hlt, rfl⟩⟩
  | exit hi =>
    have hlt : m.pc < p.size := (Array.getElem?_eq_some_iff.1 hi).1
    rw [machine_finish]
    exact Or.inr ⟨rfl, rfl, Or.inr ⟨hlt, rfl⟩⟩
  | fail hi h =>
    have hlt : m.pc < p.size := (Array.getElem?_eq_some_iff.1 hi).1
    obtain ⟨hlabels, hcalls, hpc, _⟩ := control_of_execute_eq_fail h
    exact Or.inr ⟨hlabels, hcalls, Or.inr ⟨hlt, hpc⟩⟩

/-! ### Steps and executions -/

private theorem InControl.executes {p : Program} {m m' : Machine σ} {a : Action} (h : InControl p m)
    (hi : p[m.pc]? = some a.instruction) (hexec : Executes m.enter a m') : InControl p m' := by
  have hlt : m.pc < p.size := (Array.getElem?_eq_some_iff.1 hi).1
  have hlabels : m'.labels.Resolves p.toList := by
    rw [hexec.labels_eq]
    exact h.labels
  have hdeclared : ∀ {label n}, m.labels.lookup label = some n → n ≤ p.size := by
    intro label n hn
    obtain ⟨i, hi, _⟩ := (h.labels label n).1 hn
    have := (List.getElem?_eq_some_iff.1 hi).1
    rw [Array.length_toList] at this
    omega
  cases hexec.transfers with
  | next hpc hcalls =>
    refine ⟨?_, by rw [hcalls]; exact h.returns, hlabels⟩
    rw [hpc]
    exact hlt
  | jump _ hpc hcalls => exact ⟨hdeclared hpc, by rw [hcalls]; exact h.returns, hlabels⟩
  | call hpc hcalls =>
    refine ⟨hdeclared hpc, ?_, hlabels⟩
    rw [hcalls]
    exact List.forall_mem_cons.2 ⟨isReturn_succ hi, h.returns⟩
  | ret hcalls =>
    -- the index that is popped was on the call stack, so it is one behind a `CALL`
    have hreturns : ∀ n ∈ m'.pc :: m'.calls, IsReturn p n := by
      rw [← hcalls]
      exact h.returns
    obtain ⟨hpc, hrest⟩ := List.forall_mem_cons.1 hreturns
    exact ⟨hpc.2.1, hrest, hlabels⟩

private theorem InControl.step {p : Program} {m : Machine σ} (h : InControl p m) : InControl p (m.step p).machine := by
  rcases step_running_or_over p m with ⟨a, m', hi, hexec, hstep⟩ | ⟨hlabels, hcalls, hpc⟩
  · rw [hstep]
    exact h.executes hi hexec
  · refine ⟨?_, by rw [hcalls]; exact h.returns, by rw [hlabels]; exact h.labels⟩
    have hle := h.pc_le
    omega

theorem InControl.run {p : Program} {m : Machine σ} (h : InControl p m) (n : Nat) : InControl p (m.run p n).machine :=
  run_invariant (fun _ hm => hm.step) h n

/-- The call stack that executions leave behind is one of the program. -/
private theorem Session.returns {p : Program} {m : Machine σ} (h : Session p m) : ∀ n ∈ m.calls, IsReturn p n := by
  induction h with
  | fresh => simp [Machine.fresh]
  | @execute m n _ _ ih =>
    rcases executeFor_cases p m n with ⟨e, _, hfailed⟩ | ⟨m₁, hstart, hrun⟩
    · rw [hfailed]
      exact ih
    · rw [hrun]
      exact ((InControl.of_start ih hstart).run n).returns

/-! ### Every machine that an execution comes to -/

/-- An instruction that succeeds goes on with the next one, with the declaration of the label it names, or with
the index it pops from the call stack. -/
private theorem InControl.pc_of_perform {p : Program} {m m' : Machine σ} {i : Instruction} (h : InControl p m)
    (hi : m.enter.perform i = .next m' ∨ ∃ code, m.enter.perform i = .exit code m') :
    m'.pc = m.pc + 1 ∨
      (∃ label i', i.operands.head? = some (.label label) ∧ p[m'.pc]? = some i' ∧ i'.declaredLabel? = some label) ∨
      (i.opcode = .ret ∧ m.calls = m'.pc :: m'.calls) := by
  cases ha : i.action with
  | error cause => simp [perform, ha] at hi
  | ok a =>
    simp only [perform, ha] at hi
    obtain rfl := Instruction.action_eq_ok_iff.1 ha
    rcases hi with hnext | ⟨code, hexit⟩
    · cases (execute_eq_next_iff.1 hnext).transfers with
      | next hpc _ => exact Or.inl hpc
      | jump hlabel hpc _ =>
        obtain ⟨i', hi', hdeclared⟩ := (h.labels _ _).1 hpc
        rw [Array.getElem?_toList] at hi'
        exact Or.inr (Or.inl ⟨_, i', Action.head?_operands_of_destination? hlabel, hi', hdeclared⟩)
      | call hpc _ =>
        obtain ⟨i', hi', hdeclared⟩ := (h.labels _ _).1 hpc
        rw [Array.getElem?_toList] at hi'
        exact Or.inr (Or.inl ⟨_, i', rfl, hi', hdeclared⟩)
      | ret hcalls => exact Or.inr (Or.inr ⟨rfl, hcalls⟩)
    · obtain ⟨_, _, _, _, _, rfl⟩ := execute_eq_exit_iff.1 hexit
      exact Or.inl rfl

/-- However many executions a machine has behind it, and however they ended: in every machine that the next one comes to,
the program counter is within the program or at its end, every index on the call stack is one behind a `CALL`, the
label table has exactly the labels declared, and an instruction that succeeds goes to one of three places. -/
theorem control_within_program {p : Program} {m m₁ s : Machine σ} {n : Nat} (hsession : Session p m)
    (hstart : m.start p = .running m₁) (hs : (m₁.run p n).machine = s) :
    s.pc ≤ p.size ∧
    (∀ r ∈ s.calls, 1 ≤ r ∧ r ≤ p.size ∧ ∃ i, p[r - 1]? = some i ∧ i.opcode = .call) ∧
    (∀ name j, s.labels.lookup name = some j ↔ ∃ i, p[j]? = some i ∧ i.declaredLabel? = some name) ∧
    ∀ i s', p[s.pc]? = some i → (s.enter.perform i = .next s' ∨ ∃ code, s.enter.perform i = .exit code s') →
      s'.pc = s.pc + 1 ∨
        (∃ name i', i.operands.head? = some (.label name) ∧ p[s'.pc]? = some i' ∧ i'.declaredLabel? = some name) ∨
        (i.opcode = .ret ∧ s.calls = s'.pc :: s'.calls) := by
  have h : InControl p s := by
    rw [← hs]
    exact (InControl.of_start hsession.returns hstart).run n
  refine ⟨h.pc_le, h.returns, ?_, ?_⟩
  · intro name j
    rw [h.labels name j, Declares, Array.getElem?_toList]
  · intro i s' _ hi
    exact h.pc_of_perform hi

/-- A second execution, after one that failed within a call. -/
theorem control_within_program_after_failure :
    let p : Program := #[⟨.call, [.label "f"]⟩, ⟨.label, [.label "f"]⟩, ⟨.popFrame, []⟩]
    let left := ((fresh (Source.lines []) {} {}).executeFor p 3).machine
    let s := (left.executeFor p 1).machine
    s.calls = [1, 1] ∧ s.pc ≤ p.size ∧
      (∀ r ∈ s.calls, 1 ≤ r ∧ r ≤ p.size ∧ ∃ i, p[r - 1]? = some i ∧ i.opcode = .call) ∧
      (s.labels.lookup "f" = some 1 ↔ ∃ i, p[1]? = some i ∧ i.declaredLabel? = some "f") := by
  intro p left s
  have hsession : Session p left := by
    refine .execute (.fresh _ _ _) fun m' h => ?_
    cases h
  obtain ⟨hpc, hcalls, hlabels, _⟩ := control_within_program (n := 1) (s := s) hsession rfl rfl
  exact ⟨rfl, hpc, hcalls, hlabels "f" 1⟩

end Machine

end IPPcode23
