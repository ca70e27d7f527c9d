import IPPcode23.Proofs.Machine.Execution

/-!
# The history of executions

The machines that the steps of executions have been taken from, in the order of the steps, whichever execution a step
belongs to. A property of a history together with the machine that it has led to has to be shown for a start and for a
step only (`history_invariant`).
-/

namespace IPPcode23

variable {σ : Type} [Input σ]

/-- How an execution that is over has ended. -/
def Progress.answer? : Progress σ → Option (Except RunError Halt)
  | running _ => none
  | halted how _ => some (.ok how)
  | failed e _ => some (.error e)

namespace Machine

/-- The machines that the first `n` steps of a run are taken from. The last one of these steps may end the run. -/
def runSteps (p : Program) : (n : Nat) → Machine σ → List (Machine σ)
  | 0, _ => []
  | n + 1, m =>
    m :: match m.step p with
      | .running m' => runSteps p n m'
      | _ => []

/-- The machines that the first `n` steps of an execution are taken from. -/
def executionSteps (p : Program) (n : Nat) (m : Machine σ) : List (Machine σ) :=
  match m.start p with
  | .running m' => m'.runSteps p n
  | _ => []

/-- The machines that the steps of executions are taken from, one execution after another and each for a number of
steps. -/
def history (p : Program) : Machine σ → List Nat → List (Machine σ)
  | _, [] => []
  | m, n :: ns => m.executionSteps p n ++ history p (m.executeFor p n).machine ns

theorem runSteps_succ_of_running {p : Program} {m m' : Machine σ} (h : m.step p = .running m') (n : Nat) :
    m.runSteps p (n + 1) = m :: m'.runSteps p n := by
  rw [runSteps, h]

theorem runSteps_add_of_running {p : Program} {m m' : Machine σ} {k : Nat} (h : m.run p k = .running m') (n : Nat) :
    m.runSteps p (k + n) = m.runSteps p k ++ m'.runSteps p n := by
  induction k generalizing m with
  | zero =>
    cases h
    rw [Nat.zero_add]
    rfl
  | succ k ih =>
    have hsucc : k + 1 + n = k + n + 1 := by omega
    rw [hsucc]
    rw [run] at h
    rw [runSteps, runSteps]
    cases hstep : m.step p with
    | running m₁ =>
      rw [hstep] at h
      exact congrArg (m :: ·) (ih h)
    | halted | failed =>
      rw [hstep] at h
      cases h

/-- What each step preserves of the steps before it and the machine that they have led to holds after a run. -/
theorem runSteps_invariant {P : List (Machine σ) → Machine σ → Prop} {p : Program}
    (hstep : ∀ h m, P h m → P (h ++ [m]) (m.step p).machine) {h : List (Machine σ)} {m : Machine σ} (hm : P h m) (n : Nat) :
    P (h ++ m.runSteps p n) (m.run p n).machine := by
  induction n generalizing h m with
  | zero =>
    rw [runSteps, List.append_nil]
    exact hm
  | succ n ih =>
    have hnext := hstep h m hm
    rw [runSteps, run]
    cases hm' : m.step p with
    | running m' =>
      rw [hm'] at hnext
      have hrest := ih hnext
      rwa [List.append_assoc] at hrest
    | halted | failed =>
      rw [hm'] at hnext
      exact hnext

theorem history_invariant {P : List (Machine σ) → Machine σ → Prop} {p : Program}
    (hstep : ∀ h m, P h m → P (h ++ [m]) (m.step p).machine)
    (hstart : ∀ h m labels pc, P h m → P h { m with labels, pc }) {m : Machine σ} (hm : P [] m) (ns : List Nat) :
    P (m.history p ns) (m.executions p ns) := by
  -- generalized to any history before, so that each execution adds its steps to those of the earlier ones
  have happend : ∀ h m, P h m → P (h ++ m.history p ns) (m.executions p ns) := by
    induction ns with
    | nil =>
      intro h m hm
      rw [history, executions, List.append_nil]
      exact hm
    | cons n ns ih =>
      intro h m hm
      rw [history, executions, ← List.append_assoc]
      apply ih
      unfold executionSteps
      rcases executeFor_cases p m n with ⟨e, htable, hfailed⟩ | ⟨m₁, hm₁, hrun⟩
      · rw [start_of_error htable, hfailed, List.append_nil]
        exact hstart h m _ m.pc hm
      · obtain ⟨labels, _, rfl⟩ := start_eq_running_iff.1 hm₁
        rw [hm₁, hrun]
        exact runSteps_invariant hstep (hstart h m labels 0 hm) n
  exact happend [] m hm

/-! ### Executions that are over -/

/-- More steps make no difference to a run that is over. -/
private theorem run_of_answer {p : Program} {m : Machine σ} {n k : Nat} (h : (m.run p n).answer?.isSome) (hle : n ≤ k) :
    m.run p k = m.run p n ∧ m.runSteps p k = m.runSteps p n := by
  induction n generalizing m k with
  | zero => cases h
  | succ n ih =>
    obtain ⟨k, rfl⟩ : ∃ j, k = j + 1 := ⟨k - 1, by omega⟩
    rw [run] at h
    rw [run, run, runSteps, runSteps]
    cases hstep : m.step p with
    | running m₁ =>
      rw [hstep] at h
      obtain ⟨hrun, hsteps⟩ := ih h (by omega : n ≤ k)
      exact ⟨hrun, congrArg (m :: ·) hsteps⟩
    | halted | failed => exact ⟨rfl, rfl⟩

theorem run_succ_of_answer {p : Program} {m : Machine σ} {n : Nat} (h : (m.run p n).answer?.isSome) :
    m.run p (n + 1) = m.run p n :=
  (run_of_answer h (Nat.le_succ n)).1

theorem executeFor_of_answer {p : Program} {m : Machine σ} {n k : Nat} (h : (m.executeFor p n).answer?.isSome)
    (hle : n ≤ k) : m.executeFor p k = m.executeFor p n ∧ m.executionSteps p k = m.executionSteps p n := by
  unfold executeFor at h ⊢
  unfold executionSteps
  cases hstart : m.start p with
  | running m₁ =>
    rw [hstart] at h
    exact run_of_answer h hle
  | halted | failed => exact ⟨rfl, rfl⟩

/-- All numbers of steps that are enough lead to the same. -/
theorem executeFor_unique {p : Program} {m : Machine σ} {n k : Nat} (hn : (m.executeFor p n).answer?.isSome)
    (hk : (m.executeFor p k).answer?.isSome) :
    m.executeFor p k = m.executeFor p n ∧ m.executionSteps p k = m.executionSteps p n := by
  rcases Nat.le_total n k with hle | hle
  · exact executeFor_of_answer hn hle
  · obtain ⟨hexecute, hsteps⟩ := executeFor_of_answer hk hle
    exact ⟨hexecute.symm, hsteps.symm⟩

end Machine

end IPPcode23
