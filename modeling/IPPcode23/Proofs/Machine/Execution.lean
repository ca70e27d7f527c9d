import IPPcode23.Machine.Run
import IPPcode23.Proofs.Machine.Rules
import IPPcode23.Proofs.Signature

/-!
# Steps, executions and sessions

`Steps p m r` lists what one step can lead to, so that a property of all machines that an execution comes to has to be
shown for a single step only (`run_invariant`). A session is a number of executions of one program, one after another on
the same machine and each of them over before the next one begins.
-/

namespace IPPcode23

variable {σ : Type}

/-- The machine that an execution has come to, whether or not it is over. -/
def Progress.machine : Progress σ → Machine σ
  | running m => m
  | halted _ m => m
  | failed _ m => m

/-- How far a step comes by the outcome of its instruction. -/
def Outcome.progress : Outcome σ → Progress σ
  | next m => .running m
  | exit code m => m.finish (.exited code)
  | fail cause m => .failed ⟨m.current, cause⟩ m

namespace Machine

/-! ### The end and the start -/

@[simp]
theorem machine_finish (m : Machine σ) (how : Halt) : (m.finish how).machine = m := by
  unfold finish
  split <;> rfl

theorem finish_ne_running {m m' : Machine σ} {how : Halt} : m.finish how ≠ .running m' := by
  unfold finish
  split <;> simp

theorem finish_eq_failed_iff {m m' : Machine σ} {how : Halt} {e : RunError} :
    m.finish how = .failed e m' ↔
      m.output.refusesFlush = true ∧ ⟨m.current, .channel .flushRefused⟩ = e ∧ m = m' := by
  unfold finish
  split
  case isTrue h => simp [h]
  case isFalse h => simp [h]

theorem finish_of_flush {m : Machine σ} (h : m.output.refusesFlush = false) (how : Halt) : m.finish how = .halted how m := by
  rw [finish, h]
  rfl

theorem start_eq_running_iff {p : Program} {m m' : Machine σ} :
    m.start p = .running m' ↔ ∃ labels, LabelTable.ofProgram p = .ok labels ∧ { m with labels, pc := 0 } = m' := by
  unfold start
  cases LabelTable.ofProgram p <;> simp

theorem start_of_error {p : Program} {e : RunError} (h : LabelTable.ofProgram p = .error e) (m : Machine σ) :
    m.start p = .failed e { m with labels := LabelTable.scanned [] 0 p.toList } := by
  rw [start, h]

variable [Input σ]

/-! ### One step -/

theorem perform_instruction (m : Machine σ) (a : Action) : m.perform a.instruction = m.execute a := by
  rw [perform, Instruction.action_eq_ok_iff.2 rfl]

/-- What a step can lead to. -/
inductive Steps (p : Program) (m : Machine σ) : Progress σ → Prop where
  | atEnd (hi : p[m.pc]? = none) : Steps p m (m.finish .atEnd)
  | malformed {i : Instruction} {cause : SignatureError} (hi : p[m.pc]? = some i)
    (h : i.checkSignature = .error cause) : Steps p m (.failed ⟨m.pc, .malformed cause⟩ m.enter)
  | next {a : Action} {m' : Machine σ} (hi : p[m.pc]? = some a.instruction) (h : Executes m.enter a m') :
    Steps p m (.running m')
  | exit {source : Symb} {x : Value} {code : Nat} (hi : p[m.pc]? = some (Action.exit source).instruction)
    (hx : m.memory.value source = .ok x) (hcode : x.exitCode = .ok code) : Steps p m (m.enter.finish (.exited code))
  | fail {a : Action} {cause : Fault} {m' : Machine σ} (hi : p[m.pc]? = some a.instruction)
    (h : m.enter.execute a = .fail cause m') : Steps p m (.failed ⟨m.pc, cause⟩ m')

/-- A failed action has changed neither the stacks nor the place in the program. -/
theorem control_of_execute_eq_fail {m m' : Machine σ} {a : Action} {cause : Fault} (h : m.execute a = .fail cause m') :
    m'.labels = m.labels ∧ m'.calls = m.calls ∧ m'.pc = m.pc ∧ m'.current = m.current := by
  obtain ⟨_, _, rfl⟩ | ⟨_, _, _, rfl⟩ := eq_of_execute_eq_fail h
  · exact ⟨rfl, rfl, rfl, rfl⟩
  · exact ⟨rfl, rfl, rfl, rfl⟩

theorem steps_step (p : Program) (m : Machine σ) : Steps p m (m.step p) := by
  unfold step
  cases hi : p[m.pc]? with
  | none => exact .atEnd hi
  | some i =>
    simp only [perform]
    cases ha : i.action with
    | error cause => exact .malformed hi (Instruction.action_eq_error_iff.1 ha)
    | ok a =>
      have hi' : p[m.pc]? = some a.instruction := by rw [hi, Instruction.action_eq_ok_iff.1 ha]
      simp only
      cases hexec : m.enter.execute a with
      | next m' => exact .next hi' (execute_eq_next_iff.1 hexec)
      | exit code m' =>
        obtain ⟨source, x, rfl, hx, hcode, rfl⟩ := execute_eq_exit_iff.1 hexec
        exact .exit hi' hx hcode
      | fail cause m' =>
        have hcurrent : m'.current = m.pc := (control_of_execute_eq_fail hexec).2.2.2
        show Steps p m (.failed ⟨m'.current, cause⟩ m')
        rw [hcurrent]
        exact .fail hi' hexec

/-- A failed action has changed neither the frames nor the data stack. -/
private theorem state_of_execute_eq_fail {m m' : Machine σ} {a : Action} {cause : Fault}
    (h : m.execute a = .fail cause m') : m'.memory = m.memory ∧ m'.data = m.data := by
  obtain ⟨_, _, rfl⟩ | ⟨_, _, _, rfl⟩ := eq_of_execute_eq_fail h
  · exact ⟨rfl, rfl⟩
  · exact ⟨rfl, rfl⟩

/-- A step goes on by the rule of the next instruction, or it ends the execution with the frames and both stacks as
they are. -/
theorem step_running_or_kept (p : Program) (m : Machine σ) :
    (∃ a m', p[m.pc]? = some a.instruction ∧ Executes m.enter a m' ∧ m.step p = .running m') ∨
      ((∀ m', m.step p ≠ .running m') ∧ (m.step p).machine.memory = m.memory ∧ (m.step p).machine.data = m.data ∧
        (m.step p).machine.calls = m.calls) := by
  have h := steps_step p m
  generalize m.step p = r at h
  cases h with
  | next hi h => exact Or.inl ⟨_, _, hi, h, rfl⟩
  | atEnd | exit =>
    right
    rw [machine_finish]
    exact ⟨fun _ => finish_ne_running, rfl, rfl, rfl⟩
  | malformed => exact Or.inr ⟨by simp, rfl, rfl, rfl⟩
  | fail hi h =>
    obtain ⟨hmemory, hdata⟩ := state_of_execute_eq_fail h
    exact Or.inr ⟨by simp, hmemory, hdata, (control_of_execute_eq_fail h).2.1⟩

/-- A step goes on exactly by the rule of the next instruction. -/
theorem step_eq_running_iff {p : Program} {m m' : Machine σ} :
    m.step p = .running m' ↔ ∃ a, p[m.pc]? = some a.instruction ∧ Executes m.enter a m' := by
  constructor
  · intro hstep
    have h := steps_step p m
    generalize m.step p = r at h hstep
    cases h with
    | atEnd | exit => exact absurd hstep finish_ne_running
    | malformed | fail => cases hstep
    | next hi h => cases hstep; exact ⟨_, hi, h⟩
  · rintro ⟨a, hi, h⟩
    have ha : a.instruction.action = .ok a := Instruction.action_eq_ok_iff.2 rfl
    simp only [step, hi, perform, ha, execute_eq_next_iff.2 h]

theorem step_of_action {p : Program} {m : Machine σ} {a : Action} (hi : p[m.pc]? = some a.instruction) :
    m.step p = (m.enter.execute a).progress := by
  have ha : a.instruction.action = .ok a := Instruction.action_eq_ok_iff.2 rfl
  cases hexec : m.enter.execute a <;> simp only [step, hi, perform, ha, hexec, Outcome.progress]

/-! ### Runs -/

theorem run_succ_of_running {p : Program} {m m' : Machine σ} (h : m.step p = .running m') (n : Nat) :
    m.run p (n + 1) = m'.run p n := by
  rw [run, h]

/-- One step more is a step of the machine that the run has come to, and does nothing to a run that is over. -/
theorem run_succ_cases (p : Program) (m : Machine σ) (n : Nat) :
    (∃ m', m.run p n = .running m' ∧ m.run p (n + 1) = m'.step p) ∨
      ((∀ m', m.run p n ≠ .running m') ∧ m.run p (n + 1) = m.run p n) := by
  induction n generalizing m with
  | zero =>
    refine Or.inl ⟨m, rfl, ?_⟩
    rw [run]
    cases m.step p <;> rfl
  | succ n ih =>
    -- a run takes its first step first, and the step added last belongs to the run of what that leads to
    cases h : m.step p with
    | running m' =>
      rw [run_succ_of_running h, run_succ_of_running h]
      exact ih m'
    | halted | failed =>
      right
      rw [run, run, h]
      exact ⟨by simp, rfl⟩

theorem run_succ_of_run {p : Program} {m m' : Machine σ} {n : Nat} (h : m.run p n = .running m') :
    m.run p (n + 1) = m'.step p := by
  rcases run_succ_cases p m n with ⟨m₁, hrun, hsucc⟩ | ⟨hover, _⟩
  · cases h.symm.trans hrun
    exact hsucc
  · exact absurd h (hover m')

theorem run_add_of_running {p : Program} {m m' : Machine σ} {k : Nat} (h : m.run p k = .running m') (n : Nat) :
    m.run p (k + n) = m'.run p n := by
  induction k generalizing m with
  | zero =>
    cases h
    rw [Nat.zero_add]
  | succ k ih =>
    have hsucc : k + 1 + n = k + n + 1 := by omega
    rw [hsucc]
    rw [run] at h ⊢
    cases hstep : m.step p with
    | running m₁ =>
      rw [hstep] at h
      exact ih h
    | halted | failed =>
      rw [hstep] at h
      cases h

/-- What every step preserves holds of every machine that a run comes to. -/
theorem run_invariant {P : Machine σ → Prop} {p : Program} (hstep : ∀ m, P m → P (m.step p).machine) {m : Machine σ}
    (hm : P m) (n : Nat) : P (m.run p n).machine := by
  induction n with
  | zero => exact hm
  | succ n ih =>
    rcases run_succ_cases p m n with ⟨m', hrun, hsucc⟩ | ⟨_, hsucc⟩
    · rw [hrun] at ih
      rw [hsucc]
      exact hstep m' ih
    · rw [hsucc]
      exact ih

/-- A run that is over was ended by a step of a machine that it had come to. -/
theorem exists_step_of_run_eq {p : Program} {m : Machine σ} {n : Nat} {r : Progress σ} (h : m.run p n = r)
    (hr : ∀ m', r ≠ .running m') : ∃ k m', m.run p k = .running m' ∧ m'.step p = r := by
  induction n generalizing m with
  | zero => exact absurd h.symm (hr m)
  | succ n ih =>
    rw [run] at h
    split at h
    case h_1 m₁ hstep =>
      obtain ⟨k, m', hrun, hend⟩ := ih h
      exact ⟨k + 1, m', by rw [run_succ_of_running hstep, hrun], hend⟩
    case h_2 => exact ⟨0, m, rfl, h⟩

/-! ### Executions and sessions -/

/-- An execution stops as its labels are resolved, or it is a run of the machine that it starts with. -/
theorem executeFor_cases (p : Program) (m : Machine σ) (n : Nat) :
    (∃ e, LabelTable.ofProgram p = .error e ∧
        m.executeFor p n = .failed e { m with labels := LabelTable.scanned [] 0 p.toList }) ∨
      ∃ m₁, m.start p = .running m₁ ∧ m.executeFor p n = m₁.run p n := by
  unfold executeFor start
  cases LabelTable.ofProgram p with
  | error e => exact Or.inl ⟨e, rfl, rfl⟩
  | ok labels => exact Or.inr ⟨_, rfl, rfl⟩

/-- The machine that executions of a program lead to, one after another and each for a number of steps. -/
def executions (p : Program) : Machine σ → List Nat → Machine σ
  | m, [] => m
  | m, n :: ns => executions p (m.executeFor p n).machine ns

/-- What every step preserves, whatever the label table and the program counter, holds of every machine that
executions come to. -/
theorem executions_invariant {P : Machine σ → Prop} {p : Program} (hstep : ∀ m, P m → P (m.step p).machine)
    (hstart : ∀ m labels pc, P m → P { m with labels, pc }) {m : Machine σ} (hm : P m) (ns : List Nat) :
    P (m.executions p ns) := by
  induction ns generalizing m with
  | nil => exact hm
  | cons n ns ih =>
    rw [executions]
    apply ih
    rcases executeFor_cases p m n with ⟨e, _, hfailed⟩ | ⟨m₁, hm₁, hrun⟩
    · rw [hfailed]
      exact hstart m _ m.pc hm
    · obtain ⟨labels, _, rfl⟩ := start_eq_running_iff.1 hm₁
      rw [hrun]
      exact run_invariant hstep (hstart m labels 0 hm) n

/-- A machine that has not run yet. -/
def fresh (input : σ) (output diagnostics : Sink) : Machine σ :=
  { input, output, diagnostics }

/-- The machines that executions of a program leave behind on one that has not run yet, however they end. -/
inductive Session (p : Program) : Machine σ → Prop where
  | fresh (input : σ) (output diagnostics : Sink) : Session p (fresh input output diagnostics)
  | execute {m : Machine σ} {n : Nat} (h : Session p m) (hover : ∀ m', m.executeFor p n ≠ .running m') :
    Session p (m.executeFor p n).machine

end Machine

end IPPcode23
