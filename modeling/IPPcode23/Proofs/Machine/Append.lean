import IPPcode23.Proofs.Machine.Correspondence
import IPPcode23.Proofs.Machine.Diagnostics

/-!
# Programs in sequence

A program does the same with other instructions behind it, as long as it names no label of theirs: as one step of it is
the same step (`step_append`), so is a run up to its end (`run_append`). What the first program exits or fails with, the
sequence of both does, and where the first one ends, the second one goes on (`append_runs_in_sequence`).
-/

namespace IPPcode23

variable {σ : Type}

/-- The same progress on a machine with another label table. -/
def Progress.withLabels (labels : LabelTable) : Progress σ → Progress σ
  | running m => running { m with labels }
  | halted how m => halted how { m with labels }
  | failed e m => failed e { m with labels }

private theorem eq_withLabels_of_corresponds {m m' : Machine σ} (h : Corresponds .refl id m m')
    (hcurrent : m'.current = m.current) (hexecuted : m'.executed = m.executed)
    (hdiagnostics : m'.diagnostics = m.diagnostics) :
    m' = { m with labels := m'.labels } := by
  obtain ⟨hmemory, hdata, hcalls, hpc, hinput, houtput⟩ := h
  rw [Memory.rename_refl] at hmemory
  rw [List.map_id] at hcalls
  cases m
  cases m'
  simp_all

private theorem Progress.Agrees.eq_withLabels {p : Program} {x y : Progress σ} {labels : LabelTable}
    (h : Agrees .refl id p x y) (hmachine : y.machine = { x.machine with labels }) : y = x.withLabels labels := by
  cases h with
  | running _ => exact congrArg Progress.running hmachine
  | @halted how _ _ _ => exact congrArg (Progress.halted how) hmachine
  | @failed e _ _ _ =>
    have he : e.translate .refl id = e := by rw [RunError.translate, Fault.rename_refl, id]
    rw [he]
    exact congrArg (Progress.failed e) hmachine

/-! ### Labels -/

private theorem declares_append_iff {p q : Program} {n : Nat} {label : String} (hq : ∀ k, ¬ Declares q.toList k label) :
    Declares (p ++ q).toList n label ↔ Declares p.toList n label := by
  unfold Declares
  rw [Array.toList_append]
  by_cases hn : n < p.toList.length
  · rw [List.getElem?_append_left hn]
  · have hle : p.toList.length ≤ n := by omega
    have hright : (p.toList ++ q.toList)[n]? = q.toList[n - p.toList.length]? := List.getElem?_append_right hle
    have hnone : ¬ ∃ i, q.toList[n - p.toList.length]? = some i ∧ i.declaredLabel? = some label := hq _
    rw [hright, List.getElem?_eq_none hle]
    constructor
    · intro h
      exact absurd h hnone
    · rintro ⟨i, hi, _⟩
      cases hi

private theorem declares_append_left {p : Program} (q : Program) {n : Nat} {label : String}
    (h : Declares p.toList n label) : Declares (p ++ q).toList n label := by
  obtain ⟨i, hi, hlabel⟩ := h
  have hn := (List.getElem?_eq_some_iff.1 hi).1
  refine ⟨i, ?_, hlabel⟩
  rw [Array.toList_append, List.getElem?_append_left hn, hi]

/-- A label that the program behind does not declare is found where it was. -/
private theorem lookup_append {p q : Program} {table labels : LabelTable} (hp : LabelTable.ofProgram p = .ok table)
    (hpq : LabelTable.ofProgram (p ++ q) = .ok labels) {label : String} (hq : ∀ k, ¬ Declares q.toList k label) :
    labels.lookup label = table.lookup label := by
  apply Option.ext
  intro n
  rw [LabelTable.ofProgram_resolves hpq label n, LabelTable.ofProgram_resolves hp label n, declares_append_iff hq]

namespace Machine

variable [Input σ]

/-! ### The first program -/

private theorem Executes.count_eq {m m' : Machine σ} {a : Action} (h : Executes m a m') :
    m'.current = m.current ∧ m'.executed = m.executed := by
  cases h with
  | jumpIf => split <;> exact ⟨rfl, rfl⟩
  | _ => exact ⟨rfl, rfl⟩

/-- A step counts its instruction and keeps the label table. -/
private theorem count_step {p : Program} {m : Machine σ} {i : Instruction} (hi : p[m.pc]? = some i) :
    (m.step p).machine.labels = m.labels ∧ (m.step p).machine.current = m.pc ∧
      (m.step p).machine.executed = m.executed + 1 := by
  have h := steps_step p m
  generalize m.step p = x at h
  cases h with
  | atEnd hnone =>
    rw [hi] at hnone
    cases hnone
  | malformed => exact ⟨rfl, rfl, rfl⟩
  | next _ h =>
    obtain ⟨hcurrent, hexecuted⟩ := h.count_eq
    exact ⟨h.labels_eq, hcurrent, hexecuted⟩
  | exit =>
    rw [machine_finish]
    exact ⟨rfl, rfl, rfl⟩
  | fail _ h => cases leaves_of_execute_eq_fail h <;> exact ⟨rfl, rfl, rfl⟩

variable {p q : Program} {m : Machine σ} {labels : LabelTable}

/-- An instruction of the first program makes the same step in the sequence. -/
theorem step_append {i : Instruction} (h : Aligned .refl id p m { m with labels }) (hi : p[m.pc]? = some i) :
    ({ m with labels } : Machine σ).step (p ++ q) = (m.step p).withLabels labels ∧
      ∀ m₁, m.step p = .running m₁ → Aligned .refl id p m₁ { m₁ with labels } := by
  have hi' : (p ++ q)[m.pc]? = some i := by
    rw [Array.getElem?_append_left (Array.getElem?_eq_some_iff.1 hi).1, hi]
  have hagrees : Progress.Agrees .refl id p (m.step p) (({ m with labels } : Machine σ).step (p ++ q)) :=
    h.step hi (by rw [Instruction.rename_refl]; exact hi') rfl
  -- all that corresponding machines do not share is counted alike, so they are equal but for the labels
  have hmachine : (({ m with labels } : Machine σ).step (p ++ q)).machine = { (m.step p).machine with labels } := by
    obtain ⟨_, hcurrent, hexecuted⟩ := count_step hi
    obtain ⟨hlabels', hcurrent', hexecuted'⟩ := count_step (m := { m with labels }) hi'
    have hnote : ({ m with labels } : Machine σ).note? (p ++ q) = m.note? p := by
      simp only [note?, hi, hi']
      rfl
    have hdiagnostics : (({ m with labels } : Machine σ).step (p ++ q)).machine.diagnostics =
        (m.step p).machine.diagnostics := by
      rw [diagnostics_step h.limit, diagnostics_step h.limit', hnote]
      rfl
    rw [eq_withLabels_of_corresponds hagrees.machine (hcurrent'.trans hcurrent.symm) (hexecuted'.trans hexecuted.symm)
      hdiagnostics, hlabels']
  have hstep := hagrees.eq_withLabels hmachine
  refine ⟨hstep, ?_⟩
  intro m₁ hm₁
  rw [hstep, hm₁] at hagrees
  cases hagrees with
  | running h₁ => exact h₁

/-- Up to its end, the first program runs in the sequence as it does by itself. -/
theorem run_append (h : Aligned .refl id p m { m with labels }) {n : Nat}
    (hend : ∀ m₁, m.run p n ≠ .halted .atEnd m₁) :
    ({ m with labels } : Machine σ).run (p ++ q) n = (m.run p n).withLabels labels := by
  induction n generalizing m with
  | zero => rfl
  | succ n ih =>
    cases hi : p[m.pc]? with
    | none =>
      have hstep : m.step p = .halted .atEnd m := by simp only [step, hi, finish_of_flush h.flush]
      have hrun : m.run p (n + 1) = .halted .atEnd m := by rw [run, hstep]
      exact absurd hrun (hend m)
    | some i =>
      obtain ⟨hstep, hnext⟩ := step_append (q := q) h hi
      rw [run] at hend
      rw [run, run, hstep]
      cases hm₁ : m.step p with
      | running m₁ =>
        rw [hm₁] at hend
        exact ih (hnext m₁ hm₁) hend
      | halted | failed => rfl

private theorem eq_of_step_eq_atEnd {m₁ : Machine σ} (h : m.step p = .halted .atEnd m₁) : p[m.pc]? = none ∧ m = m₁ := by
  have hsteps := steps_step p m
  generalize m.step p = x at h hsteps
  cases hsteps with
  | atEnd hi =>
    refine ⟨hi, ?_⟩
    have hmachine := machine_finish m .atEnd
    rw [h] at hmachine
    exact hmachine.symm
  | exit =>
    unfold finish at h
    split at h <;> cases h
  | malformed | next | fail => cases h

/-- Where the first program ends, the sequence still runs. -/
private theorem run_append_of_atEnd (h : Aligned .refl id p m { m with labels }) {n : Nat} {m₁ : Machine σ}
    (hend : m.run p n = .halted .atEnd m₁) :
    p[m₁.pc]? = none ∧ ∃ k, ({ m with labels } : Machine σ).run (p ++ q) k = .running { m₁ with labels } := by
  obtain ⟨k, s, hrun, hstep⟩ := exists_step_of_run_eq hend (by simp)
  obtain ⟨hi, rfl⟩ := eq_of_step_eq_atEnd hstep
  refine ⟨hi, k, ?_⟩
  rw [run_append h (by simp [hrun]), hrun]
  rfl

/-! ### The sequence -/

/-- What the programs `p` and `q` in sequence do on a machine, by what `p` does there. -/
structure RunsInSequence (p q : Program) (labels : LabelTable) (start : Machine σ) : Prop where
  exited : ∀ n code m, start.executeFor p n = .halted (.exited code) m →
    start.executeFor (p ++ q) n = .halted (.exited code) { m with labels }
  failed : ∀ n e m, start.executeFor p n = .failed e m → start.executeFor (p ++ q) n = .failed e { m with labels }
  /-- Where `p` ends, the sequence goes on with the first instruction of `q`. -/
  ended : ∀ n m, start.executeFor p n = .halted .atEnd m →
    m.pc = p.size ∧ (∀ j, (p ++ q)[m.pc + j]? = q[j]?) ∧
      ∃ k, start.executeFor (p ++ q) k = .running { m with labels } ∧
        ∀ j, start.executeFor (p ++ q) (k + j) = ({ m with labels } : Machine σ).run (p ++ q) j
  endless : (∀ n, ∃ m, start.executeFor p n = .running m) → ∀ n, ∃ m, start.executeFor (p ++ q) n = .running m

private theorem RunsInSequence.of_aligned {start : Machine σ} (hstart : start.start p = .running m)
    (hstart' : start.start (p ++ q) = .running { m with labels }) (hcontrol : InControl p m)
    (h : Aligned .refl id p m { m with labels }) : RunsInSequence p q labels start := by
  have hexecute : ∀ n, start.executeFor p n = m.run p n := by
    intro n
    rw [executeFor, hstart]
  have hexecute' : ∀ n, start.executeFor (p ++ q) n = ({ m with labels } : Machine σ).run (p ++ q) n := by
    intro n
    rw [executeFor, hstart']
  have hsame : ∀ {n}, (∀ m₁, start.executeFor p n ≠ .halted .atEnd m₁) →
      start.executeFor (p ++ q) n = (start.executeFor p n).withLabels labels := by
    intro n hend
    rw [hexecute] at hend ⊢
    rw [hexecute', run_append h hend]
  refine ⟨?_, ?_, ?_, ?_⟩
  · intro n code m₁ hrun
    rw [hsame (by simp [hrun]), hrun]
    rfl
  · intro n e m₁ hrun
    rw [hsame (by simp [hrun]), hrun]
    rfl
  · intro n m₁ hrun
    rw [hexecute] at hrun
    obtain ⟨hi, k, hk⟩ := run_append_of_atEnd (q := q) h hrun
    -- the program counter is behind `p`, and it never leaves `p` by more than that
    have hpc : m₁.pc = p.size := by
      have hcontrol := hcontrol.run n
      rw [hrun] at hcontrol
      have hle : m₁.pc ≤ p.size := hcontrol.pc_le
      have hge : p.size ≤ m₁.pc := Array.getElem?_eq_none_iff.1 hi
      omega
    refine ⟨hpc, ?_, k, ?_, ?_⟩
    · intro j
      have hj : m₁.pc + j - p.size = j := by omega
      rw [Array.getElem?_append_right (by omega), hj]
    · rw [hexecute', hk]
    · intro j
      rw [hexecute', run_add_of_running hk]
  · intro hrunning n
    obtain ⟨m₁, hrun⟩ := hrunning n
    rw [hsame (by simp [hrun]), hrun]
    exact ⟨_, rfl⟩

/-- Programs in sequence, where no label is declared twice and the first program names none of the second one, run one
after the other. -/
theorem append_runs_in_sequence {p q : Program} {input : σ} {output diagnostics : Sink}
    (honce : ∀ label j k, Declares (p ++ q).toList j label → Declares (p ++ q).toList k label → j = k)
    (hother : ∀ i ∈ p, ∀ label, .label label ∈ i.operands → ∀ k, ¬ Declares q.toList k label)
    (hflush : output.refusesFlush = false) (hlimit : diagnostics.limit = none) :
    ∃ labels, LabelTable.ofProgram (p ++ q) = .ok labels ∧
      RunsInSequence p q labels (fresh input output diagnostics) := by
  obtain ⟨labels, hpq⟩ := LabelTable.exists_ofProgram honce
  obtain ⟨table, hp⟩ := LabelTable.exists_ofProgram fun label j k hj hk =>
    honce label j k (declares_append_left q hj) (declares_append_left q hk)
  have hstart := start_eq_running_iff (m := fresh input output diagnostics).2 ⟨table, hp, rfl⟩
  have hstart' := start_eq_running_iff (m := fresh input output diagnostics).2 ⟨labels, hpq, rfl⟩
  refine ⟨labels, hpq, .of_aligned hstart hstart' (.of_start (by simp [fresh]) hstart) ?_⟩
  refine ⟨⟨(Memory.rename_refl _).symm, rfl, rfl, rfl, rfl, rfl⟩, ?_, hflush, hlimit, hlimit⟩
  intro i hi label hlabel
  rw [Option.map_id]
  exact lookup_append hp hpq (hother i hi label hlabel)

/-- A program whose last instruction is a call leaves the index behind itself on the call stack, and the return goes on
with the second program. -/
theorem append_runs_in_sequence_call_last :
    let p : Program := #[⟨.jump, [.label "main"]⟩, ⟨.label, [.label "f"]⟩, ⟨.pushs, [.const (.int 1)]⟩, ⟨.ret, []⟩,
      ⟨.label, [.label "main"]⟩, ⟨.call, [.label "f"]⟩]
    let q : Program := #[⟨.label, [.label "g"]⟩, ⟨.exit, [.const (.int 7)]⟩]
    let start := fresh (Source.lines []) {} {}
    ∃ k m, start.executeFor (p ++ q) k = .running m ∧ m.pc = 6 ∧ m.data = [.int 1] ∧ m.calls = [] ∧ m.executed = 6 := by
  intro p q start
  have hpq : LabelTable.ofProgram (p ++ q) = .ok [("g", 6), ("main", 4), ("f", 1)] := rfl
  have hq : LabelTable.ofProgram q = .ok [("g", 0)] := rfl
  have hother : ∀ i ∈ p, ∀ label, .label label ∈ i.operands → ∀ k, ¬ Declares q.toList k label := by
    intro i hi label hlabel k hk
    have hlookup := (LabelTable.ofProgram_resolves hq label k).2 hk
    simp only [p, List.mem_toArray, List.mem_cons, List.not_mem_nil, or_false] at hi
    rcases hi with rfl | rfl | rfl | rfl | rfl | rfl <;> simp at hlabel <;> subst hlabel <;> cases hlookup
  obtain ⟨labels, _, h⟩ : ∃ labels, LabelTable.ofProgram (p ++ q) = .ok labels ∧ RunsInSequence p q labels start :=
    append_runs_in_sequence (LabelTable.ofProgram_resolves hpq).index_unique hother rfl rfl
  have hend : start.executeFor p 7 = .halted .atEnd ((start.executeFor p 7).machine) := rfl
  obtain ⟨hpc, _, k, hk, _⟩ := h.ended 7 _ hend
  exact ⟨k, _, hk, hpc, rfl, rfl, rfl⟩

end Machine

end IPPcode23
