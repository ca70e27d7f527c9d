import IPPcode23.Proofs.Channel
import IPPcode23.Proofs.Machine.Channels

/-!
# The output and its limit

The output holds the texts of the values that `WRITE`s write, in the order of the steps (`output_executions`). An
execution with room for `n` bytes only is the same as the one without a limit as long as that has written at most `n`
bytes, and it ends at the first `WRITE` that goes beyond (`limited_output_cuts_execution`).
-/

namespace IPPcode23

variable {σ : Type}

private theorem extract_of_size_le {bytes : ByteArray} {n : Nat} (h : bytes.size ≤ n) : bytes.extract 0 n = bytes := by
  have hmax : bytes.extract 0 (max n bytes.size) = bytes := ByteArray.extract_zero_max_size
  rwa [Nat.max_eq_left h] at hmax

private theorem extract_append_of_le {bytes more : ByteArray} {n : Nat} (h : n ≤ bytes.size) :
    (bytes ++ more).extract 0 n = bytes.extract 0 n := by
  have hnone : n - bytes.size = 0 := by omega
  rw [ByteArray.extract_append, hnone, Nat.zero_sub, ByteArray.extract_same, ByteArray.append_empty]

namespace Sink

/-- The sink with room for `n` bytes in all. -/
def limitTo (s : Sink) (n : Nat) : Sink :=
  { s with limit := some n }

variable {s : Sink} {n : Nat} {text : String}

private theorem written_put (h : s.limit = none) (text : String) : (s.put text).written = s.written ++ text.toUTF8 := by
  rw [put, h]

/-- The limit makes no difference to what fits. -/
private theorem put_limitTo (h : s.limit = none) (hfits : s.written.size + text.toUTF8.size ≤ n) :
    (s.limitTo n).put text = (s.put text).limitTo n := by
  have hroom : text.toUTF8.size ≤ n - s.written.size := by omega
  simp only [put, limitTo, h, extract_of_size_le hroom]

/-- Of what does not fit, the first bytes are kept. -/
private theorem written_put_limitTo (h : s.written.size ≤ n) :
    ((s.limitTo n).put text).written = (s.written ++ text.toUTF8).extract 0 n := by
  rw [ByteArray.extract_append, extract_of_size_le h, Nat.zero_sub]
  rfl

@[simp]
theorem limit_putAll (s : Sink) (values : List Value) : (s.putAll values).limit = s.limit := by
  induction values generalizing s with
  | nil => rfl
  | cons x values ih => exact ih (s.put x.text)

private theorem written_putAll (h : s.limit = none) (values : List Value) :
    (s.putAll values).written = s.written ++ (String.join (values.map Value.text)).toUTF8 := by
  induction values generalizing s with
  | nil => simp [putAll]
  | cons x values ih =>
    have hrest := ih (s := s.put x.text) h
    rw [written_put h, ByteArray.append_assoc] at hrest
    rw [List.map_cons, String.join_cons]
    exact hrest.trans (congrArg (s.written ++ ·) String.toByteArray_append.symm)

end Sink

namespace Machine

/-! ### What is written -/

/-- The values that steps write to the output. -/
def writes (p : Program) (steps : List (Machine σ)) : List Value :=
  steps.filterMap (written? p)

private theorem writes_concat (p : Program) (steps : List (Machine σ)) (m : Machine σ) :
    writes p (steps ++ [m]) = writes p steps ++ (m.written? p).toList := by
  unfold writes
  rw [List.filterMap_append]
  cases h : m.written? p <;> simp [h]

private theorem written?_of_opcode {p : Program} {m : Machine σ} (hother : ∀ i, p[m.pc]? = some i → i.opcode ≠ .write) :
    m.written? p = none := by
  cases h : m.written? p with
  | none => rfl
  | some x =>
    obtain ⟨source, hi, _⟩ := written?_eq_some_iff.1 h
    exact absurd rfl (hother _ hi)

variable [Input σ]

/-- The output after executions, whatever its limit is. -/
theorem output_executions (p : Program) (m : Machine σ) (ns : List Nat) :
    (m.executions p ns).output = m.output.putAll (writes p (m.history p ns)) := by
  refine history_invariant (P := fun steps s => s.output = m.output.putAll (writes p steps)) ?_ ?_ rfl ns
  · intro steps s hs
    rw [output_step, writes_concat, Sink.putAll_append, hs]
  · intro steps s labels pc hs
    exact hs

private theorem output_executeFor (p : Program) (m : Machine σ) (k : Nat) :
    (m.executeFor p k).machine.output = m.output.putAll (writes p (m.executionSteps p k)) := by
  have h := output_executions p m [k]
  rwa [executions, executions, history, history, List.append_nil] at h

/-- One step more only adds to the output. -/
private theorem exists_written_step {p : Program} {m : Machine σ} (hlimit : m.output.limit = none) :
    ∃ more, (m.step p).machine.output.written = m.output.written ++ more := by
  rw [output_step, Sink.written_putAll hlimit]
  exact ⟨_, rfl⟩

private theorem limit_output_run {p : Program} {m : Machine σ} (hlimit : m.output.limit = none) (k : Nat) :
    (m.run p k).machine.output.limit = none := by
  refine run_invariant (P := fun s => s.output.limit = none) ?_ hlimit k
  intro s hs
  rw [output_step, Sink.limit_putAll, hs]

private theorem limit_output_of_run {p : Program} {m m' : Machine σ} {k : Nat} (hlimit : m.output.limit = none)
    (hrun : m.run p k = .running m') : m'.output.limit = none := by
  have h := limit_output_run (p := p) hlimit k
  rwa [hrun] at h

/-! ### One step with a limit -/

/-- The machine with room for `n` bytes of output in all. -/
def limitOutput (m : Machine σ) (n : Nat) : Machine σ :=
  m.rewire m.input (m.output.limitTo n)

variable {p : Program} {m : Machine σ} {n : Nat}

/-- A step after which the output is within the limit is the same with it. -/
private theorem step_limitOutput (hlimit : m.output.limit = none)
    (hwithin : (m.step p).machine.output.written.size ≤ n) :
    (m.limitOutput n).step p = (m.step p).map (·.limitOutput n) := by
  have hput : (m.output.limitTo n).putAll (m.written? p).toList = (m.output.putAll (m.written? p).toList).limitTo n ∧
      ∀ x ∈ m.written? p, (m.output.limitTo n).fits x.text = m.output.fits x.text := by
    rw [output_step] at hwithin
    cases h : m.written? p with
    | none => exact ⟨rfl, by simp⟩
    | some x =>
      rw [h] at hwithin
      have hfits : m.output.written.size + x.text.toUTF8.size ≤ n := by
        have hsize : (m.output.put x.text).written.size ≤ n := hwithin
        rwa [Sink.written_put hlimit, ByteArray.size_append] at hsize
      refine ⟨Sink.put_limitTo hlimit hfits, ?_⟩
      rintro _ ⟨⟩
      rw [Sink.fits_of_limit hlimit]
      exact decide_eq_true hfits
  have hstep : (m.limitOutput n).step p = _ := step_rewire (fun _ => rfl) hput.2 rfl
  rw [hput.1, ← output_step, ← input_step] at hstep
  rw [hstep]
  cases m.step p <;> rfl

/-- The next step is a `WRITE` of `x` that takes the output beyond `n` bytes. -/
structure Overflows (p : Program) (n : Nat) (m : Machine σ) (source : Symb) (x : Value) : Prop where
  instruction : p[m.pc]? = some (Action.write source).instruction
  value : m.memory.value source = .ok x
  within : m.output.written.size ≤ n
  beyond : n < m.output.written.size + x.text.toUTF8.size

private theorem Overflows.step {source : Symb} {x : Value} (h : Overflows p n m source x) :
    (m.limitOutput n).step p =
      .failed ⟨m.pc, .channel .sinkFull⟩ { m.enter with output := (m.output.limitTo n).put x.text } := by
  have hi : p[(m.limitOutput n).pc]? = some (Action.write source).instruction := h.instruction
  have hx : (m.limitOutput n).enter.memory.value source = .ok x := h.value
  have hfull : (m.limitOutput n).enter.output.fits x.text = false := decide_eq_false (Nat.not_le.2 h.beyond)
  rw [step_of_action hi]
  simp only [execute, withValue, hx, writeOutput, hfull]
  rfl

/-- Only a `WRITE` goes beyond the limit. -/
private theorem exists_overflows (hlimit : m.output.limit = none) (hwithin : m.output.written.size ≤ n)
    (hbeyond : n < (m.step p).machine.output.written.size) :
    ∃ source x, Overflows p n m source x ∧
      (m.step p).machine.output.written = m.output.written ++ x.text.toUTF8 := by
  cases h : m.written? p with
  | none =>
    rw [output_step, h] at hbeyond
    exact absurd hwithin (Nat.not_le.2 hbeyond)
  | some x =>
    obtain ⟨source, hi, hx⟩ := written?_eq_some_iff.1 h
    have hwritten : (m.step p).machine.output.written = m.output.written ++ x.text.toUTF8 := by
      rw [output_step, h]
      exact Sink.written_put hlimit x.text
    rw [hwritten, ByteArray.size_append] at hbeyond
    exact ⟨source, x, ⟨hi, hx, hwithin, hbeyond⟩, hwritten⟩

/-! ### Runs with a limit -/

private theorem exists_written_run_succ (hlimit : m.output.limit = none) (k : Nat) :
    ∃ more, (m.run p (k + 1)).machine.output.written = (m.run p k).machine.output.written ++ more := by
  rcases run_succ_cases p m k with ⟨m', hrun, hsucc⟩ | ⟨_, hsucc⟩
  · rw [hsucc]
    rw [hrun]
    exact exists_written_step (limit_output_of_run hlimit hrun)
  · rw [hsucc]
    exact ⟨.empty, ByteArray.append_empty.symm⟩

private theorem size_written_le_succ (hlimit : m.output.limit = none) (k : Nat) :
    (m.run p k).machine.output.written.size ≤ (m.run p (k + 1)).machine.output.written.size := by
  obtain ⟨more, hmore⟩ := exists_written_run_succ (p := p) hlimit k
  rw [hmore, ByteArray.size_append]
  exact Nat.le_add_right _ _

/-- A run is the same with a limit that it has not gone beyond. -/
private theorem run_limitOutput (hlimit : m.output.limit = none) {k : Nat}
    (hwithin : (m.run p k).machine.output.written.size ≤ n) :
    (m.limitOutput n).run p k = (m.run p k).map (·.limitOutput n) := by
  induction k with
  | zero => rfl
  | succ k ih =>
    have hbefore := ih (Nat.le_trans (size_written_le_succ hlimit k) hwithin)
    cases hrun : m.run p k with
    | running m' =>
      have hlimit' := limit_output_of_run hlimit hrun
      rw [run_succ_of_run hrun] at hwithin ⊢
      rw [hrun] at hbefore
      rw [run_succ_of_run hbefore]
      exact step_limitOutput hlimit' hwithin
    | halted | failed =>
      have hover : (m.run p k).answer?.isSome := by rw [hrun]; rfl
      have hover' : ((m.limitOutput n).run p k).answer?.isSome := by
        rw [hbefore, Progress.answer?_map]
        exact hover
      rw [run_succ_of_answer hover', run_succ_of_answer hover]
      exact hbefore

/-- A run with a limit is left behind at the first `WRITE` that goes beyond it, with the first bytes of what the run
without a limit has written by any later time. -/
private theorem run_limitOutput_of_lt (hlimit : m.output.limit = none) (hwithin : m.output.written.size ≤ n) {k : Nat}
    (hbeyond : n < (m.run p k).machine.output.written.size) :
    ∃ j m' source x, j < k ∧ m.run p j = .running m' ∧ Overflows p n m' source x ∧
      (m.limitOutput n).run p k =
        .failed ⟨m'.pc, .channel .sinkFull⟩ { m'.enter with output := (m'.output.limitTo n).put x.text } ∧
      ((m'.output.limitTo n).put x.text).written = (m.run p k).machine.output.written.extract 0 n := by
  induction k with
  | zero => exact absurd hwithin (Nat.not_le.2 hbeyond)
  | succ k ih =>
    by_cases hearlier : n < (m.run p k).machine.output.written.size
    · obtain ⟨j, m', source, x, hj, hrun, hover, hcut, hkept⟩ := ih hearlier
      obtain ⟨more, hmore⟩ := exists_written_run_succ (p := p) hlimit k
      have hanswer : ((m.limitOutput n).run p k).answer?.isSome := by rw [hcut]; rfl
      refine ⟨j, m', source, x, Nat.lt_succ_of_lt hj, hrun, hover, ?_, ?_⟩
      · rw [run_succ_of_answer hanswer]
        exact hcut
      · rw [hmore, extract_append_of_le (Nat.le_of_lt hearlier)]
        exact hkept
    · have hwithin' := Nat.not_lt.1 hearlier
      cases hrun : m.run p k with
      | running m' =>
        have hsame := run_limitOutput hlimit hwithin'
        rw [hrun] at hwithin' hsame
        rw [run_succ_of_run hrun] at hbeyond ⊢
        obtain ⟨source, x, hover, hwritten⟩ := exists_overflows (limit_output_of_run hlimit hrun) hwithin' hbeyond
        refine ⟨k, m', source, x, Nat.lt_succ_self k, hrun, hover, ?_, ?_⟩
        · rw [run_succ_of_run hsame]
          exact hover.step
        · rw [hwritten]
          exact Sink.written_put_limitTo hover.within
      | halted | failed =>
        have hover : (m.run p k).answer?.isSome := by rw [hrun]; rfl
        rw [run_succ_of_answer hover] at hbeyond
        exact absurd hbeyond hearlier

/-! ### Executions with a limit -/

private theorem executeFor_limitOutput (hlimit : m.output.limit = none) {k : Nat}
    (hwithin : (m.executeFor p k).machine.output.written.size ≤ n) :
    (m.limitOutput n).executeFor p k = (m.executeFor p k).map (·.limitOutput n) := by
  unfold executeFor start at hwithin ⊢
  cases htable : LabelTable.ofProgram p with
  | error e => rfl
  | ok labels =>
    rw [htable] at hwithin
    exact run_limitOutput (m := { m with labels, pc := 0 }) hlimit hwithin

private theorem executeFor_limitOutput_of_lt (hlimit : m.output.limit = none) (hwithin : m.output.written.size ≤ n)
    {k : Nat} (hbeyond : n < (m.executeFor p k).machine.output.written.size) :
    ∃ j m' source x, j < k ∧ m.executeFor p j = .running m' ∧ Overflows p n m' source x ∧
      (m.limitOutput n).executeFor p k =
        .failed ⟨m'.pc, .channel .sinkFull⟩ { m'.enter with output := (m'.output.limitTo n).put x.text } ∧
      ((m'.output.limitTo n).put x.text).written = (m.executeFor p k).machine.output.written.extract 0 n := by
  unfold executeFor start at hbeyond ⊢
  cases htable : LabelTable.ofProgram p with
  | error e =>
    rw [htable] at hbeyond
    exact absurd hwithin (Nat.not_le.2 hbeyond)
  | ok labels =>
    rw [htable] at hbeyond
    exact run_limitOutput_of_lt (m := { m with labels, pc := 0 }) hlimit hwithin hbeyond

/-- An execution without a limit writes the texts of the values of its `WRITE`s, one after another, and no other
instruction writes anything. With room for `n` bytes, the first `n` of these bytes are kept. The two executions are the
same as long as at most `n` bytes have been written; from then on the one with the limit is over, with exit code 99, at
the first `WRITE` that goes beyond it, and but for the output its machine is that of the other one just before. -/
theorem limited_output_cuts_execution (p : Program) (m : Machine σ) (n k : Nat) (hlimit : m.output.limit = none)
    (hwithin : m.output.written.size ≤ n) :
    let whole := m.executeFor p k
    let cut := (m.limitOutput n).executeFor p k
    whole.machine.output.written =
        m.output.written ++ (String.join ((writes p (m.executionSteps p k)).map Value.text)).toUTF8 ∧
      cut.machine.output.written = whole.machine.output.written.extract 0 n ∧
      (whole.machine.output.written.size ≤ n → cut = whole.map (·.limitOutput n)) ∧
      (n < whole.machine.output.written.size →
        ∃ j m' source x e, j < k ∧ m.executeFor p j = .running m' ∧ Overflows p n m' source x ∧
          e = ⟨m'.pc, .channel .sinkFull⟩ ∧ e.exitCode = 99 ∧
          cut = .failed e { m'.enter with output := cut.machine.output }) ∧
      ∀ s : Machine σ, (∀ i, p[s.pc]? = some i → i.opcode ≠ .write) → (s.step p).machine.output = s.output := by
  intro whole cut
  refine ⟨?_, ?_, executeFor_limitOutput hlimit, ?_, ?_⟩
  · show (m.executeFor p k).machine.output.written = _
    rw [output_executeFor, Sink.written_putAll hlimit]
  · rcases Nat.lt_or_ge n whole.machine.output.written.size with hbeyond | hle
    · obtain ⟨_, _, _, _, _, _, _, hcut, hkept⟩ := executeFor_limitOutput_of_lt hlimit hwithin hbeyond
      show ((m.limitOutput n).executeFor p k).machine.output.written = _
      rw [hcut]
      exact hkept
    · have hsame : cut = whole.map (·.limitOutput n) := executeFor_limitOutput hlimit hle
      rw [hsame, Progress.machine_map, extract_of_size_le hle]
      rfl
  · intro hbeyond
    obtain ⟨j, m', source, x, hj, hrun, hover, hcut, _⟩ := executeFor_limitOutput_of_lt hlimit hwithin hbeyond
    refine ⟨j, m', source, x, _, hj, hrun, hover, rfl, rfl, ?_⟩
    have hcut : cut = _ := hcut
    rw [hcut]
    rfl
  · intro s hother
    rw [output_step, written?_of_opcode hother]
    rfl

/-- A limit inside the two bytes of a character, with an empty text before it that still fits. -/
theorem limited_output_cuts_execution_inside_character :
    let p : Program := #[⟨.write, [.const (.string "a")]⟩, ⟨.write, [.const (.string "")]⟩,
      ⟨.write, [.const (.string "é")]⟩, ⟨.write, [.const (.bool true)]⟩]
    let m := fresh (Source.lines []) {} {}
    let whole := m.executeFor p 5
    let cut := (m.limitOutput 2).executeFor p 5
    whole.machine.output.written = "aétrue".toUTF8 ∧ cut.machine.output.written = "aétrue".toUTF8.extract 0 2 ∧
      cut.answer? = some (.error ⟨2, .channel .sinkFull⟩) ∧
      (m.limitOutput 7).executeFor p 5 = whole.map (·.limitOutput 7) := by
  intro p m whole cut
  obtain ⟨hwhole, hkept, _, _, _⟩ := limited_output_cuts_execution p m 2 5 rfl (Nat.zero_le 2)
  obtain ⟨_, _, hsame, _, _⟩ := limited_output_cuts_execution p m 7 5 rfl (Nat.zero_le 7)
  have hvalues : writes p (m.executionSteps p 5) = [.string "a", .string "", .string "é", .bool true] := by decide
  have hwritten : whole.machine.output.written = "aétrue".toUTF8 := by
    show (m.executeFor p 5).machine.output.written = _
    rw [hwhole, hvalues]
    decide
  refine ⟨hwritten, ?_, by decide, hsame ?_⟩
  · have hcut : cut = (m.limitOutput 2).executeFor p 5 := rfl
    rw [hcut, hkept, hwritten]
  · show whole.machine.output.written.size ≤ 7
    rw [hwritten]
    decide

end Machine

end IPPcode23
