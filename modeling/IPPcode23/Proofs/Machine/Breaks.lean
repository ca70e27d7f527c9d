import IPPcode23.Proofs.Machine.Translation

/-!
# Programs without their `BREAK`s

A `BREAK` changes nothing but the diagnostics, so a program does the same without any: its executions end with the same
answer, at the index that the instruction has there (`without_breaks_same_end`). Each step of the shorter program is one
of the program behind some `BREAK`s (`exists_run_translated`).
-/

namespace IPPcode23

variable {σ : Type}

namespace Program

/-- The program without the `BREAK`s that fit their signature. -/
def withoutBreaks (p : Program) : Program :=
  p.filter (· ≠ ⟨.dump, []⟩)

/-- How many instructions before an index are kept in the program without `BREAK`s. -/
def keptBefore (p : Program) (n : Nat) : Nat :=
  (p.toList.take n).countP (· ≠ ⟨.dump, []⟩)

private theorem keptBefore_succ {p : Program} {n : Nat} {i : Instruction} (hi : p[n]? = some i) :
    p.keptBefore (n + 1) = p.keptBefore n + if i = ⟨.dump, []⟩ then 0 else 1 := by
  have htake : p.toList.take (n + 1) = p.toList.take n ++ [i] := by
    rw [List.take_add_one, Array.getElem?_toList, hi]
    rfl
  rw [keptBefore, htake, List.countP_append]
  split
  case isTrue h => simp [keptBefore, h]
  case isFalse h => simp [keptBefore, h]

/-- The kept instructions are those before an index, and those from there on. -/
private theorem toList_withoutBreaks (p : Program) (n : Nat) :
    ∃ before, before.length = p.keptBefore n ∧
      p.withoutBreaks.toList = before ++ (p.toList.drop n).filter (· ≠ ⟨.dump, []⟩) := by
  refine ⟨(p.toList.take n).filter (· ≠ ⟨.dump, []⟩), ?_, ?_⟩
  · rw [keptBefore, List.countP_eq_length_filter]
  · rw [← List.filter_append, List.take_append_drop, withoutBreaks, Array.toList_filter]

end Program

private theorem translates_withoutBreaks (p : Program) : Translates .refl p.keptBefore p p.withoutBreaks := by
  refine ⟨rfl, ?_, ?_⟩
  · intro n i hi
    rw [Program.keptBefore_succ hi]
    by_cases hbreak : i = ⟨.dump, []⟩
    · exact Or.inr ⟨hbreak, by rw [if_pos hbreak, Nat.add_zero]⟩
    · refine Or.inl ⟨?_, by rw [if_neg hbreak]⟩
      obtain ⟨before, hlength, hkept⟩ := p.toList_withoutBreaks n
      have hdrop : p.toList.drop n = i :: p.toList.drop (n + 1) := by
        rw [List.drop_eq_getElem?_toList_append, Array.getElem?_toList, hi]
        rfl
      rw [← Array.getElem?_toList, hkept, ← hlength, hdrop, Instruction.rename_refl]
      simp [hbreak]
  · intro n hn
    obtain ⟨before, hlength, hkept⟩ := p.toList_withoutBreaks n
    have hdrop : p.toList.drop n = [] := by
      rw [List.drop_eq_nil_iff]
      simpa using hn
    rw [← Array.getElem?_toList, hkept, ← hlength, hdrop]
    simp

namespace Machine

/-! ### Notes without `BREAK`s -/

private theorem getElem?_of_note?_eq_dump {p : Program} {m : Machine σ} {text : String}
    (h : m.note? p = some (.dump text)) : p[m.pc]? = some ⟨.dump, []⟩ := by
  unfold note? at h
  split at h
  case h_1 source _ =>
    obtain ⟨x, _, hx⟩ := Option.map_eq_some_iff.1 h
    cases hx
  case h_2 haction =>
    obtain ⟨i, hi, ha⟩ := Option.map_eq_some_iff.1 haction
    rw [hi, ← Instruction.action_eq_ok_iff.1 ha]
    rfl
  case h_3 => cases h

private theorem note?_withoutBreaks (p : Program) (m : Machine σ) (text : String) :
    m.note? p.withoutBreaks ≠ some (.dump text) := by
  intro h
  have hmem := Array.mem_of_getElem? (getElem?_of_note?_eq_dump h)
  simp [Program.withoutBreaks] at hmem

/-- All that a program without `BREAK`s writes to the diagnostics are the texts of its `DPRINT`s. -/
private theorem bytes_notes_withoutBreaks (p : Program) (steps : List (Machine σ)) :
    Note.bytes (notes p.withoutBreaks steps) = (String.join (dprints p.withoutBreaks steps)).toUTF8 := by
  have htexts : (notes p.withoutBreaks steps).map Note.text = dprints p.withoutBreaks steps := by
    induction steps with
    | nil => rfl
    | cons m steps ih =>
      rw [notes_cons, dprints_cons, List.map_append, ih]
      cases hnote : m.note? p.withoutBreaks with
      | none => rfl
      | some note =>
        cases note with
        | dprint text => rfl
        | dump text => exact absurd hnote (note?_withoutBreaks p m text)
  rw [Note.bytes, htexts]

variable [Input σ]

/-! ### Runs of translations -/

variable {r : Renaming} {index : Nat → Nat} {p p' : Program} {m m' : Machine σ}

/-- Behind some `BREAK`s that are left out, there is a step of the translation. -/
private theorem exists_skip (ht : Translates r index p p') (h : Aligned r index p m m') :
    ∃ k m₁, m.run p k = .running m₁ ∧ dprints p (m.runSteps p k) = [] ∧
      Progress.Agrees r index p (m₁.step p) (m'.step p') ∧
      (m'.note? p').map Note.dprint? = (m₁.note? p).map Note.dprint? := by
  -- each `BREAK` leaves fewer instructions to the end of the program
  induction hd : p.size - m.pc using Nat.strongRecOn generalizing m with
  | ind d ih =>
    rcases ht.step h with ⟨hstep, hnote⟩ | ⟨_, hlt, hnote, m₁, hstep, hpc, h₁⟩
    · exact ⟨0, m, rfl, rfl, hstep, hnote⟩
    · obtain ⟨k, m₂, hrun, hdprints, hrest⟩ := ih (p.size - m₁.pc) (by omega) h₁ rfl
      refine ⟨k + 1, m₂, ?_, ?_, hrest⟩
      · rw [run_succ_of_running hstep, hrun]
      · rw [runSteps_succ_of_running hstep, dprints_cons, hnote, hdprints]
        rfl

/-- A run of a translation is a longer one of the program. -/
theorem exists_run_translated (ht : Translates r index p p') (h : Aligned r index p m m') (n : Nat) :
    ∃ k, n ≤ k ∧ Progress.Agrees r index p (m.run p k) (m'.run p' n) ∧
      dprints p' (m'.runSteps p' n) = dprints p (m.runSteps p k) := by
  induction n generalizing m m' with
  | zero => exact ⟨0, Nat.le_refl 0, .running h, rfl⟩
  | succ n ih =>
    obtain ⟨j, m₁, hskip, hdprints, hstep, hnote⟩ := exists_skip ht h
    have hsteps : ∀ k, dprints p (m.runSteps p (j + k)) = dprints p (m₁.runSteps p k) := by
      intro k
      rw [runSteps_add_of_running hskip, dprints_append, hdprints, List.nil_append]
    have hagrees := hstep
    generalize hx : m₁.step p = x at hstep
    generalize hy : m'.step p' = y at hstep
    cases hstep with
    | running h₂ =>
      obtain ⟨k, hle, hrun, hrest⟩ := ih h₂
      refine ⟨j + (k + 1), by omega, ?_, ?_⟩
      · rw [run_add_of_running hskip, run_succ_of_running hx, run_succ_of_running hy]
        exact hrun
      · rw [hsteps, runSteps_succ_of_running hx, runSteps_succ_of_running hy, dprints_cons, dprints_cons, hnote, hrest]
    | halted | failed =>
      rw [hx, hy] at hagrees
      refine ⟨j + (n + 1), by omega, ?_, ?_⟩
      · rw [run_add_of_running hskip, run, run, hx, hy]
        exact hagrees
      · rw [hsteps, runSteps, runSteps, hx, hy, dprints_cons, dprints_cons, hnote]
        rfl

private theorem exists_executeFor_translated (ht : Translates r index p p') (input : σ) {output diagnostics : Sink}
    (hflush : output.refusesFlush = false) (hlimit : diagnostics.limit = none) (n : Nat) :
    ∃ k, n ≤ k ∧ Progress.Agrees r index p ((fresh input output diagnostics).executeFor p k)
        ((fresh input output diagnostics).executeFor p' n) ∧
      dprints p' ((fresh input output diagnostics).executionSteps p' n) =
        dprints p ((fresh input output diagnostics).executionSteps p k) := by
  have hstart := ht.start_fresh input hflush hlimit
  unfold executeFor executionSteps
  generalize (fresh input output diagnostics).start p = x at hstart ⊢
  generalize (fresh input output diagnostics).start p' = y at hstart ⊢
  cases hstart with
  | running h => exact exists_run_translated ht h n
  | halted h => exact ⟨n, Nat.le_refl n, .halted h, rfl⟩
  | failed h => exact ⟨n, Nat.le_refl n, .failed h, rfl⟩

/-! ### Programs without `BREAK`s -/

/-- A program ends without its `BREAK`s if and only if it does with them, and then with the same answer, memory, stacks
and channels, where indices are those of the instructions without the `BREAK`s. -/
theorem without_breaks_same_end (p : Program) (input : σ) (output diagnostics : Sink)
    (hflush : output.refusesFlush = false) (hlimit : diagnostics.limit = none) :
    let start := fresh input output diagnostics
    let x := start.executeFor p
    let y := start.executeFor p.withoutBreaks
    ((∃ n, (x n).answer?.isSome) ↔ ∃ n, (y n).answer?.isSome) ∧
      ∀ n n', (x n).answer?.isSome → (y n').answer?.isSome →
        (y n').answer? = (x n).answer?.map (Except.mapError fun e => ⟨p.keptBefore e.position, e.fault⟩) ∧
          (y n').machine.memory = (x n).machine.memory ∧ (y n').machine.data = (x n).machine.data ∧
          (y n').machine.calls = (x n).machine.calls.map p.keptBefore ∧
          (y n').machine.input = (x n).machine.input ∧ (y n').machine.output = (x n).machine.output ∧
          (x n).machine.diagnostics.written =
            diagnostics.written ++ Note.bytes (notes p (start.executionSteps p n)) ∧
          (y n').machine.diagnostics.written =
            diagnostics.written ++ (String.join (dprints p (start.executionSteps p n))).toUTF8 := by
  intro start x y
  have hsim : ∀ n, ∃ k, n ≤ k ∧ Progress.Agrees .refl p.keptBefore p (x k) (y n) ∧
      dprints p.withoutBreaks (start.executionSteps p.withoutBreaks n) = dprints p (start.executionSteps p k) :=
    exists_executeFor_translated (translates_withoutBreaks p) input hflush hlimit
  have hover : ∀ {k n}, Progress.Agrees .refl p.keptBefore p (x k) (y n) →
      (y n).answer?.isSome = (x k).answer?.isSome := by
    intro k n hagrees
    rw [hagrees.answer?, Option.isSome_map]
  refine ⟨⟨?_, ?_⟩, ?_⟩
  · rintro ⟨n, hn⟩
    obtain ⟨k, hle, hagrees, _⟩ := hsim n
    refine ⟨n, ?_⟩
    have hk : x k = x n := (executeFor_of_answer hn hle).1
    rw [hover hagrees, hk]
    exact hn
  · rintro ⟨n, hn⟩
    obtain ⟨k, _, hagrees, _⟩ := hsim n
    refine ⟨k, ?_⟩
    rw [← hover hagrees]
    exact hn
  · intro n n' hn hn'
    obtain ⟨k, _, hagrees, hdprints⟩ := hsim n'
    have hk : (x k).answer?.isSome := by
      rw [← hover hagrees]
      exact hn'
    obtain ⟨hxk, hsteps⟩ : x k = x n ∧ start.executionSteps p k = start.executionSteps p n := executeFor_unique hn hk
    rw [hxk] at hagrees
    rw [hsteps] at hdprints
    have hmachine := hagrees.machine
    have htranslate : RunError.translate .refl p.keptBefore = fun e => ⟨p.keptBefore e.position, e.fault⟩ := by
      funext e
      rw [RunError.translate, Fault.rename_refl]
    refine ⟨?_, ?_, hmachine.data, hmachine.calls, hmachine.input, hmachine.output, ?_, ?_⟩
    · rw [hagrees.answer?, htranslate]
    · rw [hmachine.memory, Memory.rename_refl]
    · exact written_executeFor (m := start) hlimit n
    · rw [← hdprints, ← bytes_notes_withoutBreaks]
      exact written_executeFor (m := start) hlimit n'

/-- A call with a `BREAK` behind it, and a return that fails. -/
theorem without_breaks_same_end_call :
    let p : Program := #[⟨.dump, []⟩, ⟨.jump, [.label "main"]⟩, ⟨.label, [.label "f"]⟩, ⟨.dump, []⟩,
      ⟨.dprint, [.const (.int 1)]⟩, ⟨.ret, []⟩, ⟨.label, [.label "main"]⟩, ⟨.call, [.label "f"]⟩, ⟨.dump, []⟩,
      ⟨.ret, []⟩]
    let y := (fresh (Source.lines []) {} {}).executeFor p.withoutBreaks 8
    y.answer? = some (.error ⟨6, .emptyCallStack⟩) ∧ y.machine.diagnostics.written = "1\n".toUTF8 := by
  intro p y
  obtain ⟨_, hend⟩ := without_breaks_same_end p (Source.lines []) {} {} rfl rfl
  obtain ⟨hanswer, _, _, _, _, _, _, hdiagnostics⟩ := hend 11 8 (by decide) (by decide)
  have hx : ((fresh (Source.lines []) {} {}).executeFor p 11).answer? = some (.error ⟨9, .emptyCallStack⟩) := by decide
  have hdprints : dprints p ((fresh (Source.lines []) {} {}).executionSteps p 11) = ["1\n"] := by decide
  have hindex : p.keptBefore 9 = 6 := by decide
  constructor
  · rw [hanswer, hx, ← hindex]
    rfl
  · rw [hdiagnostics, hdprints]
    simp [String.join]

end Machine

end IPPcode23
