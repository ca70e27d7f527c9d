import IPPcode23.Proofs.Machine.Channels

/-!
# Failed instructions

An instruction that fails, for whatever reason, has changed neither the frames nor the stacks, so that a machine can be
used again after a failure. Only the input may be another one: a `READ` that fails has read it all the same, once
(`failed_step_keeps_state`). It has then lost what that read takes off it, which is a line if one was read, and the bytes
before the failure if a reader failed inside a line (`failed_read_changes_input`).
-/

namespace IPPcode23.Machine

variable {σ : Type} [Input σ]

/-- How a `READ` fails: the input fails, or a line or the end of the input has been read and the destination is missing. -/
private theorem readInto_eq_fail {m m' : Machine σ} {v : Variable} {t : TypeName} {cause : Fault}
    (h : m.readInto v t = .fail cause m') :
    (∃ failure, Input.answer m.input = .error failure ∧ cause = .channel failure) ∨
      ∃ line?, Input.answer m.input = .ok line? ∧ ¬ m.memory.HasVariable v := by
  cases hread : Input.answer m.input with
  | error failure =>
    rw [readInto_of_failure hread] at h
    cases h
    exact Or.inl ⟨failure, rfl, rfl⟩
  | ok line? =>
    rw [readInto_of_answer hread] at h
    have hassign : m.memory.assign v (t.interpret line?) = .error cause := by
      rcases bind_eq_error.1 (attempt_eq_fail.1 h).1 with hassign | ⟨memory, _, hpure⟩
      · exact hassign
      · cases hpure
    exact Or.inr ⟨line?, rfl, Memory.not_hasVariable_of_assign hassign⟩

/-- A failed step of a well-formed `READ` fails as it is carried out. -/
private theorem readInto_of_step_eq_failed {p : Program} {m m' : Machine σ} {v : Variable} {t : TypeName} {e : RunError}
    (hi : p[m.pc]? = some (Action.read v t).instruction) (h : m.step p = .failed e m') :
    m.enter.readInto v t = .fail e.fault m' := by
  rw [step_of_action hi] at h
  show m.enter.execute (.read v t) = .fail e.fault m'
  cases hresult : m.enter.execute (.read v t) with
  | next m₁ => rw [hresult] at h; cases h
  | exit code m₁ =>
    obtain ⟨_, _, hexit, _⟩ := execute_eq_exit_iff.1 hresult
    cases hexit
  | fail cause m₁ => rw [hresult] at h; cases h; rfl

/-- A failed instruction, well-formed or not, leaves the frames and both stacks exactly as they were. It leaves the input
as it was too, unless it is a `READ` that passes the check against its signature. Such a `READ` has read the input once. If
it got a line or came to the end of the input, its destination is missing; otherwise the input failed, and that is what is
reported. A read takes off lines the first one of them, off a reader a line with its ending, nothing at the end of the
input, and the bytes before the failure if the reader fails. -/
theorem failed_step_keeps_state {p : Program} {m m' : Machine σ} {i : Instruction} {e : RunError}
    (hi : p[m.pc]? = some i) (h : m.step p = .failed e m') :
    m'.memory.global = m.memory.global ∧ m'.memory.locals = m.memory.locals ∧
    m'.memory.temporary = m.memory.temporary ∧ m'.data = m.data ∧ m'.calls = m.calls ∧
    (¬ (i.opcode = .read ∧ i.checkSignature = .ok ()) → m'.input = m.input) ∧
    (i.opcode = .read → i.checkSignature = .ok () → m'.input = Input.advance m.input ∧
      (∀ line?, Input.answer m.input = .ok line? →
        ∃ v, i.operands.head? = some (.var v) ∧ ¬ m.memory.HasVariable v) ∧
      ∀ cause, Input.answer m.input = .error cause → e.fault = .channel cause) ∧
    ∀ s : Source, s.Takes (Input.answer s) (Input.advance s) := by
  have hkept : m'.memory = m.memory ∧ m'.data = m.data ∧ m'.calls = m.calls := by
    rcases step_running_or_kept p m with ⟨_, _, _, _, hstep⟩ | ⟨_, hmemory, hdata, hcalls⟩
    · rw [h] at hstep
      cases hstep
    · rw [h] at hmemory hdata hcalls
      exact ⟨hmemory, hdata, hcalls⟩
  obtain ⟨hmemory, hdata, hcalls⟩ := hkept
  have hinput := input_step p m
  rw [h] at hinput
  refine ⟨by rw [hmemory], by rw [hmemory], by rw [hmemory], hdata, hcalls, ?_, ?_, Source.takes_read⟩
  · intro hother
    rwa [if_neg (fun hreads => hother ((reads_iff_checkSignature hi).1 hreads))] at hinput
  · intro hopcode hcheck
    have hreads := (reads_iff_checkSignature hi).2 ⟨hopcode, hcheck⟩
    obtain ⟨v, t, hi'⟩ := reads_eq_true_iff.1 hreads
    obtain rfl := Option.some.inj (hi.symm.trans hi')
    rw [if_pos hreads] at hinput
    refine ⟨hinput, ?_, ?_⟩
    · intro line? hline
      rcases readInto_eq_fail (readInto_of_step_eq_failed hi h) with ⟨failure, hfailure, _⟩ | ⟨_, _, hmissing⟩
      · cases hline.symm.trans hfailure
      · exact ⟨v, rfl, hmissing⟩
    · intro cause hfailure
      rcases readInto_eq_fail (readInto_of_step_eq_failed hi h) with ⟨failure, hfailure', hcause⟩ | ⟨_, hline, _⟩
      · cases hfailure.symm.trans hfailure'
        exact hcause
      · cases hfailure.symm.trans hline

/-- A `READ` into the temporary frame, which is not there, from a reader of three bytes: the line before the line feed is
lost, and the frames and both stacks stay. -/
theorem failed_step_keeps_state_read :
    let p : Program := #[⟨.read, [.var ⟨.temporary, "x"⟩, .type .int]⟩]
    let m : Machine Source := { fresh (Source.bytes [55, 10, 56]) {} {} with data := [.nil], calls := [1] }
    let m' := (m.step p).machine
    m.step p = .failed ⟨0, .missingFrame .temporary⟩ m' ∧ m'.memory.locals = m.memory.locals ∧ m'.data = [.nil] ∧
      m'.calls = [1] ∧ m'.input = Source.bytes [56] ∧ m.input.Takes (.ok (some "7")) m'.input := by
  intro p m m'
  have hfailed : m.step p = .failed ⟨0, .missingFrame .temporary⟩ m' := rfl
  obtain ⟨_, hlocals, _, hdata, hcalls, _, hread, htakes⟩ := failed_step_keeps_state rfl hfailed
  exact ⟨hfailed, hlocals, hdata, hcalls, (hread rfl rfl).1, htakes m.input⟩

/-- Two `READ`s that fail without having got a line, and inputs that have changed. The reader failed after the first byte,
which is lost. The other input was at its end, but granted one read only, so that the next execution fails otherwise. -/
theorem failed_read_changes_input :
    let p : Program := #[⟨.read, [.var ⟨.global, "x"⟩, .type .int]⟩]
    let broken := fresh (Source.reader [.byte 55, .failure (.input "broken"), .byte 56]) {} {}
    let ended := fresh (Rationed.mk (Source.lines []) (some 1)) {} {}
    let m := (broken.executeFor p 1).machine
    let m' := (ended.executeFor p 1).machine
    (broken.executeFor p 1 = .failed ⟨0, .channel (.input "broken")⟩ m ∧ m.input = .reader [.byte 56] ∧
      m.input ≠ broken.input) ∧
    Input.answer ended.input = .ok none ∧ ended.executeFor p 1 = .failed ⟨0, .undefinedVariable ⟨.global, "x"⟩⟩ m' ∧
      m'.input ≠ ended.input ∧
      m'.executeFor p 1 = .failed ⟨0, .channel (.input "input refused")⟩ (m'.executeFor p 1).machine := by
  intro p broken ended m m'
  exact ⟨⟨rfl, rfl, by decide⟩, rfl, rfl, by decide, rfl⟩

end IPPcode23.Machine
