import IPPcode23.Proofs.Load
import IPPcode23.Proofs.Machine.Dispatch
import IPPcode23.Proofs.Machine.Faults
import IPPcode23.Proofs.Machine.Labels

/-!
# Malformed instructions

Nothing but the check against the signature finds an instruction malformed: an action fails by a check of its own or by
a channel, so never in that way (`execute_ne_malformed`), and an execution does only at an instruction that does not
pass the check. What is loaded has no such instruction.
-/

namespace IPPcode23

variable {σ : Type} [Input σ]

namespace Machine

/-- An instruction that is an action is not found malformed when it is carried out. No check of an action does that. -/
theorem execute_ne_malformed (m m' : Machine σ) (a : Action) (cause : SignatureError) :
    m.execute a ≠ .fail (.malformed cause) m' := by
  intro h
  rcases check_or_channel_of_execute h with ⟨c, hc⟩ | ⟨_, hchannel⟩
  · cases c <;> cases hc
  · cases hchannel

private theorem checkSignature_of_step {p : Program} {m m' : Machine σ} {n : Nat} {cause : SignatureError}
    (hstep : m.step p = .failed ⟨n, .malformed cause⟩ m') : ∃ i, p[n]? = some i ∧ i.checkSignature = .error cause := by
  have h := steps_step p m
  generalize m.step p = r at h hstep
  cases h with
  | atEnd => obtain ⟨_, he, _⟩ := finish_eq_failed_iff.1 hstep; cases he
  | exit => obtain ⟨_, he, _⟩ := finish_eq_failed_iff.1 hstep; cases he
  | next => cases hstep
  | malformed hi h => cases hstep; exact ⟨_, hi, h⟩
  | fail hi h => cases hstep; exact absurd h (execute_ne_malformed _ _ _ _)

private theorem checkSignature_of_executeFor {p : Program} {m m' : Machine σ} {n k : Nat} {cause : SignatureError}
    (h : m.executeFor p k = .failed ⟨n, .malformed cause⟩ m') :
    ∃ i, p[n]? = some i ∧ i.checkSignature = .error cause := by
  rcases executeFor_cases p m k with ⟨e, htable, hfailed⟩ | ⟨m₁, _, hrun⟩
  · obtain ⟨label, hlabel⟩ := LabelTable.scan_eq_error htable
    rw [hfailed] at h
    cases h
    cases hlabel
  · rw [hrun] at h
    obtain ⟨_, m₂, _, hstep⟩ := exists_step_of_run_eq h (by simp)
    exact checkSignature_of_step hstep

/-- Loaded programs pass the check and hold no names but identifiers. Any program, on any machine and for any number of
steps, is found malformed only at an instruction that fails the check, with the cause that the check gives. Past the
check no look-up of an operand by its position is refused. So the execution of a loaded program is not found malformed,
whatever machine it starts on, one that earlier executions have left behind included. -/
theorem malformed_only_by_check :
    (∀ (f : Format) (source : String) (p : Program), f.load source = .ok p →
      ∀ i ∈ p, i.checkSignature = .ok () ∧
        ∀ o ∈ i.operands, ∀ name, o.name? = some name → isIdentifier name = true) ∧
    (∀ (p : Program) (m m' : Machine σ) (n k : Nat) (cause : SignatureError),
      m.executeFor p k = .failed ⟨n, .malformed cause⟩ m' → ∃ i, p[n]? = some i ∧ i.checkSignature = .error cause) ∧
    (∀ (m : Machine σ) (i : Instruction), i.checkSignature = .ok () →
      m.dispatch i = m.perform i ∧ ∀ cause m', m.dispatch i ≠ .fail (.malformed cause) m') ∧
    (∀ (f : Format) (source : String) (p : Program), f.load source = .ok p →
      ∀ (m m' : Machine σ) (k : Nat) (e : RunError), m.executeFor p k = .failed e m' →
        ∀ cause, e.fault ≠ .malformed cause) := by
  refine ⟨?_, ?_, ?_, ?_⟩
  · intro f source p hload i hi
    exact ⟨(Format.load_valid hload i hi).signature, (Format.load_valid hload i hi).names⟩
  · intro p m m' n k cause h
    exact checkSignature_of_executeFor h
  · intro m i hi
    refine ⟨dispatch_eq_perform hi, fun cause m' h => ?_⟩
    obtain ⟨a, ha⟩ := Instruction.exists_action_iff.2 hi
    rw [dispatch_eq_perform hi, perform, ha] at h
    exact execute_ne_malformed m m' a cause h
  · rintro f source p hload m m' k ⟨n, fault⟩ h cause rfl
    obtain ⟨i, hi, hcheck⟩ := checkSignature_of_executeFor h
    have hvalid := Format.load_valid hload i (Array.mem_of_getElem? hi)
    rw [hvalid.signature] at hcheck
    cases hcheck

/-- A loaded `WRITE` of a variable that is not declared, and a `WRITE` without operand. -/
theorem malformed_only_by_check_write :
    ((⟨.write, [.var ⟨.global, "x"⟩]⟩ : Instruction).checkSignature = .ok () ∧
      ∀ o ∈ [Operand.var ⟨.global, "x"⟩], ∀ name, o.name? = some name → isIdentifier name = true) ∧
    (∃ i, (#[⟨.write, []⟩] : Program)[0]? = some i ∧ i.checkSignature = .error (.count .write 1 0)) ∧
    (∀ cause m', (fresh (Source.lines []) {} {}).dispatch ⟨.write, [.var ⟨.global, "x"⟩]⟩ ≠
      .fail (.malformed cause) m') ∧
    ∀ cause, Fault.undefinedVariable ⟨.global, "x"⟩ ≠ .malformed cause := by
  have hload : Format.text.load ".IPPcode23\nWRITE GF@x\n" = .ok #[⟨.write, [.var ⟨.global, "x"⟩]⟩] := rfl
  obtain ⟨hvalid, hmalformed, hdispatch, hloaded⟩ := @malformed_only_by_check Source _
  refine ⟨?_, ?_, ?_, ?_⟩
  · exact hvalid .text _ _ hload _ (by simp)
  · exact hmalformed #[⟨.write, []⟩] (fresh (Source.lines []) {} {}) _ 0 1 _ rfl
  · exact (hdispatch _ _ rfl).2
  · exact hloaded .text _ _ hload (fresh (Source.lines []) {} {}) _ 1 ⟨0, .undefinedVariable ⟨.global, "x"⟩⟩ rfl

end Machine

end IPPcode23
