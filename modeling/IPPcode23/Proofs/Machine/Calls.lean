import IPPcode23.Proofs.Machine.Control

/-!
# Calls and returns

A call puts the index behind it on the call stack, and nothing below that index changes until it is popped. So the
first time that the stack is as high as before the call, it is the same stack, and the run goes on behind the call
(`returns_behind_call`).
-/

namespace IPPcode23.Machine

variable {σ : Type} [Input σ]

/-- One step from a machine within a call: it stays within the call, or it returns from it. -/
private theorem step_within_call (p : Program) {m : Machine σ} {r : Nat} {calls : List Nat}
    (h : r :: calls <:+ m.calls) :
    r :: calls <:+ (m.step p).machine.calls ∨ (m.step p).machine.pc = r ∧ (m.step p).machine.calls = calls := by
  rcases step_running_or_over p m with ⟨a, m', _, hexec, hstep⟩ | ⟨_, hcalls, _⟩
  · rw [hstep]
    show r :: calls <:+ m'.calls ∨ m'.pc = r ∧ m'.calls = calls
    cases hexec.transfers with
    | next _ hcalls => left; rw [hcalls]; exact h
    | jump _ _ hcalls => left; rw [hcalls]; exact h
    | call _ hcalls => left; rw [hcalls]; exact h.trans (List.suffix_cons _ _)
    | ret hcalls =>
      have hpopped : r :: calls <:+ m'.pc :: m'.calls := by
        rw [← hcalls]
        exact h
      rcases List.suffix_cons_iff.1 hpopped with heq | hrest
      · cases heq
        exact Or.inr ⟨rfl, rfl⟩
      · exact Or.inl hrest
  · left
    rw [hcalls]
    exact h

/-- A run from a machine within a call stays within it for as long as its stack is not of the height before the call. -/
private theorem run_within_call {p : Program} {m : Machine σ} {r : Nat} {calls : List Nat} {k : Nat}
    (h : r :: calls <:+ m.calls) (hlength : ∀ j ≤ k, (m.run p j).machine.calls.length ≠ calls.length) :
    r :: calls <:+ (m.run p k).machine.calls := by
  induction k with
  | zero => exact h
  | succ k ih =>
    have hwithin := ih fun j hj => hlength j (by omega)
    rcases run_succ_cases p m k with ⟨m', hrun, hsucc⟩ | ⟨_, hsucc⟩
    · have hne := hlength (k + 1) (Nat.le_refl _)
      have hm' : r :: calls <:+ m'.calls := by rwa [hrun] at hwithin
      rw [hsucc] at hne ⊢
      rcases step_within_call p hm' with hstep | ⟨_, hreturned⟩
      · exact hstep
      · -- a return would bring the stack to the height that is excluded
        rw [hreturned] at hne
        exact absurd rfl hne
    · rw [hsucc]
      exact hwithin

/-- A `CALL` returns to where it was made. If it succeeds, the first machine after it whose call stack is as high as
before has that very call stack, and goes on with the instruction behind the `CALL`. -/
theorem returns_behind_call {p : Program} {m m₁ : Machine σ} {i : Instruction} {k : Nat} (hi : p[m.pc]? = some i)
    (hcall : i.opcode = .call) (hstep : m.step p = .running m₁)
    (hback : (m₁.run p k).machine.calls.length = m.calls.length)
    (hfirst : ∀ j < k, (m₁.run p j).machine.calls.length ≠ m.calls.length) :
    (m₁.run p k).machine.pc = m.pc + 1 ∧ (m₁.run p k).machine.calls = m.calls := by
  have hcalls : m₁.calls = (m.pc + 1) :: m.calls := by
    obtain ⟨a, ha, hexec⟩ := step_eq_running_iff.1 hstep
    obtain rfl : a.instruction = i := Option.some.inj (ha.symm.trans hi)
    -- no rule but that of `CALL` is one of an instruction with this opcode
    cases hexec <;> first | rfl | cases hcall
  have hwithin : (m.pc + 1) :: m.calls <:+ m₁.calls := ⟨[], hcalls.symm⟩
  cases k with
  | zero =>
    have hback : m₁.calls.length = m.calls.length := hback
    simp [hcalls] at hback
  | succ k =>
    -- one step earlier the run is still within the call, so this step is the return
    have hbefore := run_within_call (k := k) hwithin fun j hj => hfirst j (by omega)
    rcases run_succ_cases p m₁ k with ⟨m₂, hrun, hsucc⟩ | ⟨_, hsucc⟩
    · have hm₂ : (m.pc + 1) :: m.calls <:+ m₂.calls := by rwa [hrun] at hbefore
      rw [hsucc] at hback ⊢
      rcases step_within_call p hm₂ with hlonger | hreturned
      · have hle := hlonger.length_le
        rw [hback, List.length_cons] at hle
        omega
      · exact hreturned
    · rw [hsucc] at hback
      exact absurd hback (hfirst k (by omega))

/-- A subroutine that calls another one. -/
theorem returns_behind_call_nested :
    let p : Program := #[⟨.call, [.label "f"]⟩, ⟨.dump, []⟩, ⟨.label, [.label "f"]⟩, ⟨.call, [.label "g"]⟩, ⟨.ret, []⟩,
      ⟨.label, [.label "g"]⟩, ⟨.ret, []⟩]
    let m : Machine Source := { fresh (Source.lines []) {} {} with labels := [("g", 5), ("f", 2)] }
    (m.run p 6).machine.pc = 1 ∧ (m.run p 6).machine.calls = [] := by
  intro p m
  have hstep : m.step p = .running { m.enter with pc := 2, calls := [1] } := rfl
  rw [run_succ_of_running hstep]
  refine returns_behind_call (k := 5) (i := ⟨.call, [.label "f"]⟩) rfl rfl hstep rfl ?_
  decide

end IPPcode23.Machine
