import IPPcode23.Proofs.Machine.Effect
import IPPcode23.Proofs.Machine.History

/-!
# The data stack through a history

How the steps of a history move the data stack: a `PUSHS` that succeeds puts its value on top, a `POPS` that succeeds takes
the top into its variable, and no other step changes it (`stack_of_step`). So

* the stack rises above a height by a `PUSHS` and falls to it by a `POPS` (`exists_last_rise`, `exists_first_fall`);
* what a `PUSHS` has put on the stack stays there for as long as the stack is higher than before it (`suffix_of_above`).
-/

namespace IPPcode23.Machine

variable {σ : Type}

/-- The height of the data stack that a step of a history finds. -/
def heightAt (h : List (Machine σ)) (k : Nat) : Nat :=
  (h[k]?.map fun m => m.data.length).getD 0

/-- The data stack that a step of a history finds. Behind the last step it is that of the machine now. -/
def stackAt (h : List (Machine σ)) (m : Machine σ) (k : Nat) : List Value :=
  (h.getD k m).data

theorem heightAt_eq {h : List (Machine σ)} {k : Nat} (m : Machine σ) (hk : k < h.length) :
    heightAt h k = (stackAt h m k).length := by
  simp [heightAt, stackAt, hk]

variable [Input σ]

/-- The value that the next step pushes, if it is a `PUSHS` that succeeds. -/
def pushed? (p : Program) (m : Machine σ) : Option Value :=
  match m.step p, p[m.pc]?.map Instruction.action with
  | .running _, some (.ok (.pushs source)) => (m.memory.value source).toOption
  | _, _ => none

/-- The variable that the next step pops into, if it is a `POPS` that succeeds. -/
def popped? (p : Program) (m : Machine σ) : Option Variable :=
  match m.step p, p[m.pc]?.map Instruction.action with
  | .running _, some (.ok (.pops v)) => some v
  | _, _ => none

section History

variable (p : Program) (h : List (Machine σ))

/-- The value that a step of a history pushes. -/
def pushAt (k : Nat) : Option Value :=
  h[k]?.bind fun m => m.pushed? p

/-- The variable that a step of a history pops into. -/
def popAt (k : Nat) : Option Variable :=
  h[k]?.bind fun m => m.popped? p

/-- The value that the variable of a `POPS` has after it. -/
def storedAt (k : Nat) : Option Value := do
  let m ← h[k]?
  let v ← m.popped? p
  ((m.step p).machine.memory.read v).toOption

end History

/-! ### One step -/

/-- How a step moves the data stack: a `PUSHS` puts its value on top, a `POPS` takes the top into its variable, and no
other step changes it. -/
theorem stack_of_step (p : Program) (m : Machine σ) :
    (∃ x, m.pushed? p = some x ∧ m.popped? p = none ∧ (m.step p).machine.data = x :: m.data) ∨
      (∃ v x, m.pushed? p = none ∧ m.popped? p = some v ∧ m.data = x :: (m.step p).machine.data ∧
        (m.step p).machine.memory.read v = .ok x) ∨
      (m.pushed? p = none ∧ m.popped? p = none ∧ (m.step p).machine.data = m.data) := by
  rcases step_running_or_kept p m with ⟨a, m', hi, hexec, hstep⟩ | ⟨hover, _, hdata, _⟩
  · have ha : a.instruction.action = .ok a := Instruction.action_eq_ok_iff.2 rfl
    simp only [pushed?, popped?, hstep, hi, Option.map_some, ha, Progress.machine]
    cases hexec with
    | @pushs source x hx =>
      have hvalue : (m.memory.value source).toOption = some x := congrArg Except.toOption hx
      exact Or.inl ⟨x, hvalue, rfl, rfl⟩
    | @pops v x rest memory hdata hassign =>
      exact Or.inr (Or.inl ⟨v, x, rfl, rfl, hdata, Memory.read_of_assign hassign⟩)
    | jumpIf =>
      refine Or.inr (Or.inr ⟨rfl, rfl, ?_⟩)
      split <;> rfl
    | _ => exact Or.inr (Or.inr ⟨rfl, rfl, rfl⟩)
  · have hnone : m.pushed? p = none ∧ m.popped? p = none := by
      unfold pushed? popped?
      cases hstep : m.step p with
      | running m' => exact absurd hstep (hover m')
      | halted | failed => exact ⟨rfl, rfl⟩
    exact Or.inr (Or.inr ⟨hnone.1, hnone.2, hdata⟩)

/-! ### Recorded stacks -/

/-- A history that leads from an empty data stack to that of a machine. -/
structure Recorded (p : Program) (h : List (Machine σ)) (m : Machine σ) : Prop where
  first : stackAt h m 0 = []
  next : ∀ k s, h[k]? = some s → stackAt h m (k + 1) = (s.step p).machine.data

theorem recorded_history (p : Program) (input : σ) (output diagnostics : Sink) (ns : List Nat) :
    Recorded p ((fresh input output diagnostics).history p ns) ((fresh input output diagnostics).executions p ns) := by
  refine history_invariant ?_ ?_ ⟨rfl, by simp⟩ ns
  · intro h m hm
    refine ⟨?_, ?_⟩
    · have hfirst := hm.first
      cases h <;> exact hfirst
    · intro k s hs
      have hk : k < h.length + 1 := by simpa using (List.getElem?_eq_some_iff.1 hs).1
      by_cases hlast : k = h.length
      · subst hlast
        obtain rfl : m = s := by simpa using hs
        simp [stackAt]
      · have hk : k < h.length := by omega
        rw [List.getElem?_append_left hk] at hs
        rw [← hm.next k s hs]
        by_cases hnext : k + 1 = h.length
        · simp [stackAt, hnext]
        · have hnext : k + 1 < h.length := by omega
          simp [stackAt, List.getElem?_append_left hnext, hnext]
  · intro h m labels pc hm
    -- a start keeps the data stack, and with it what stands behind the last step
    have hsame : ∀ k, stackAt h { m with labels, pc } k = stackAt h m k := by
      intro k
      unfold stackAt
      by_cases hk : k < h.length
      · simp [hk]
      · simp [Nat.le_of_not_lt hk]
    exact ⟨by rw [hsame]; exact hm.first, fun k s hs => by rw [hsame]; exact hm.next k s hs⟩

theorem lt_of_popAt {p : Program} {h : List (Machine σ)} {k : Nat} (hk : (popAt p h k).isSome) : k < h.length := by
  obtain ⟨v, hv⟩ := Option.isSome_iff_exists.1 hk
  obtain ⟨s, hs, _⟩ := Option.bind_eq_some_iff.1 hv
  exact (List.getElem?_eq_some_iff.1 hs).1

namespace Recorded

variable {p : Program} {h : List (Machine σ)} {m : Machine σ}

/-- How a step of the history moves the stack. -/
theorem moves (hm : Recorded p h m) {k : Nat} (hk : k < h.length) :
    (∃ x, pushAt p h k = some x ∧ popAt p h k = none ∧ stackAt h m (k + 1) = x :: stackAt h m k) ∨
      (∃ v x, pushAt p h k = none ∧ popAt p h k = some v ∧ stackAt h m k = x :: stackAt h m (k + 1) ∧
        storedAt p h k = some x) ∨
      (pushAt p h k = none ∧ popAt p h k = none ∧ stackAt h m (k + 1) = stackAt h m k) := by
  obtain ⟨s, hs⟩ : ∃ s, h[k]? = some s := ⟨h[k], List.getElem?_eq_getElem hk⟩
  have hstack : stackAt h m k = s.data := by simp [stackAt, hs]
  have hpush : pushAt p h k = s.pushed? p := by rw [pushAt, hs]; rfl
  have hpop : popAt p h k = s.popped? p := by rw [popAt, hs]; rfl
  rw [hm.next k s hs, hstack, hpush, hpop]
  rcases stack_of_step p s with hpushed | ⟨v, x, hnone, hv, hdata, hread⟩ | hkept
  · exact Or.inl hpushed
  · refine Or.inr (Or.inl ⟨v, x, hnone, hv, hdata, ?_⟩)
    simp [storedAt, hs, hv, hread, Except.toOption]
  · exact Or.inr (Or.inr hkept)

/-- A stack that has risen above a height was last raised above it by a `PUSHS`. -/
theorem exists_last_rise (hm : Recorded p h m) {i j l : Nat} (hij : i ≤ j) (hj : j ≤ h.length)
    (hi : (stackAt h m i).length ≤ l) (hl : l < (stackAt h m j).length) :
    ∃ k x, i ≤ k ∧ k < j ∧ pushAt p h k = some x ∧ (stackAt h m k).length = l ∧
      ∀ k', k < k' → k' ≤ j → l < (stackAt h m k').length := by
  induction j with
  | zero =>
    obtain rfl : i = 0 := by omega
    omega
  | succ j ih =>
    have hij : i ≤ j := by
      rcases Nat.lt_or_ge i (j + 1) with hlt | hge
      · omega
      · obtain rfl : i = j + 1 := by omega
        omega
    by_cases hbelow : l < (stackAt h m j).length
    · obtain ⟨k, x, hik, hkj, hpush, hheight, habove⟩ := ih hij (by omega) hbelow
      refine ⟨k, x, hik, by omega, hpush, hheight, ?_⟩
      intro k' hk hk'
      by_cases hlast : k' = j + 1
      · rw [hlast]
        exact hl
      · exact habove k' hk (by omega)
    · -- the step from `j` on is the one that rises above `l`
      rcases hm.moves (k := j) (by omega) with ⟨x, hpush, _, hstack⟩ | ⟨_, _, _, _, hstack, _⟩ | ⟨_, _, hstack⟩
      · have hlength := congrArg List.length hstack
        rw [List.length_cons] at hlength
        refine ⟨j, x, hij, by omega, hpush, by omega, ?_⟩
        intro k' hk hk'
        obtain rfl : k' = j + 1 := by omega
        exact hl
      · have hlength := congrArg List.length hstack
        rw [List.length_cons] at hlength
        omega
      · rw [hstack] at hl
        exact absurd hl hbelow

/-- A stack that has fallen to a height or below it first fell to it by a `POPS`. -/
theorem exists_first_fall (hm : Recorded p h m) {i k l : Nat} (hik : i ≤ k) (hk : k ≤ h.length)
    (hi : l < (stackAt h m i).length) (hl : (stackAt h m k).length ≤ l) :
    ∃ j, i ≤ j ∧ j < k ∧ (popAt p h j).isSome ∧ (stackAt h m j).length = l + 1 ∧
      ∀ k', i ≤ k' → k' ≤ j → l < (stackAt h m k').length := by
  induction k using Nat.strongRecOn with
  | ind k ih =>
    by_cases hearlier : ∃ k', i ≤ k' ∧ k' < k ∧ (stackAt h m k').length ≤ l
    · obtain ⟨k', hik', hk', hl'⟩ := hearlier
      obtain ⟨j, hij, hjk, hpop, hheight, habove⟩ := ih k' hk' hik' (by omega) hl'
      exact ⟨j, hij, by omega, hpop, hheight, habove⟩
    · have habove : ∀ k', i ≤ k' → k' < k → l < (stackAt h m k').length := by
        intro k' hik' hk'
        by_contra hle
        exact hearlier ⟨k', hik', hk', by omega⟩
      -- so the stack falls to `l` just before `k`
      have hne : i ≠ k := by
        rintro rfl
        omega
      obtain ⟨j, rfl⟩ : ∃ j, k = j + 1 := ⟨k - 1, by omega⟩
      have hj := habove j (by omega) (by omega)
      rcases hm.moves (k := j) (by omega) with ⟨_, _, _, hstack⟩ | ⟨v, _, _, hpop, hstack, _⟩ | ⟨_, _, hstack⟩
      · have hlength := congrArg List.length hstack
        rw [List.length_cons] at hlength
        omega
      · have hlength := congrArg List.length hstack
        rw [List.length_cons] at hlength
        refine ⟨j, by omega, by omega, by rw [hpop]; rfl, by omega, ?_⟩
        intro k' hik' hk'
        exact habove k' hik' (by omega)
      · rw [hstack] at hl
        omega

/-- What a `PUSHS` has put on the stack stays there for as long as the stack is higher than before it. -/
theorem suffix_of_above (hm : Recorded p h m) {i j : Nat} {x : Value} (hpush : pushAt p h i = some x) (hij : i < j)
    (hj : j ≤ h.length) (habove : ∀ k, i < k → k ≤ j → (stackAt h m i).length < (stackAt h m k).length) :
    x :: stackAt h m i <:+ stackAt h m j := by
  induction j with
  | zero => omega
  | succ j ih =>
    have hmoves := hm.moves (k := j) (by omega)
    by_cases hfirst : i = j
    · subst hfirst
      rw [hpush] at hmoves
      rcases hmoves with ⟨y, hy, _, hstack⟩ | ⟨_, _, hnone, _⟩ | ⟨hnone, _⟩
      · cases hy
        exact ⟨[], hstack.symm⟩
      · cases hnone
      · cases hnone
    · have hsuffix := ih (by omega) (by omega) fun k hik hk => habove k hik (by omega)
      rcases hmoves with ⟨y, _, _, hstack⟩ | ⟨_, y, _, _, hstack, _⟩ | ⟨_, _, hstack⟩
      · rw [hstack]
        exact hsuffix.trans (List.suffix_cons _ _)
      · -- a pop that took `x` would leave the stack as high as before the push
        rw [hstack] at hsuffix
        rcases List.suffix_cons_iff.1 hsuffix with heq | hrest
        · have hheight := habove (j + 1) (by omega) (Nat.le_refl _)
          have hlength := congrArg List.length (List.cons.inj heq).2
          omega
        · exact hrest
      · rw [hstack]
        exact hsuffix

/-- A stack one higher than before a `PUSHS`, and never lower since, is that stack with the value pushed on it. -/
theorem stack_of_above (hm : Recorded p h m) {i j : Nat} {x : Value} (hpush : pushAt p h i = some x) (hij : i < j)
    (hj : j ≤ h.length) (habove : ∀ k, i < k → k ≤ j → (stackAt h m i).length < (stackAt h m k).length)
    (hheight : (stackAt h m j).length = (stackAt h m i).length + 1) : stackAt h m j = x :: stackAt h m i := by
  have hsuffix := hm.suffix_of_above hpush hij hj habove
  exact (hsuffix.eq_of_length (by simp [hheight])).symm

end Recorded

end IPPcode23.Machine
