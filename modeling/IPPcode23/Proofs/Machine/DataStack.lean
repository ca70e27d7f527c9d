import IPPcode23.Proofs.Machine.StackHistory

/-!
# Matching pushes and pops

A `POPS` takes what the `PUSHS` matching it has put on the data stack: the last one before it that raised the stack to the
height that the `POPS` finds, in whichever execution. In terms of heights, the stack is higher than before that `PUSHS`
from then on until the `POPS` (`matches_iff`). So a `PUSHS` is matched exactly if the stack has fallen to its height
before the `PUSHS` again (`exists_matches_iff`), and the stack always consists of the values of the unmatched `PUSHS`
(`data_stack_matched`).
-/

namespace IPPcode23.Machine

variable {σ : Type} [Input σ]

section History

variable (p : Program) (h : List (Machine σ))

/-- The `PUSHS` that matches a `POPS`: the last one before it that raised the data stack to the height that the `POPS`
finds. -/
structure Matches (i j : Nat) : Prop where
  lt : i < j
  push : (pushAt p h i).isSome
  pop : (popAt p h j).isSome
  height : heightAt h i + 1 = heightAt h j
  last : ∀ k < j, i < k → (pushAt p h k).isSome → heightAt h k + 1 ≠ heightAt h j

instance (i j : Nat) : Decidable (Matches p h i j) :=
  decidable_of_iff
    (i < j ∧ (pushAt p h i).isSome ∧ (popAt p h j).isSome ∧ heightAt h i + 1 = heightAt h j ∧
      ∀ k < j, i < k → (pushAt p h k).isSome → heightAt h k + 1 ≠ heightAt h j)
    ⟨fun ⟨h₁, h₂, h₃, h₄, h₅⟩ => ⟨h₁, h₂, h₃, h₄, h₅⟩, fun ⟨h₁, h₂, h₃, h₄, h₅⟩ => ⟨h₁, h₂, h₃, h₄, h₅⟩⟩

/-- The value that a step pushes if no `POPS` among the first `t` steps matches it. -/
def unmatchedAt (t i : Nat) : Option Value :=
  if ∃ j < t, Matches p h i j then none else pushAt p h i

/-- The values of the `PUSHS` among the first `t` steps that no `POPS` among them matches, in the order of execution. -/
def unmatchedBefore (t : Nat) : List Value :=
  (List.range t).filterMap (unmatchedAt p h t)

/-- The values of the `PUSHS` of a history that no `POPS` matches, in the order of execution. -/
def unmatched : List Value :=
  unmatchedBefore p h h.length

/-- Some `PUSHS` and after them as many `POPS`, where all other `PUSHS` and `POPS` in between are matched by each other. -/
structure Bracketed (is js : List Nat) : Prop where
  pushes : ∀ i ∈ is, (pushAt p h i).isSome
  pops : ∀ j ∈ js, (popAt p h j).isSome
  length : is.length = js.length
  pushes_sorted : is.Pairwise (· < ·)
  pops_sorted : js.Pairwise (· < ·)
  before : ∀ i ∈ is, ∀ j ∈ js, i < j
  other_pushes : ∀ k, (∃ i ∈ is, i ≤ k) → (∃ j ∈ js, k ≤ j) → k ∉ is → (pushAt p h k).isSome →
    ∃ j, j ∉ js ∧ Matches p h k j
  other_pops : ∀ k, (∃ i ∈ is, i ≤ k) → (∃ j ∈ js, k ≤ j) → k ∉ js → (popAt p h k).isSome →
    ∃ i, i ∉ is ∧ Matches p h i k

end History

namespace Recorded

variable {p : Program} {h : List (Machine σ)} {m : Machine σ}

/-! ### Matching -/

theorem matches_iff (hm : Recorded p h m) {i j : Nat} :
    Matches p h i j ↔ i < j ∧ (pushAt p h i).isSome ∧ (popAt p h j).isSome ∧
      (stackAt h m j).length = (stackAt h m i).length + 1 ∧
      ∀ k, i < k → k ≤ j → (stackAt h m i).length < (stackAt h m k).length := by
  constructor
  · intro hmatch
    have hj := lt_of_popAt hmatch.pop
    have hij := hmatch.lt
    have hheight := hmatch.height
    rw [heightAt_eq m hj, heightAt_eq m (by omega)] at hheight
    refine ⟨hij, hmatch.push, hmatch.pop, by omega, ?_⟩
    intro k hik hk
    by_contra hlow
    -- from there the stack would have to rise again, by a later push to the same height
    obtain ⟨k', x, hkk', hk'j, hpush, hk', _⟩ :=
      hm.exists_last_rise hk (by omega) (Nat.le_of_not_lt hlow) (by omega)
    have hlast := hmatch.last k' hk'j (by omega) (by rw [hpush]; rfl)
    rw [heightAt_eq m hj, heightAt_eq m (by omega)] at hlast
    omega
  · rintro ⟨hij, hpush, hpop, hheight, habove⟩
    have hj := lt_of_popAt hpop
    refine ⟨hij, hpush, hpop, ?_, ?_⟩
    · rw [heightAt_eq m hj, heightAt_eq m (by omega)]
      omega
    · intro k hk hik _
      have := habove k hik (by omega)
      rw [heightAt_eq m hj, heightAt_eq m (by omega)]
      omega

private theorem stack_after_pop (hm : Recorded p h m) {j : Nat} (hpop : (popAt p h j).isSome) :
    ∃ x, stackAt h m j = x :: stackAt h m (j + 1) ∧ storedAt p h j = some x := by
  rcases hm.moves (lt_of_popAt hpop) with ⟨_, _, hnone, _⟩ | ⟨_, x, _, _, hstack, hstored⟩ | ⟨_, hnone, _⟩
  · rw [hnone] at hpop
    cases hpop
  · exact ⟨x, hstack, hstored⟩
  · rw [hnone] at hpop
    cases hpop

private theorem length_after_pop (hm : Recorded p h m) {j : Nat} (hpop : (popAt p h j).isSome) :
    (stackAt h m j).length = (stackAt h m (j + 1)).length + 1 := by
  obtain ⟨x, hstack, _⟩ := hm.stack_after_pop hpop
  rw [hstack, List.length_cons]

private theorem exists_matches (hm : Recorded p h m) {j : Nat} (hpop : (popAt p h j).isSome) :
    ∃ i, Matches p h i j := by
  have hj := lt_of_popAt hpop
  have hlength := hm.length_after_pop hpop
  have hempty : (stackAt h m 0).length ≤ (stackAt h m (j + 1)).length := by
    rw [hm.first]
    exact Nat.zero_le _
  obtain ⟨i, x, _, hij, hpush, hheight, habove⟩ :=
    hm.exists_last_rise (Nat.zero_le j) (by omega) hempty (by omega)
  refine ⟨i, hm.matches_iff.2 ⟨hij, by rw [hpush]; rfl, hpop, by omega, ?_⟩⟩
  rw [hheight]
  exact habove

/-- A `POPS` stores the value of the `PUSHS` that matches it. -/
private theorem stored_of_matches (hm : Recorded p h m) {i j : Nat} (hmatch : Matches p h i j) :
    storedAt p h j = pushAt p h i := by
  obtain ⟨hij, hpush, hpop, hheight, habove⟩ := hm.matches_iff.1 hmatch
  obtain ⟨x, hx⟩ := Option.isSome_iff_exists.1 hpush
  obtain ⟨y, hstack, hstored⟩ := hm.stack_after_pop hpop
  have hpushed := hm.stack_of_above hx hij (Nat.le_of_lt (lt_of_popAt hpop)) habove hheight
  rw [hstored, hx, (List.cons.inj (hstack.symm.trans hpushed)).1]

private theorem pop_unique (hm : Recorded p h m) {i j j' : Nat} (hj : Matches p h i j) (hj' : Matches p h i j') :
    j = j' := by
  obtain ⟨hij, _, hpop, hheight, habove⟩ := hm.matches_iff.1 hj
  obtain ⟨hij', _, hpop', hheight', habove'⟩ := hm.matches_iff.1 hj'
  -- behind the earlier pop the stack is as low as before the push
  have hafter := hm.length_after_pop hpop
  have hafter' := hm.length_after_pop hpop'
  rcases Nat.lt_trichotomy j j' with hlt | heq | hlt
  · have := habove' (j + 1) (by omega) (by omega)
    omega
  · exact heq
  · have := habove (j' + 1) (by omega) (by omega)
    omega

private theorem push_unique (hm : Recorded p h m) {i i' j : Nat} (hi : Matches p h i j) (hi' : Matches p h i' j) :
    i = i' := by
  obtain ⟨hij, _, _, hheight, habove⟩ := hm.matches_iff.1 hi
  obtain ⟨hij', _, _, hheight', habove'⟩ := hm.matches_iff.1 hi'
  rcases Nat.lt_trichotomy i i' with hlt | heq | hlt
  · have := habove i' hlt (by omega)
    omega
  · exact heq
  · have := habove' i hlt (by omega)
    omega

/-- A `PUSHS` is matched exactly if the stack has fallen to its height before the `PUSHS` again. -/
theorem exists_matches_iff (hm : Recorded p h m) {i t : Nat} (hpush : (pushAt p h i).isSome) (ht : t ≤ h.length) :
    (∃ j < t, Matches p h i j) ↔ ∃ k, i < k ∧ k ≤ t ∧ (stackAt h m k).length ≤ (stackAt h m i).length := by
  constructor
  · rintro ⟨j, hj, hmatch⟩
    obtain ⟨hij, _, hpop, hheight, _⟩ := hm.matches_iff.1 hmatch
    have hafter := hm.length_after_pop hpop
    exact ⟨j + 1, by omega, by omega, by omega⟩
  · rintro ⟨k, hik, hk, hlow⟩
    have hraised : (stackAt h m (i + 1)).length = (stackAt h m i).length + 1 := by
      obtain ⟨x, hx⟩ := Option.isSome_iff_exists.1 hpush
      rcases hm.moves (k := i) (by omega) with ⟨_, _, _, hstack⟩ | ⟨_, _, hnone, _⟩ | ⟨hnone, _⟩
      · rw [hstack, List.length_cons]
      · rw [hnone] at hx
        cases hx
      · rw [hnone] at hx
        cases hx
    obtain ⟨j, hij, hjk, hpop, hheight, habove⟩ :=
      hm.exists_first_fall (i := i + 1) hik (by omega) (by omega) hlow
    exact ⟨j, by omega, hm.matches_iff.2 ⟨by omega, hpush, hpop, hheight, habove⟩⟩

/-- A `PUSHS` between a `PUSHS` and the `POPS` that matches it is matched before that `POPS`. -/
private theorem exists_matches_between (hm : Recorded p h m) {i j k : Nat} (hmatch : Matches p h i j) (hik : i < k)
    (hkj : k < j) (hpush : (pushAt p h k).isSome) : ∃ j' < j, Matches p h k j' := by
  obtain ⟨_, _, hpop, hheight, habove⟩ := hm.matches_iff.1 hmatch
  have hk := habove k hik (by omega)
  have hj := lt_of_popAt hpop
  exact (hm.exists_matches_iff hpush (by omega)).2 ⟨j, hkj, Nat.le_refl _, by omega⟩

/-! ### What is on the stack -/

private theorem unmatchedAt_eq_none (hm : Recorded p h m) {i k t : Nat} (ht : t ≤ h.length) (hik : i < k) (hk : k ≤ t)
    (hlow : (stackAt h m k).length ≤ (stackAt h m i).length) : unmatchedAt p h t i = none := by
  unfold unmatchedAt
  cases hpush : pushAt p h i with
  | none => exact ite_self none
  | some x => exact if_pos ((hm.exists_matches_iff (by rw [hpush]; rfl) ht).2 ⟨k, hik, hk, hlow⟩)

private theorem unmatchedAt_of_above (hm : Recorded p h m) {i t : Nat} (ht : t ≤ h.length)
    (habove : ∀ k, i < k → k ≤ t → (stackAt h m i).length < (stackAt h m k).length) :
    unmatchedAt p h t i = pushAt p h i := by
  unfold unmatchedAt
  cases hpush : pushAt p h i with
  | none => exact ite_self none
  | some x =>
    apply if_neg
    rw [hm.exists_matches_iff (by rw [hpush]; rfl) ht]
    rintro ⟨k, hik, hk, hlow⟩
    have := habove k hik hk
    omega

/-- While the stack is higher than before a step, that step's unmatched predecessors remain so. -/
private theorem unmatchedAt_eq_of_above (hm : Recorded p h m) {i i' t : Nat} (hit : i ≤ t) (ht : t ≤ h.length)
    (hi' : i' < i) (habove : ∀ k, i < k → k ≤ t → (stackAt h m i).length < (stackAt h m k).length) :
    unmatchedAt p h t i' = unmatchedAt p h i i' := by
  by_cases hlow : ∃ k, i' < k ∧ k ≤ i ∧ (stackAt h m k).length ≤ (stackAt h m i').length
  · obtain ⟨k, hk, hki, hlow⟩ := hlow
    rw [hm.unmatchedAt_eq_none ht hk (by omega) hlow, hm.unmatchedAt_eq_none (by omega) hk hki hlow]
  · have hhigh : ∀ k, i' < k → k ≤ i → (stackAt h m i').length < (stackAt h m k).length := by
      intro k hk hki
      by_contra hle
      exact hlow ⟨k, hk, hki, by omega⟩
    have hi := hhigh i hi' (Nat.le_refl _)
    have hhigher : ∀ k, i' < k → k ≤ t → (stackAt h m i').length < (stackAt h m k).length := by
      intro k hk hkt
      by_cases hki : k ≤ i
      · exact hhigh k hk hki
      · have := habove k (by omega) hkt
        omega
    rw [hm.unmatchedAt_of_above ht hhigher, hm.unmatchedAt_of_above (by omega) hhigh]

/-- If a `PUSHS` was the last one to raise the stack to its height, its value is the last one that is unmatched. -/
private theorem unmatchedBefore_of_above (hm : Recorded p h m) {i t : Nat} {x : Value} (hpush : pushAt p h i = some x)
    (hit : i < t) (ht : t ≤ h.length) (hheight : (stackAt h m t).length = (stackAt h m i).length + 1)
    (habove : ∀ k, i < k → k ≤ t → (stackAt h m i).length < (stackAt h m k).length) :
    unmatchedBefore p h t = unmatchedBefore p h i ++ [x] := by
  obtain ⟨r, rfl⟩ : ∃ r, t = i + 1 + r := ⟨t - (i + 1), by omega⟩
  have hbefore : (List.range i).filterMap (unmatchedAt p h (i + 1 + r)) = unmatchedBefore p h i := by
    apply List.filterMap_congr
    intro i' hi'
    exact hm.unmatchedAt_eq_of_above (by omega) ht (List.mem_range.1 hi') habove
  have hat : [i].filterMap (unmatchedAt p h (i + 1 + r)) = [x] := by
    simp [hm.unmatchedAt_of_above ht habove, hpush]
  have hafter : ((List.range r).map (i + 1 + ·)).filterMap (unmatchedAt p h (i + 1 + r)) = [] := by
    apply List.filterMap_eq_nil_iff.2
    intro i' hi'
    obtain ⟨k, hk, rfl⟩ := List.mem_map.1 hi'
    have hk : k < r := List.mem_range.1 hk
    have hhigher := habove (i + 1 + k) (by omega) (by omega)
    exact hm.unmatchedAt_eq_none ht (k := i + 1 + r) (by omega) (Nat.le_refl _) (by omega)
  rw [unmatchedBefore, List.range_add, List.range_succ, List.filterMap_append, List.filterMap_append, hbefore, hat,
    hafter, List.append_nil]

/-- The stack, bottom first, holds the values of the unmatched `PUSHS`. -/
private theorem reverse_stackAt (hm : Recorded p h m) {t : Nat} (ht : t ≤ h.length) :
    (stackAt h m t).reverse = unmatchedBefore p h t := by
  induction t using Nat.strongRecOn with
  | ind t ih =>
    cases hstack : stackAt h m t with
    | nil =>
      symm
      apply List.filterMap_eq_nil_iff.2
      intro i hi
      exact hm.unmatchedAt_eq_none ht (List.mem_range.1 hi) (Nat.le_refl _) (by simp [hstack])
    | cons y rest =>
      -- all but the top was there before the last push that raised the stack to its height
      have hlength : (stackAt h m t).length = rest.length + 1 := by rw [hstack, List.length_cons]
      have hempty : (stackAt h m 0).length ≤ rest.length := by simp [hm.first]
      obtain ⟨i, x, _, hit, hpush, hheight, habove⟩ :=
        hm.exists_last_rise (Nat.zero_le t) ht hempty (by omega)
      rw [← hheight] at habove hlength
      rw [← hstack, hm.stack_of_above hpush hit ht habove hlength, List.reverse_cons, ih i hit (by omega),
        hm.unmatchedBefore_of_above hpush hit ht hlength habove]

private theorem reverse_data (hm : Recorded p h m) : m.data.reverse = unmatched p h := by
  have hlast : stackAt h m h.length = m.data := by simp [stackAt]
  rw [← hlast, unmatched, hm.reverse_stackAt (Nat.le_refl _)]

/-! ### Last in, first out -/

/-- The last one of some `PUSHS` and the first one of the `POPS` after them match, and they can be left out. -/
private theorem matches_of_bracketed (hm : Recorded p h m) {is js : List Nat} {i j : Nat}
    (hb : Bracketed p h (is ++ [i]) (j :: js)) : Matches p h i j := by
  have hmem : i ∈ is ++ [i] := by simp
  have hij := hb.before i hmem j (by simp)
  obtain ⟨i', hmatch⟩ := hm.exists_matches (hb.pops j (by simp))
  rcases Nat.lt_trichotomy i' i with hlt | rfl | hlt
  · -- `i` would be matched before `j`, by a pop that belongs to another push
    obtain ⟨j', hj', hinner⟩ := hm.exists_matches_between hmatch hlt hij (hb.pushes i hmem)
    have hnotin : j' ∉ j :: js := by
      intro hmem'
      rcases List.mem_cons.1 hmem' with rfl | hlater
      · omega
      · have := (List.pairwise_cons.1 hb.pops_sorted).1 j' hlater
        omega
    obtain ⟨i₀, hi₀, hother⟩ := hb.other_pops j' ⟨i, hmem, Nat.le_of_lt hinner.lt⟩ ⟨j, by simp, by omega⟩ hnotin hinner.pop
    rw [hm.push_unique hother hinner] at hi₀
    exact absurd hmem hi₀
  · exact hmatch
  · -- the push matched by `j` would be another one
    have hnotin : i' ∉ is ++ [i] := by
      intro hmem'
      rcases List.mem_append.1 hmem' with hearlier | hlast
      · have := (List.pairwise_append.1 hb.pushes_sorted).2.2 i' hearlier i (by simp)
        omega
      · rw [List.mem_singleton.1 hlast] at hlt
        omega
    obtain ⟨j₀, hj₀, hother⟩ :=
      hb.other_pushes i' ⟨i, hmem, by omega⟩ ⟨j, by simp, Nat.le_of_lt hmatch.lt⟩ hnotin hmatch.push
    rw [hm.pop_unique hother hmatch] at hj₀
    simp at hj₀

private theorem bracketed_tail (hm : Recorded p h m) {is js : List Nat} {i j : Nat}
    (hb : Bracketed p h (is ++ [i]) (j :: js)) : Bracketed p h is js := by
  have hmatch := hm.matches_of_bracketed hb
  have hsorted := List.pairwise_append.1 hb.pushes_sorted
  have hsorted' := List.pairwise_cons.1 hb.pops_sorted
  have hi : i ∉ is := fun hmem => Nat.lt_irrefl i (hsorted.2.2 i hmem i (by simp))
  have hj : j ∉ js := fun hmem => Nat.lt_irrefl j (hsorted'.1 j hmem)
  refine ⟨fun k hk => hb.pushes k (by simp [hk]), fun k hk => hb.pops k (by simp [hk]), by simpa using hb.length,
    hsorted.1, hsorted'.2, fun k hk k' hk' => hb.before k (by simp [hk]) k' (by simp [hk']), ?_, ?_⟩
  · rintro k ⟨i₀, hi₀, hle⟩ ⟨j₀, hj₀, hle'⟩ hk hpush
    by_cases heq : k = i
    · rw [heq]
      exact ⟨j, hj, hmatch⟩
    · obtain ⟨j', hj', hother⟩ :=
        hb.other_pushes k ⟨i₀, by simp [hi₀], hle⟩ ⟨j₀, by simp [hj₀], hle'⟩ (by simp [hk, heq]) hpush
      exact ⟨j', fun hmem => hj' (by simp [hmem]), hother⟩
  · rintro k ⟨i₀, hi₀, hle⟩ ⟨j₀, hj₀, hle'⟩ hk hpop
    by_cases heq : k = j
    · rw [heq]
      exact ⟨i, hi, hmatch⟩
    · obtain ⟨i', hi', hother⟩ :=
        hb.other_pops k ⟨i₀, by simp [hi₀], hle⟩ ⟨j₀, by simp [hj₀], hle'⟩ (by simp [hk, heq]) hpop
      exact ⟨i', fun hmem => hi' (by simp [hmem]), hother⟩

private theorem stored_of_bracketed (hm : Recorded p h m) {is js : List Nat} (hb : Bracketed p h is js) :
    js.map (storedAt p h) = (is.map (pushAt p h)).reverse := by
  induction js generalizing is with
  | nil =>
    obtain rfl := List.length_eq_zero_iff.1 hb.length
    rfl
  | cons j js ih =>
    rcases List.eq_nil_or_concat is with rfl | ⟨is, i, rfl⟩
    · cases hb.length
    · rw [List.concat_eq_append] at hb ⊢
      rw [List.map_cons, List.map_append, List.reverse_append, ih (hm.bracketed_tail hb),
        hm.stored_of_matches (hm.matches_of_bracketed hb)]
      rfl

end Recorded

/-- A `POPS` into a declared variable fails exactly at an empty stack. -/
private theorem pops_fails_iff {p : Program} {m : Machine σ} {v : Variable} (hi : p[m.pc]? = some ⟨.pops, [.var v]⟩)
    (hv : m.memory.HasVariable v) : (∃ e m', m.step p = .failed e m') ↔ m.data = [] := by
  cases hdata : m.data with
  | nil =>
    obtain ⟨memory, hassign⟩ := Memory.exists_assign hv .nil
    obtain ⟨x?, hcontent⟩ := Memory.content_of_assign hassign
    have hdata : m.enter.data = [] := hdata
    have hpop : m.enter.popInto v = .error .emptyDataStack := by
      refine bind_eq_error.2 (Or.inr ⟨x?, hcontent, ?_⟩)
      rw [hdata]
    have hexec : m.enter.execute (.pops v) = .fail .emptyDataStack m.enter := attempt_eq_fail.2 ⟨hpop, rfl⟩
    simp only [iff_true]
    rw [step_of_action (a := .pops v) hi, hexec]
    exact ⟨_, _, rfl⟩
  | cons x rest =>
    obtain ⟨memory, hassign⟩ := Memory.exists_assign hv x
    have hstep := step_eq_running_iff.2 ⟨.pops v, hi, .pops hdata hassign⟩
    simp [hstep]

/-- Over any executions of a program on a machine that has not run before, however far each of them comes: every `POPS`
that succeeds has a `PUSHS` matching it and stores the value pushed there. No `PUSHS` is matched by two `POPS`. The data
stack, bottom first, holds the values of the `PUSHS` unmatched so far in the order of execution, so that a `POPS` into a
declared variable fails exactly if no `PUSHS` is unmatched. Values pushed one after another are popped in the opposite
order, whatever is pushed and popped in between. -/
theorem data_stack_matched (p : Program) (input : σ) (output diagnostics : Sink) (ns : List Nat) :
    let h := (fresh input output diagnostics).history p ns
    let m := (fresh input output diagnostics).executions p ns
    (∀ j, (popAt p h j).isSome → ∃ i x, Matches p h i j ∧ pushAt p h i = some x ∧ storedAt p h j = some x) ∧
    (∀ i j j', Matches p h i j → Matches p h i j' → j = j') ∧
    m.data.reverse = unmatched p h ∧
    (∀ v, p[m.pc]? = some ⟨.pops, [.var v]⟩ → m.memory.HasVariable v →
      ((∃ e m', m.step p = .failed e m') ↔ unmatched p h = [])) ∧
    ∀ is js, Bracketed p h is js → js.map (storedAt p h) = (is.map (pushAt p h)).reverse := by
  intro h m
  have hm : Recorded p h m := recorded_history p input output diagnostics ns
  refine ⟨?_, fun i j j' => hm.pop_unique, hm.reverse_data, ?_, fun is js => hm.stored_of_bracketed⟩
  · intro j hpop
    obtain ⟨i, hmatch⟩ := hm.exists_matches hpop
    obtain ⟨x, hx⟩ := Option.isSome_iff_exists.1 hmatch.push
    exact ⟨i, x, hmatch, hx, by rw [hm.stored_of_matches hmatch, hx]⟩
  · intro v hi hv
    rw [pops_fails_iff hi hv, ← hm.reverse_data, List.reverse_eq_nil_iff]

/-- An execution that pushes three values and pops the second one of them, and another one that is told by its input to
pop: it takes the two that are left, and then it fails. -/
theorem data_stack_matched_across :
    let x : Operand := .var ⟨.temporary, "x"⟩
    let p : Program := #[⟨.createFrame, []⟩, ⟨.defVar, [x]⟩, ⟨.read, [x, .type .string]⟩,
      ⟨.jumpIf true, [.label "pop", x, .const (.string "pop")]⟩, ⟨.pushs, [.const (.int 1)]⟩,
      ⟨.pushs, [.const (.int 2)]⟩, ⟨.pops, [x]⟩, ⟨.pushs, [.const (.int 3)]⟩, ⟨.exit, [.const (.int 0)]⟩,
      ⟨.label, [.label "pop"]⟩, ⟨.pops, [x]⟩, ⟨.pops, [x]⟩, ⟨.pops, [x]⟩]
    let start := fresh (Source.lines ["", "pop"]) {} {}
    let h := start.history p [9, 7]
    (∃ i x, Matches p h i 14 ∧ pushAt p h i = some x ∧ storedAt p h 14 = some x) ∧
      (start.executions p [9, 6]).data.reverse = [.int 1] ∧
      (∃ e m', (start.executions p [9, 7]).step p = .failed e m') ∧
      [4, 7].map (pushAt p h) = [some (.int 1), some (.int 3)] ∧
      [14, 15].map (storedAt p h) = ([4, 7].map (pushAt p h)).reverse := by
  intro x p start h
  obtain ⟨hpops, _, _, hfails, hlifo⟩ := data_stack_matched p (Source.lines ["", "pop"]) {} {} [9, 7]
  obtain ⟨_, _, hstack, _⟩ := data_stack_matched p (Source.lines ["", "pop"]) {} {} [9, 6]
  have hempty : unmatched p h = [] := by decide
  have hbefore : unmatched p (start.history p [9, 6]) = [.int 1] := by decide
  have hpushes : ∀ k < 16, k ∉ [4, 7] → (pushAt p h k).isSome → k = 5 := by decide
  have hpopped : ∀ k < 16, k ∉ [14, 15] → (popAt p h k).isSome → k = 6 := by decide
  have hmatch : Matches p h 5 6 := by decide
  have hbracketed : Bracketed p h [4, 7] [14, 15] := by
    refine ⟨by decide, by decide, rfl, by decide, by decide, by decide, ?_, ?_⟩
    · rintro k _ ⟨j, hj, hkj⟩ hk hpush
      have hlt : j < 16 := (by decide : ∀ j ∈ [14, 15], j < 16) j hj
      obtain rfl := hpushes k (by omega) hk hpush
      exact ⟨6, by decide, hmatch⟩
    · rintro k _ ⟨j, hj, hkj⟩ hk hpop
      have hlt : j < 16 := (by decide : ∀ j ∈ [14, 15], j < 16) j hj
      obtain rfl := hpopped k (by omega) hk hpop
      exact ⟨5, by decide, hmatch⟩
  exact ⟨hpops 14 (by decide), hstack.trans hbefore, (hfails ⟨.temporary, "x"⟩ rfl ⟨_, rfl, by decide⟩).2 hempty,
    by decide, hlifo _ _ hbracketed⟩

end IPPcode23.Machine
