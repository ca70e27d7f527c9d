import IPPcode23.Text.Line
import Mathlib.Tactic.Common

/-!
# Lines put together and cut apart

Lines that hold no line feed and do not end in a carriage return, each followed by a line feed, are the lines of what
they make up (`splitLines_flatMap`). Any sequence begins with a line that has one of the two endings, or it is a single
line without one (`line_cases`).
-/

namespace IPPcode23.Text

variable {α : Type} [DecidableEq α] {lf cr : α}

theorem splitLines_append_lf {line : List α} (hlf : lf ∉ line) (hcr : line.getLast? ≠ some cr) (rest : List α) :
    splitLines lf cr (line ++ lf :: rest) = line :: splitLines lf cr rest := by
  induction line with
  | nil => rw [List.nil_append, splitLines, if_pos rfl]
  | cons x line ih =>
    simp only [List.mem_cons, not_or] at hlf
    have hx : x ≠ lf := Ne.symm hlf.1
    -- a carriage return is dropped only right before the line feed, that is, at the end of the line
    have hend : ¬ (x = cr ∧ (line ++ lf :: rest).head? = some lf) := by
      rintro ⟨rfl, hhead⟩
      cases line with
      | nil => exact hcr rfl
      | cons y line => exact hlf.2 (by simpa using Or.inl hhead.symm)
    have hlast : line.getLast? ≠ some cr := by
      intro h
      apply hcr
      rw [List.getLast?_cons, h]
      rfl
    rw [List.cons_append, splitLines, if_neg hx, if_neg hend, ih hlf.2 hlast]
    rfl

theorem splitLines_flatMap {lines : List (List α)} (hlf : ∀ line ∈ lines, lf ∉ line)
    (hcr : ∀ line ∈ lines, line.getLast? ≠ some cr) :
    splitLines lf cr (lines.flatMap fun line => line ++ [lf]) = lines := by
  induction lines with
  | nil => rfl
  | cons line lines ih =>
    have hrest := ih (fun l hl => hlf l (List.mem_cons_of_mem line hl))
      (fun l hl => hcr l (List.mem_cons_of_mem line hl))
    rw [List.flatMap_cons, List.append_assoc, List.singleton_append,
      splitLines_append_lf (hlf line List.mem_cons_self) (hcr line List.mem_cons_self), hrest]

theorem splitLines_append_cr_lf (hne : cr ≠ lf) {line : List α} (hlf : lf ∉ line) (rest : List α) :
    splitLines lf cr (line ++ cr :: lf :: rest) = line :: splitLines lf cr rest := by
  induction line with
  | nil => simp [splitLines, hne]
  | cons x line ih =>
    simp only [List.mem_cons, not_or] at hlf
    have hx : x ≠ lf := Ne.symm hlf.1
    -- what follows `x` is not the line feed yet
    have hend : ¬ (x = cr ∧ (line ++ cr :: lf :: rest).head? = some lf) := by
      rintro ⟨_, hhead⟩
      cases line with
      | nil => exact hne (by simpa using hhead)
      | cons y line => exact hlf.2 (by simpa using Or.inl hhead.symm)
    rw [List.cons_append, splitLines, if_neg hx, if_neg hend, ih hlf.2]
    rfl

theorem splitLines_of_not_mem {line : List α} (hne : line ≠ []) (hlf : lf ∉ line) : splitLines lf cr line = [line] := by
  induction line with
  | nil => exact absurd rfl hne
  | cons x line ih =>
    simp only [List.mem_cons, not_or] at hlf
    have hx : x ≠ lf := Ne.symm hlf.1
    have hend : ¬ (x = cr ∧ line.head? = some lf) := by
      rintro ⟨_, hhead⟩
      exact hlf.2 (List.mem_of_head? hhead)
    rw [splitLines, if_neg hx, if_neg hend]
    cases line with
    | nil => rfl
    | cons y line =>
      rw [ih (by simp) hlf.2]
      rfl

/-- How a sequence begins: it is empty, it is a line without an ending, or it begins with a line that has one. -/
theorem line_cases (lf cr : α) (xs : List α) :
    xs = [] ∨ (xs ≠ [] ∧ lf ∉ xs) ∨
      (∃ line rest, lf ∉ line ∧ line.getLast? ≠ some cr ∧ xs = line ++ lf :: rest) ∨
      ∃ line rest, lf ∉ line ∧ xs = line ++ cr :: lf :: rest := by
  by_cases hlf : lf ∈ xs
  · obtain ⟨line, rest, rfl, hline⟩ := List.eq_append_cons_of_mem hlf
    right; right
    by_cases hcr : line.getLast? = some cr
    · obtain ⟨line, rfl⟩ := List.getLast?_eq_some_iff.1 hcr
      refine Or.inr ⟨line, rest, fun h => hline (List.mem_append_left _ h), by simp⟩
    · exact Or.inl ⟨line, rest, hline, hcr, rfl⟩
  · by_cases hne : xs = []
    · exact Or.inl hne
    · exact Or.inr (Or.inl ⟨hne, hlf⟩)

end IPPcode23.Text
