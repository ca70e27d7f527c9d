/-!
# Lines

A line ends at a line feed, and a carriage return right before that line feed belongs to the ending. What follows the
last line feed is a line of its own unless it is empty, and it keeps a final carriage return. The functions are
stated for sequences of any symbols, so that they serve characters and bytes alike.
-/

namespace IPPcode23.Text

variable {α : Type} [DecidableEq α]

/-- The first line and what follows its ending, or nothing when no symbol is left. -/
def takeLine? (lf cr : α) : List α → Option (List α × List α)
  | [] => none
  | x :: xs =>
    if x = lf then some ([], xs)
    else if x = cr ∧ xs.head? = some lf then some ([], xs.tail)
    else
      match takeLine? lf cr xs with
      | none => some ([x], [])
      | some (line, rest) => some (x :: line, rest)

/-- Puts a symbol in front of the first line. -/
def consFirst (x : α) : List (List α) → List (List α)
  | [] => [[x]]
  | line :: rest => (x :: line) :: rest

/-- All lines of a sequence, in order. -/
def splitLines (lf cr : α) : List α → List (List α)
  | [] => []
  | x :: xs =>
    if x = lf then [] :: splitLines lf cr xs
    else if x = cr ∧ xs.head? = some lf then splitLines lf cr xs
    else consFirst x (splitLines lf cr xs)

/-- Reading line by line gives the lines of the whole. -/
theorem splitLines_eq_takeLine? (lf cr : α) (xs : List α) :
    splitLines lf cr xs =
      match takeLine? lf cr xs with
      | none => []
      | some (line, rest) => line :: splitLines lf cr rest := by
  induction xs with
  | nil => rfl
  | cons x xs ih =>
    rw [splitLines, takeLine?]
    by_cases hx : x = lf
    · simp [hx]
    · by_cases hc : x = cr ∧ xs.head? = some lf
      · obtain ⟨y, ys, rfl⟩ : ∃ y ys, xs = y :: ys := by
          cases xs with
          | nil => simp at hc
          | cons y ys => exact ⟨y, ys, rfl⟩
        have hy : y = lf := by simpa using hc.2
        rw [if_neg hx, if_neg hx, if_pos hc, if_pos hc, splitLines, if_pos hy]
        rfl
      · simp only [if_neg hx, if_neg hc, ih]
        cases takeLine? lf cr xs <;> rfl

/-- The lines of a text. -/
def lines (s : String) : List String :=
  (splitLines '\n' '\r' s.toList).map String.ofList

end IPPcode23.Text
