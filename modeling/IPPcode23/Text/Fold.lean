/-!
# Comparison without regard to ASCII case

Opcodes, the header and the language name are the same word in upper and lower case. Only the letters `A` to `Z`
have two cases here; every other character equals itself alone.
-/

namespace IPPcode23.Text

/-- A text with the letters `A` to `Z` in lower case. -/
def fold (s : String) : List Char :=
  s.toList.map Char.toLower

/-- Two texts that differ at most in the case of ASCII letters. -/
def equalFold (s t : String) : Bool :=
  fold s == fold t

theorem equalFold_iff {s t : String} : equalFold s t = true ↔ fold s = fold t := by
  simp [equalFold]

end IPPcode23.Text
