import IPPcode23.Text.Fold

/-!
# Texts that differ in ASCII case

Only letters have another case (`toLower_eq_iff`), so two texts that are equal up to case hold the same characters of any
other kind.
-/

namespace IPPcode23.Text

/-- A character that is no letter is the lower case of itself alone. -/
theorem toLower_eq_iff {c e : Char} (he : e.isAlpha = false) : c.toLower = e ↔ c = e := by
  unfold Char.toLower
  split
  case isFalse => rfl
  case isTrue hrange =>
    -- neither an upper case letter nor its lower case can be `e`
    change (decide _ || _ && _) = false at he
    simp only [ge_iff_le, UInt32.le_iff_toNat_le, Char.reduceVal, UInt32.reduceToNat, Bool.or_eq_false_iff,
      Bool.and_eq_false_iff, decide_eq_false_iff_not] at he hrange
    refine iff_of_false ?_ ?_
    · rintro rfl
      simp only [UInt32.toNat_add, Char.reduceVal, UInt32.reduceSub, UInt32.reduceToNat] at he
      omega
    · rintro rfl
      omega

variable {w w' : String} {e : Char}

theorem mem_iff_of_equalFold (h : equalFold w w' = true) (he : e.isAlpha = false) :
    e ∈ w.toList ↔ e ∈ w'.toList := by
  have hfold : ∀ s : String, e ∈ fold s ↔ e ∈ s.toList := by
    intro s
    simp [fold, toLower_eq_iff he]
  rw [← hfold, ← hfold, equalFold_iff.1 h]

theorem head?_iff_of_equalFold (h : equalFold w w' = true) (he : e.isAlpha = false) :
    w.toList.head? = some e ↔ w'.toList.head? = some e := by
  have hfold : ∀ s : String, (fold s).head? = some e ↔ s.toList.head? = some e := by
    intro s
    simp [fold, List.head?_map, toLower_eq_iff he]
  rw [← hfold, ← hfold, equalFold_iff.1 h]

end IPPcode23.Text
