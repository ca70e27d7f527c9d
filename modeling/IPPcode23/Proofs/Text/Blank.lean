import IPPcode23.Text.Blank
import IPPcode23.Proofs.Literal.Escape
import Mathlib.Data.List.DropRight

/-!
# White space around literals

Of the white space in a string, the part in ASCII is escaped in its literal and the rest stands as it is. So the literal
of a string without its white space is the literal of the string without the wide white space at its ends
(`trim_encodeString`), and it loses nothing exactly if there is none.
-/

namespace IPPcode23.Text

/-! ### Both ends of a list -/

/-- A list without the elements at both ends that have a property. -/
def strip {α : Type} (p : α → Bool) (xs : List α) : List α :=
  (xs.dropWhile p).rdropWhile p

private theorem strip_eq_self_iff {α : Type} {p : α → Bool} {xs : List α} :
    strip p xs = xs ↔ ∀ x, xs.head? = some x ∨ xs.getLast? = some x → p x = false := by
  have hsuffix : xs.dropWhile p <:+ xs := List.dropWhile_suffix p
  have hprefix : strip p xs <+: xs.dropWhile p := List.rdropWhile_prefix p _
  have hboth : strip p xs = xs ↔ xs.dropWhile p = xs ∧ xs.rdropWhile p = xs := by
    constructor
    · intro h
      have hle := hprefix.length_le
      rw [h] at hle
      have hfirst := hsuffix.eq_of_length (Nat.le_antisymm hsuffix.length_le hle)
      rw [strip, hfirst] at h
      exact ⟨hfirst, h⟩
    · rintro ⟨hfirst, hlast⟩
      rw [strip, hfirst, hlast]
  rw [hboth, List.dropWhile_eq_self_iff, List.rdropWhile_eq_self_iff]
  cases xs with
  | nil => simp
  | cons x xs => simp [List.getLast?_eq_some_getLast, or_imp, forall_and]

private theorem trimChars_eq_strip (cs : List Char) : trimChars cs = strip isBlank cs :=
  rfl

/-! ### White space outside ASCII -/

/-- White space outside ASCII. -/
def isWide (c : Char) : Bool :=
  isBlank c && decide (0x80 ≤ c.toNat)

private theorem isBlank_eq_isWide {c : Char} (h : 0x20 < c.toNat) : isBlank c = isWide c := by
  rw [Bool.eq_iff_iff]
  simp only [isWide, isBlank, Bool.or_eq_true, Bool.and_eq_true, decide_eq_true_eq, beq_iff_eq]
  omega

private theorem isWide_of_toNat {c : Char} (h : c.toNat < 0x80) : isWide c = false := by
  have hle : ¬ 0x80 ≤ c.toNat := Nat.not_le.2 h
  rw [isWide, decide_eq_false hle, Bool.and_false]

/-- The characters of ASCII that are neither white space nor control characters. -/
def isPrintable (c : Char) : Bool :=
  0x20 < c.toNat && c.toNat < 0x7F

theorem isPrintable_of_isAlphanum {c : Char} (h : c.isAlphanum = true) : isPrintable c = true := by
  change ((decide (c.val ≥ 'A'.val ∧ c.val ≤ 'Z'.val) || (c.val ≥ 'a'.val && c.val ≤ 'z'.val)) ||
    (c.val ≥ '0'.val && c.val ≤ '9'.val)) = true at h
  simp only [ge_iff_le, Bool.or_eq_true, Bool.and_eq_true, decide_eq_true_eq, UInt32.le_iff_toNat_le, Char.toNat_val,
    Char.reduceToNat] at h
  simp only [isPrintable, Bool.and_eq_true, decide_eq_true_eq]
  omega

private theorem isBlank_of_isPrintable {c : Char} (h : isPrintable c = true) : isBlank c = false := by
  simp only [isPrintable, Bool.and_eq_true, decide_eq_true_eq] at h
  rw [isBlank_eq_isWide h.1, isWide_of_toNat (by omega)]

theorem trimChars_of_printable {cs : List Char} (h : cs.all isPrintable = true) : trimChars cs = cs := by
  rw [trimChars_eq_strip, strip_eq_self_iff]
  intro c hc
  have hmem : c ∈ cs := hc.elim List.mem_of_head? List.mem_of_getLast?
  exact isBlank_of_isPrintable (List.all_eq_true.1 h c hmem)

theorem trim_of_printable {s : String} (h : s.toList.all isPrintable = true) : trim s = s := by
  rw [trim, trimChars_of_printable h, String.ofList_toList]

/-! ### Literals -/

/-- A string without the wide white space at both ends. -/
def trimWide (s : String) : String :=
  String.ofList (strip isWide s.toList)

/-- A string that begins or ends with wide white space. -/
def Padded (s : String) : Prop :=
  ∃ c, (s.toList.head? = some c ∨ s.toList.getLast? = some c) ∧ isWide c = true

instance (s : String) : Decidable (Padded s) :=
  decidable_of_iff ((s.toList.head?.toList ++ s.toList.getLast?.toList).any isWide = true)
    (by simp [Padded, or_and_right, exists_or])

theorem trimWide_eq_self_iff {s : String} : trimWide s = s ↔ ¬ Padded s := by
  have hlist : trimWide s = s ↔ strip isWide s.toList = s.toList := by
    rw [trimWide, ← String.toList_inj, String.toList_ofList]
  rw [hlist, strip_eq_self_iff, Padded, not_exists]
  simp only [not_and, Bool.not_eq_true]

private theorem isBlank_of_not_needsEscape {c : Char} (h : ¬ Literal.needsEscape c = true) : isBlank c = isWide c := by
  simp only [Literal.needsEscape, Bool.or_eq_true, decide_eq_true_eq, not_or] at h
  exact isBlank_eq_isWide (by omega)

open Literal in
private theorem dropWhile_escape (cs : List Char) :
    (escape cs).dropWhile isBlank = escape (cs.dropWhile isWide) := by
  induction cs with
  | nil => rfl
  | cons c cs ih =>
    by_cases h : needsEscape c = true
    · have hwide := isWide_of_toNat (toNat_of_needsEscape h)
      have hslash : isBlank '\\' = false := by decide
      simp only [escape, h, ↓reduceIte, escapeChar, List.cons_append, List.dropWhile_cons, hwide, hslash,
        Bool.false_eq_true]
    · have hblank := isBlank_of_not_needsEscape h
      simp only [escape, h, ↓reduceIte, List.dropWhile_cons, hblank, Bool.false_eq_true]
      split
      · exact ih
      · simp only [escape, h, ↓reduceIte, Bool.false_eq_true]

open Literal in
private theorem rdropWhile_escape (cs : List Char) :
    (escape cs).rdropWhile isBlank = escape (cs.rdropWhile isWide) := by
  induction cs using List.reverseRecOn with
  | nil => rfl
  | append_singleton cs c ih =>
    by_cases h : needsEscape c = true
    · have hwide := isWide_of_toNat (toNat_of_needsEscape h)
      have hdigit : isBlank (lastDigit c.toNat) = false := by
        have htoNat := toNat_lastDigit c.toNat
        simp only [Char.reduceToNat] at htoNat
        rw [isBlank_eq_isWide (by omega), isWide_of_toNat (by omega)]
      have hescape : escape (cs ++ [c]) =
          (escape cs ++ ['\\', lastDigit (c.toNat / 100), lastDigit (c.toNat / 10)]) ++ [lastDigit c.toNat] := by
        simp [escape_append, escape, h, escapeChar]
      rw [List.rdropWhile_concat_neg _ _ _ (by simp [hwide]), hescape,
        List.rdropWhile_concat_neg _ _ _ (by simp [hdigit])]
    · have hblank := isBlank_of_not_needsEscape h
      have hescape : escape (cs ++ [c]) = escape cs ++ [c] := by
        simp [escape_append, escape, h]
      rw [hescape, List.rdropWhile_concat, List.rdropWhile_concat, hblank]
      split
      · exact ih
      · exact hescape.symm

/-- Only the wide white space around a string shows in its literal. -/
theorem trim_encodeString (s : String) : trim (Literal.encodeString s) = Literal.encodeString (trimWide s) := by
  simp only [trim, trimChars_eq_strip, Literal.encodeString, trimWide, String.toList_ofList, strip, dropWhile_escape,
    rdropWhile_escape]

end IPPcode23.Text
