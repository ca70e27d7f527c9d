import IPPcode23.Literal.Escape
import Mathlib.Tactic.Common

/-!
# Reading escapes back

Reading undoes writing: the literal of a string denotes that string (`decodeString?_encodeString`), and no character
of a literal is one that would end a word or begin a comment.
-/

namespace IPPcode23.Literal

theorem unescape?_cons_of_ne {c : Char} (h : c ≠ '\\') (rest : List Char) :
    unescape? (c :: rest) = (unescape? rest).map (c :: ·) := by
  conv_lhs => unfold unescape?
  split
  case h_1 heq => cases heq
  case h_2 heq => exact absurd (List.cons.inj heq).1 h
  case h_3 heq => exact absurd (List.cons.inj heq).1 h
  case h_4 heq =>
    obtain ⟨rfl, rfl⟩ := List.cons.inj heq
    rw [Option.map_eq_bind]
    rfl

theorem toNat_ofNat {n : Nat} (h : n.isValidChar) : (Char.ofNat n).toNat = n := by
  unfold Char.ofNat
  rw [dif_pos h]
  rfl

theorem toNat_lastDigit (n : Nat) : (lastDigit n).toNat = '0'.toNat + n % 10 := by
  have hlt : n % 10 < 10 := Nat.mod_lt n (by decide)
  apply toNat_ofNat
  left
  simp only [Char.reduceToNat]
  omega

private theorem isDigit_lastDigit (n : Nat) : (lastDigit n).isDigit = true := by
  have hlt : n % 10 < 10 := Nat.mod_lt n (by decide)
  have htoNat := toNat_lastDigit n
  simp only [Char.reduceToNat] at htoNat
  simp only [Char.isDigit, ge_iff_le, Bool.and_eq_true, decide_eq_true_eq, UInt32.le_iff_toNat_le]
  change '0'.toNat ≤ (lastDigit n).toNat ∧ (lastDigit n).toNat ≤ '9'.toNat
  simp only [Char.reduceToNat]
  omega

private theorem threeDigits?_lastDigit {n : Nat} (h : n < 1000) :
    threeDigits? (lastDigit (n / 100)) (lastDigit (n / 10)) (lastDigit n) = some n := by
  unfold threeDigits?
  rw [isDigit_lastDigit, isDigit_lastDigit, isDigit_lastDigit]
  simp only [toNat_lastDigit, Bool.and_self, ↓reduceIte, Nat.add_sub_cancel_left, Option.some.injEq]
  omega

theorem toNat_of_needsEscape {c : Char} (h : needsEscape c = true) : c.toNat < 0x80 := by
  simp only [needsEscape, Bool.or_eq_true, decide_eq_true_eq, beq_iff_eq] at h
  rcases h with ((h | h) | h) | h
  · omega
  · omega
  · rw [h]; decide
  · rw [h]; decide

private theorem unescape?_escapeChar_append {c : Char} (h : c.toNat < 1000) (rest : List Char) :
    unescape? (escapeChar c ++ rest) = (unescape? rest).map (c :: ·) := by
  simp only [escapeChar, List.cons_append, List.nil_append]
  rw [unescape?, threeDigits?_lastDigit h]
  cases unescape? rest with
  | none => rfl
  | some cs =>
    change some (Char.ofNat c.toNat :: cs) = _
    rw [Char.ofNat_toNat]
    rfl

theorem escape_append (s t : List Char) : escape (s ++ t) = escape s ++ escape t := by
  induction s with
  | nil => rfl
  | cons c s ih =>
    simp only [List.cons_append, escape, ih]
    split <;> simp

private theorem unescape?_escape (s : List Char) : unescape? (escape s) = some s := by
  induction s with
  | nil => rfl
  | cons c s ih =>
    unfold escape
    by_cases h : needsEscape c = true
    · have hlt : c.toNat < 1000 := Nat.lt_trans (toNat_of_needsEscape h) (by decide)
      rw [if_pos h, unescape?_escapeChar_append hlt, ih]
      rfl
    · -- a character that is written as it is does not begin an escape
      have hc : c ≠ '\\' := by
        rintro rfl
        exact h (by decide)
      rw [if_neg h, unescape?_cons_of_ne hc, ih]
      rfl

theorem decodeString?_encodeString (s : String) : decodeString? (encodeString s) = some s := by
  unfold decodeString? encodeString
  rw [String.toList_ofList, unescape?_escape, Option.map_some, String.ofList_toList]

private theorem lastDigit_plain (n : Nat) : 0x20 < (lastDigit n).toNat ∧ lastDigit n ≠ '#' := by
  have htoNat := toNat_lastDigit n
  simp only [Char.reduceToNat] at htoNat
  refine ⟨by omega, ?_⟩
  intro heq
  rw [heq] at htoNat
  simp only [Char.reduceToNat] at htoNat
  omega

/-- A literal holds no white space, control character or `#`. -/
theorem toNat_of_mem_escape {s : List Char} {c : Char} (h : c ∈ escape s) : 0x20 < c.toNat ∧ c ≠ '#' := by
  induction s with
  | nil => simp [escape] at h
  | cons d s ih =>
    unfold escape at h
    split at h
    case isTrue hd =>
      simp only [escapeChar, List.cons_append, List.nil_append, List.mem_cons] at h
      rcases h with rfl | rfl | rfl | rfl | h
      · decide
      · exact lastDigit_plain _
      · exact lastDigit_plain _
      · exact lastDigit_plain _
      · exact ih h
    case isFalse hd =>
      rcases List.mem_cons.1 h with rfl | h
      · simp only [needsEscape, Bool.or_eq_true, decide_eq_true_eq, beq_iff_eq, not_or] at hd
        exact ⟨by omega, hd.1.2⟩
      · exact ih h

end IPPcode23.Literal
