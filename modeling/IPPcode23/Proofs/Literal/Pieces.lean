import IPPcode23.Operand
import IPPcode23.Proofs.Literal.Escape

/-!
# String literals by pieces

A string literal is a row of pieces, each a character other than a backslash or a backslash with three digits. No two
rows of pieces have the same text (`textOf_injective`). Reading takes one piece after the other and never looks beyond
it (`unescape?_text_append`), so what a literal denotes is put together from what its pieces denote, and what is
appended to a row of pieces is read as if it stood alone (`literals_decode_by_pieces`).
-/

namespace IPPcode23.Literal

/-- A piece of a string literal: a character that stands for itself, or the digits of an escape. -/
inductive Piece where
  | plain (c : Char) (h : c ≠ '\\')
  | escape (a b c : Fin 10)

namespace Piece

/-- The characters of a piece. -/
def text : Piece → List Char
  | plain c _ => [c]
  | escape a b c => ['\\', a.val.digitChar, b.val.digitChar, c.val.digitChar]

/-- The code point that a piece names. -/
def code : Piece → Nat
  | plain c _ => c.toNat
  | escape a b c => 100 * a.val + 10 * b.val + c.val

/-- The character that a piece denotes. -/
def char (p : Piece) : Char :=
  Char.ofNat p.code

end Piece

/-- The literal that a row of pieces is. -/
def textOf (ps : List Piece) : String :=
  String.ofList (ps.flatMap Piece.text)

/-! ### Pieces -/

private theorem isDigit_iff {c : Char} : c.isDigit = true ↔ ∃ d : Fin 10, c = d.val.digitChar := by
  constructor
  · intro h
    simp only [Char.isDigit, ge_iff_le, Bool.and_eq_true, decide_eq_true_eq, UInt32.le_iff_toNat_le, Char.toNat_val,
      Char.reduceToNat] at h
    refine ⟨⟨c.toNat - 48, by omega⟩, Char.toNat_inj.1 ?_⟩
    rw [Nat.toNat_digitChar_of_lt_ten (by omega)]
    exact (Nat.add_sub_cancel' h.1).symm
  · rintro ⟨d, rfl⟩
    rw [Nat.isDigit_digitChar, decide_eq_true d.isLt]

private theorem threeDigits?_digitChar (a b c : Fin 10) :
    threeDigits? a.val.digitChar b.val.digitChar c.val.digitChar = some (Piece.escape a b c).code := by
  have hdigit : ∀ d : Fin 10, d.val.digitChar.isDigit = true := fun d => isDigit_iff.2 ⟨d, rfl⟩
  have hvalue : ∀ d : Fin 10, d.val.digitChar.toNat - '0'.toNat = d.val := by
    intro d
    rw [Nat.toNat_digitChar_of_lt_ten d.isLt]
    exact Nat.add_sub_cancel_left 48 d.val
  rw [threeDigits?, hdigit, hdigit, hdigit, hvalue, hvalue, hvalue]
  rfl

private theorem exists_escape_of_threeDigits? {a b c : Char} {n : Nat} (h : threeDigits? a b c = some n) :
    ∃ x y z, ['\\', a, b, c] = (Piece.escape x y z).text := by
  unfold threeDigits? at h
  split at h
  case isTrue hdigits =>
    simp only [Bool.and_eq_true] at hdigits
    obtain ⟨⟨ha, hb⟩, hc⟩ := hdigits
    obtain ⟨x, rfl⟩ := isDigit_iff.1 ha
    obtain ⟨y, rfl⟩ := isDigit_iff.1 hb
    obtain ⟨z, rfl⟩ := isDigit_iff.1 hc
    exact ⟨x, y, z, rfl⟩
  case isFalse => cases h

namespace Piece

private theorem code_escape_le (a b c : Fin 10) : (escape a b c).code ≤ 999 := by
  change 100 * a.val + 10 * b.val + c.val ≤ 999
  omega

/-- Every number of three digits is the code point of a character. -/
private theorem toNat_char (p : Piece) : p.char.toNat = p.code := by
  cases p with
  | plain c h => rw [char, code, Char.ofNat_toNat]
  | escape a b c =>
    have hle := code_escape_le a b c
    exact toNat_ofNat (Or.inl (by omega))

/-- The text of a piece tells where it ends. -/
private theorem text_append_inj {p p' : Piece} {rest rest' : List Char} (h : p.text ++ rest = p'.text ++ rest') :
    p = p' ∧ rest = rest' := by
  have hdigit : ∀ d d' : Fin 10, d.val.digitChar = d'.val.digitChar → d = d' := by decide
  cases p with
  | plain c hc =>
    cases p' with
    | plain c' hc' =>
      obtain ⟨rfl, hrest⟩ := List.cons.inj h
      exact ⟨rfl, hrest⟩
    | escape x y z => exact absurd (List.cons.inj h).1 hc
  | escape a b c =>
    cases p' with
    | plain c' hc' => exact absurd (List.cons.inj h).1.symm hc'
    | escape x y z =>
      simp only [text, List.cons_append, List.nil_append, List.cons.injEq, true_and] at h
      obtain ⟨ha, hb, hc, hrest⟩ := h
      rw [hdigit a x ha, hdigit b y hb, hdigit c z hc]
      exact ⟨rfl, hrest⟩

private theorem text_ne_nil (p : Piece) : p.text ≠ [] := by
  cases p <;> simp [text]

end Piece

theorem textOf_injective : Function.Injective textOf := by
  intro ps ps' h
  replace h : ps.flatMap Piece.text = ps'.flatMap Piece.text := String.ofList_injective h
  induction ps generalizing ps' with
  | nil =>
    cases ps' with
    | nil => rfl
    | cons p' ps' => simp [p'.text_ne_nil] at h
  | cons p ps ih =>
    cases ps' with
    | nil => simp [p.text_ne_nil] at h
    | cons p' ps' =>
      rw [List.flatMap_cons, List.flatMap_cons] at h
      obtain ⟨rfl, hrest⟩ := Piece.text_append_inj h
      rw [ih hrest]

/-! ### Reading piece by piece -/

theorem unescape?_text_append (p : Piece) (rest : List Char) :
    unescape? (p.text ++ rest) = (unescape? rest).map (p.char :: ·) := by
  cases p with
  | plain c h =>
    rw [Piece.char, Piece.code, Char.ofNat_toNat]
    exact unescape?_cons_of_ne h rest
  | escape a b c =>
    simp only [Piece.text, List.cons_append, List.nil_append]
    rw [unescape?, threeDigits?_digitChar]
    cases unescape? rest <;> rfl

/-- What follows a row of pieces is read as if it stood alone. -/
private theorem unescape?_flatMap_append (ps : List Piece) (rest : List Char) :
    unescape? (ps.flatMap Piece.text ++ rest) = (unescape? rest).map (ps.map Piece.char ++ ·) := by
  induction ps with
  | nil => simp
  | cons p ps ih =>
    rw [List.flatMap_cons, List.append_assoc, unescape?_text_append, ih, Option.map_map]
    rfl

/-- Whatever can be read is a row of pieces. -/
private theorem exists_pieces_of_unescape? {cs ds : List Char} (h : unescape? cs = some ds) :
    ∃ ps : List Piece, ps.flatMap Piece.text = cs := by
  fun_induction unescape? cs generalizing ds with
  | case1 => exact ⟨[], rfl⟩
  | case2 a b c rest ih =>
    simp only [Option.bind_eq_bind, Option.bind_eq_some_iff] at h
    obtain ⟨n, hn, ds', hds, _⟩ := h
    obtain ⟨x, y, z, htext⟩ := exists_escape_of_threeDigits? hn
    obtain ⟨ps, rfl⟩ := ih hds
    exact ⟨.escape x y z :: ps, by rw [List.flatMap_cons, ← htext]; rfl⟩
  | case3 => cases h
  | case4 c rest _ hc ih =>
    simp only [Option.bind_eq_bind, Option.bind_eq_some_iff] at h
    obtain ⟨ds', hds, _⟩ := h
    obtain ⟨ps, rfl⟩ := ih hds
    exact ⟨.plain c hc :: ps, rfl⟩

/-! ### Literals -/

private theorem decodeString?_textOf_append (ps : List Piece) (t : String) :
    decodeString? (textOf ps ++ t) = (decodeString? t).map (String.ofList (ps.map Piece.char) ++ ·) := by
  rw [decodeString?, String.toList_append, textOf, String.toList_ofList, unescape?_flatMap_append, decodeString?,
    Option.map_map, Option.map_map]
  congr 1
  funext cs
  exact String.ofList_append

private theorem decodeString?_eq_some_iff {t s : String} :
    decodeString? t = some s ↔ ∃ ps, t = textOf ps ∧ s = String.ofList (ps.map Piece.char) := by
  have hread : ∀ ps, decodeString? (textOf ps) = some (String.ofList (ps.map Piece.char)) := by
    intro ps
    have happend := decodeString?_textOf_append ps ""
    rw [String.append_empty] at happend
    rw [happend]
    exact congrArg some String.append_empty
  constructor
  · intro h
    obtain ⟨cs, hcs, _⟩ := Option.map_eq_some_iff.1 h
    obtain ⟨ps, hps⟩ := exists_pieces_of_unescape? hcs
    have htext : t = textOf ps := by rw [textOf, hps, String.ofList_toList]
    rw [htext, hread] at h
    exact ⟨ps, htext, (Option.some.inj h).symm⟩
  · rintro ⟨ps, rfl, rfl⟩
    exact hread ps

/-- What a row of pieces denotes has the code points that the pieces name. -/
private theorem eq_ofList_char_iff {ps : List Piece} {s : String} :
    s = String.ofList (ps.map Piece.char) ↔ s.toList.map Char.toNat = ps.map Piece.code := by
  have hcodes : (ps.map Piece.char).map Char.toNat = ps.map Piece.code := by
    rw [List.map_map]
    exact List.map_congr_left fun p _ => p.toNat_char
  rw [← String.toList_inj, String.toList_ofList, ← hcodes]
  exact (List.map_inj_right fun _ _ => Char.toNat_inj.1).symm

private theorem decodeString_eq_ok_iff {t s : String} : decodeString t = .ok s ↔ decodeString? t = some s := by
  unfold decodeString
  cases decodeString? t <;> simp

private theorem decodeString_eq_error_iff {t : String} {e : OperandError} :
    decodeString t = .error e ↔ decodeString? t = none ∧ e = .invalidEscape t := by
  unfold decodeString
  cases decodeString? t <;> simp [eq_comm]

/-- A literal can be read if and only if it is a row of pieces. It is so in one way only, and the string that it denotes
has the code points that the pieces name, up to 999 for escapes, all of which are characters. Any other text is refused as
a whole. Behind a literal that can be read every text is read as if it stood alone, and refused if it is refused alone. -/
theorem literals_decode_by_pieces (t : String) :
    ((∃ s, decodeString t = .ok s) ↔ ∃ ps, t = textOf ps) ∧
    (∀ ps, t = textOf ps → (∀ ps', t = textOf ps' → ps' = ps) ∧
      ∀ s, decodeString t = .ok s ↔ s.toList.map Char.toNat = ps.map Piece.code) ∧
    (∀ a b c, (Piece.escape a b c).code ≤ 999 ∧ (Piece.escape a b c).code.isValidChar) ∧
    (∀ e, decodeString t = .error e → e = .invalidEscape t) ∧
    ∀ s, decodeString t = .ok s → ∀ t',
      (∀ s', decodeString t' = .ok s' → decodeString (t ++ t') = .ok (s ++ s')) ∧
      ((∃ e, decodeString (t ++ t') = .error e) ↔ ∃ e, decodeString t' = .error e) := by
  simp only [decodeString_eq_ok_iff, decodeString_eq_error_iff]
  refine ⟨?_, ?_, ?_, fun e h => h.2, ?_⟩
  · constructor
    · rintro ⟨s, hs⟩
      obtain ⟨ps, ht, _⟩ := decodeString?_eq_some_iff.1 hs
      exact ⟨ps, ht⟩
    · rintro ⟨ps, ht⟩
      exact ⟨_, decodeString?_eq_some_iff.2 ⟨ps, ht, rfl⟩⟩
  · rintro ps rfl
    refine ⟨fun ps' h => (textOf_injective h).symm, fun s => ?_⟩
    rw [← eq_ofList_char_iff, decodeString?_eq_some_iff]
    constructor
    · rintro ⟨ps', h, hs⟩
      rw [textOf_injective h, hs]
    · intro hs
      exact ⟨ps, rfl, hs⟩
  · intro a b c
    have hle := Piece.code_escape_le a b c
    exact ⟨hle, Or.inl (by omega)⟩
  · intro s hs t'
    obtain ⟨ps, rfl, rfl⟩ := decodeString?_eq_some_iff.1 hs
    rw [decodeString?_textOf_append]
    constructor
    · intro s' hs'
      rw [hs', Option.map_some]
    · simp

/-- A digit right behind an escape, and an escape behind that which lacks a digit. -/
theorem literals_decode_by_pieces_digit_behind :
    let ps : List Piece := [.plain 'a' (by decide), .escape 0 3 2, .plain '1' (by decide)]
    "a\\0321" = textOf ps ∧ decodeString "a\\0321" = .ok "a 1" ∧ ∃ e, decodeString ("a\\0321" ++ "\\03") = .error e := by
  intro ps
  have htext : "a\\0321" = textOf ps := by decide
  obtain ⟨_, hpieces, _, _, happend⟩ := literals_decode_by_pieces "a\\0321"
  have hread : decodeString "a\\0321" = .ok "a 1" := ((hpieces ps htext).2 _).2 (by decide)
  exact ⟨htext, hread, (happend _ hread "\\03").2.2 ⟨_, rfl⟩⟩

end IPPcode23.Literal
