import IPPcode23.Literal.Integer
import Mathlib.Data.List.Forall2
import Mathlib.Data.Nat.Digits.Defs

/-!
# Integer literals are numerals

A numeral is a sign, a mark of its base and digits of that base, each from a short table (`IsNumeral`). Reading a literal
gives the mathematical value of the numeral that it is (`signed?_eq_some_iff`), so a text is no numeral in two ways. A
literal is accepted exactly if that value is a 64-bit integer, and the forms of an integer in all bases are among its
literals (`integers_read_as_numerals`).
-/

namespace IPPcode23.Literal

/-- A character is the digit of a number in a base of at most sixteen, a letter in either case. -/
def IsDigit (base : Nat) (c : Char) (d : Nat) : Prop :=
  d < base ∧ (c = d.digitChar ∨ c = d.digitChar.toUpper)

/-- Characters write a number in a base: one or more digits, the most significant one first. -/
def Writes (base : Nat) (cs : List Char) (n : Nat) : Prop :=
  cs ≠ [] ∧ ∃ ds, List.Forall₂ (IsDigit base) cs ds ∧ Nat.ofDigits base ds.reverse = n

/-- The marks of bases. Without a mark digits are decimal. -/
def marks : List (List Char × Nat) :=
  [([], 10), (['0', 'x'], 16), (['0', 'X'], 16), (['0', 'o'], 8), (['0', 'O'], 8), (['0', 'b'], 2), (['0', 'B'], 2)]

/-- Characters write a number behind the mark of its base. -/
def IsMagnitude (cs : List Char) (k : Nat) : Prop :=
  ∃ mark ∈ marks, ∃ digits, cs = mark.1 ++ digits ∧ Writes mark.2 digits k

/-- The signs, with what they multiply by. -/
def signs : List (List Char × Int) :=
  [([], 1), (['+'], 1), (['-'], -1)]

/-- Characters write an integer behind an optional sign. -/
def IsNumeral (cs : List Char) (n : Int) : Prop :=
  ∃ sign ∈ signs, ∃ rest k, cs = sign.1 ++ rest ∧ IsMagnitude rest k ∧ n = sign.2 * (k : Int)

/-- The form of an integer in the base of a mark, with its letters in lower or upper case. -/
def formOf (mark : List Char × Nat) (upper : Bool) (n : Int) : String :=
  String.ofList ((if n < 0 then ['-'] else []) ++ (mark.1 ++
    (Nat.toDigits mark.2 n.natAbs).map fun c => if upper then c.toUpper else c))

/-! ### Digits -/

private theorem toNat_digitChar {d : Nat} (hle : 10 ≤ d) (hlt : d < 16) :
    d.digitChar.toNat = 87 + d ∧ d.digitChar.toUpper.toNat = 55 + d := by
  have hall : ∀ d < 16, 10 ≤ d → d.digitChar.toNat = 87 + d ∧ d.digitChar.toUpper.toNat = 55 + d := by decide
  exact hall d hlt hle

private theorem digit?_eq_some_iff {base : Nat} (hbase : base ≤ 16) {c : Char} {d : Nat} :
    digit? base c = some d ↔ IsDigit base c d := by
  constructor
  · intro h
    obtain ⟨hvalue, hlt⟩ := Option.filter_eq_some_iff.1 h
    have hlt : d < base := of_decide_eq_true hlt
    refine ⟨hlt, ?_⟩
    simp only [Char.le_def, UInt32.le_iff_toNat_le, Char.toNat_val, Char.reduceToNat] at hvalue
    -- the three ranges of digits, in the order in which they are tried
    split at hvalue
    case isTrue hrange =>
      left
      apply Char.toNat_inj.1
      have hd := Option.some.inj hvalue
      rw [Nat.toNat_digitChar_of_lt_ten (by omega)]
      omega
    case isFalse =>
      split at hvalue
      case isTrue hrange =>
        left
        apply Char.toNat_inj.1
        have hd := Option.some.inj hvalue
        rw [(toNat_digitChar (by omega) (by omega)).1]
        omega
      case isFalse =>
        split at hvalue
        case isTrue hrange =>
          right
          apply Char.toNat_inj.1
          have hd := Option.some.inj hvalue
          rw [(toNat_digitChar (by omega) (by omega)).2]
          omega
        case isFalse => cases hvalue
  · rintro ⟨hlt, hc⟩
    have hall : ∀ d < 16, digit? 16 d.digitChar = some d ∧ digit? 16 d.digitChar.toUpper = some d := by decide
    have hread : digit? 16 c = some d := by
      rcases hc with rfl | rfl
      · exact (hall d (by omega)).1
      · exact (hall d (by omega)).2
    -- the base only bounds the value
    exact Option.filter_eq_some_iff.2 ⟨(Option.filter_eq_some_iff.1 hread).1, decide_eq_true hlt⟩

private theorem digitsFrom?_eq_some_iff {base : Nat} (hbase : base ≤ 16) {cs : List Char} {n k : Nat} :
    digitsFrom? base n cs = some k ↔
      ∃ ds, List.Forall₂ (IsDigit base) cs ds ∧ ds.foldl (fun m d => base * m + d) n = k := by
  induction cs generalizing n with
  | nil => simp [digitsFrom?]
  | cons c cs ih =>
    simp only [digitsFrom?, Option.bind_eq_bind, Option.bind_eq_some_iff, digit?_eq_some_iff hbase, ih,
      List.forall₂_cons_left_iff]
    constructor
    · rintro ⟨d, hd, ds, hds, hk⟩
      exact ⟨d :: ds, ⟨d, ds, hd, hds, rfl⟩, hk⟩
    · rintro ⟨_, ⟨d, ds, hd, hds, rfl⟩, hk⟩
      exact ⟨d, hd, ds, hds, hk⟩

theorem numeral?_eq_some_iff {base : Nat} (hbase : base ≤ 16) {cs : List Char} {n : Nat} :
    numeral? base cs = some n ↔ Writes base cs n := by
  have hvalue : ∀ ds : List Nat, Nat.ofDigits base ds.reverse = ds.foldl (fun m d => base * m + d) 0 := by
    intro ds
    rw [Nat.ofDigits_eq_foldr, List.foldr_reverse]
    simp only [Nat.cast_id, Nat.add_comm]
  simp only [Writes, hvalue, ← digitsFrom?_eq_some_iff hbase]
  cases cs <;> simp [numeral?]

/-- The digits that a number is printed with write it, in either case. -/
private theorem writes_toDigits {base : Nat} (hbase : 1 < base) (upper : Bool) (n : Nat) :
    Writes base ((Nat.toDigits base n).map fun c => if upper then c.toUpper else c) n := by
  refine ⟨by simp [Nat.toDigits_ne_nil], ?_⟩
  have hdigit : ∀ d < base, IsDigit base (if upper then d.digitChar.toUpper else d.digitChar) d := by
    intro d hd
    refine ⟨hd, ?_⟩
    cases upper
    · exact Or.inl rfl
    · exact Or.inr rfl
  induction n using Nat.strong_induction_on with
  | _ n ih =>
    by_cases hlt : n < base
    · refine ⟨[n], ?_, by simp⟩
      rw [Nat.toDigits_of_lt_base hlt]
      exact .cons (hdigit n hlt) .nil
    · have hle : base ≤ n := Nat.not_lt.1 hlt
      obtain ⟨ds, hds, hvalue⟩ := ih (n / base) (Nat.div_lt_self (by omega) hbase)
      refine ⟨ds ++ [n % base], ?_, ?_⟩
      · rw [Nat.toDigits_of_base_le hbase hle, List.map_append]
        exact List.rel_append hds (.cons (hdigit _ (Nat.mod_lt n (by omega))) .nil)
      · rw [List.reverse_append, List.reverse_singleton, List.singleton_append, Nat.ofDigits_cons, hvalue]
        exact Nat.mod_add_div n base

theorem numeral?_toDigits (n : Nat) : numeral? 10 (Nat.toDigits 10 n) = some n := by
  have hwrites : Writes 10 _ n := writes_toDigits (by decide) false n
  simp only [Bool.false_eq_true, if_false, List.map_id'] at hwrites
  exact (numeral?_eq_some_iff (by decide)).2 hwrites

/-! ### Marks and signs -/

/-- A letter that marks a base is no decimal digit. -/
private theorem not_writes_of_digit? {a b : Char} (hb : digit? 10 b = none) (cs : List Char) (k : Nat) :
    ¬ Writes 10 (a :: b :: cs) k := by
  rintro ⟨_, _, hds, _⟩
  obtain ⟨_, _, _, hds, _⟩ := List.forall₂_cons_left_iff.1 hds
  obtain ⟨d, _, hd, _⟩ := List.forall₂_cons_left_iff.1 hds
  rw [← digit?_eq_some_iff (by decide), hb] at hd
  cases hd

private theorem magnitude?_eq_some_iff {cs : List Char} {k : Nat} : magnitude? cs = some k ↔ IsMagnitude cs k := by
  have hread : ∀ {base : Nat} {digits : List Char}, base ≤ 16 →
      (numeral? base digits = some k ↔ Writes base digits k) := fun hbase => numeral?_eq_some_iff hbase
  constructor
  · intro h
    unfold magnitude? at h
    split at h
    case h_1 digits => exact ⟨(['0', 'x'], 16), by decide, digits, rfl, (hread (by decide)).1 h⟩
    case h_2 digits => exact ⟨(['0', 'X'], 16), by decide, digits, rfl, (hread (by decide)).1 h⟩
    case h_3 digits => exact ⟨(['0', 'o'], 8), by decide, digits, rfl, (hread (by decide)).1 h⟩
    case h_4 digits => exact ⟨(['0', 'O'], 8), by decide, digits, rfl, (hread (by decide)).1 h⟩
    case h_5 digits => exact ⟨(['0', 'b'], 2), by decide, digits, rfl, (hread (by decide)).1 h⟩
    case h_6 digits => exact ⟨(['0', 'B'], 2), by decide, digits, rfl, (hread (by decide)).1 h⟩
    case h_7 => exact ⟨([], 10), by decide, cs, rfl, (hread (by decide)).1 h⟩
  · rintro ⟨mark, hmark, digits, rfl, h⟩
    simp only [marks, List.mem_cons, List.not_mem_nil, or_false] at hmark
    rcases hmark with rfl | rfl | rfl | rfl | rfl | rfl | rfl
    · -- decimal digits do not begin with the mark of another base
      rw [List.nil_append]
      unfold magnitude?
      split
      case h_7 => exact (hread (by decide)).2 h
      all_goals exact absurd h (not_writes_of_digit? rfl _ _)
    all_goals exact (hread (by decide)).2 h

theorem signed?_eq_some_iff {cs : List Char} {n : Int} : signed? cs = some n ↔ IsNumeral cs n := by
  constructor
  · intro h
    unfold signed? at h
    split at h
    all_goals
      simp only [Option.map_eq_some_iff, Option.bind_eq_bind, Option.bind_eq_some_iff, Option.pure_def, Option.some.injEq,
        magnitude?_eq_some_iff] at h
    case h_1 rest =>
      obtain ⟨_, ⟨k, hk, rfl⟩, rfl⟩ := h
      exact ⟨(['-'], -1), by decide, rest, k, rfl, hk, (Int.neg_one_mul _).symm⟩
    case h_2 rest =>
      obtain ⟨_, ⟨k, hk, rfl⟩, rfl⟩ := h
      exact ⟨(['+'], 1), by decide, rest, k, rfl, hk, (Int.one_mul _).symm⟩
    case h_3 =>
      obtain ⟨_, ⟨k, hk, rfl⟩, rfl⟩ := h
      exact ⟨([], 1), by decide, cs, k, rfl, hk, (Int.one_mul _).symm⟩
  · rintro ⟨sign, hsign, rest, k, rfl, hrest, rfl⟩
    rw [← magnitude?_eq_some_iff] at hrest
    simp only [signs, List.mem_cons, List.not_mem_nil, or_false] at hsign
    rcases hsign with rfl | rfl | rfl
    · -- a magnitude does not begin with a sign
      rw [List.nil_append, Int.one_mul]
      unfold signed?
      split
      case h_1 => cases hrest
      case h_2 => cases hrest
      case h_3 => rw [hrest]; rfl
    · rw [List.singleton_append, signed?, hrest, Int.one_mul]
      rfl
    · rw [List.singleton_append, signed?, hrest, Int.neg_one_mul]
      rfl

private theorem IsNumeral.unique {cs : List Char} {n n' : Int} (h : IsNumeral cs n) (h' : IsNumeral cs n') :
    n = n' := by
  rw [← signed?_eq_some_iff] at h h'
  exact Option.some.inj (h.symm.trans h')

/-! ### Integers of 64 bits -/

private theorem toInt64?_eq_some_iff {n : Int} {v : Int64} : toInt64? n = some v ↔ v.toInt = n := by
  unfold toInt64?
  constructor
  · intro h
    split at h
    case isTrue hrange =>
      obtain rfl := Option.some.inj h
      rw [Int64.toInt_minValue, Int64.toInt_maxValue] at hrange
      exact Int64.toInt_ofInt_of_le hrange.1 (by omega)
    case isFalse => cases h
  · rintro rfl
    rw [if_pos ⟨v.minValue_le_toInt, v.toInt_le⟩, Int64.ofInt_toInt]

private theorem parseInt?_eq_some_iff {s : String} {v : Int64} : parseInt? s = some v ↔ IsNumeral s.toList v.toInt := by
  simp only [parseInt?, Option.bind_eq_some_iff, signed?_eq_some_iff, toInt64?_eq_some_iff, exists_eq_right']

/-- The literals that are refused are those whose values are out of range, if they have values at all. -/
private theorem parseInt?_eq_none_iff {s : String} :
    parseInt? s = none ↔ ∀ n, IsNumeral s.toList n → n < -2 ^ 63 ∨ 2 ^ 63 - 1 < n := by
  constructor
  · intro h n hn
    by_contra hrange
    have hvalue : (Int64.ofInt n).toInt = n := Int64.toInt_ofInt_of_le (by omega) (by omega)
    rw [← hvalue, ← parseInt?_eq_some_iff, h] at hn
    cases hn
  · intro h
    refine Option.eq_none_iff_forall_ne_some.2 fun v hv => ?_
    have hrange := h v.toInt (parseInt?_eq_some_iff.1 hv)
    have hle := v.le_toInt
    have hlt := v.toInt_lt
    omega

/-! ### The forms of an integer -/

private theorem isNumeral_formOf {mark : List Char × Nat} (hmark : mark ∈ marks) (upper : Bool) (n : Int) :
    IsNumeral (formOf mark upper n).toList n := by
  have hbase : ∀ mark ∈ marks, 1 < mark.2 := by decide
  have hmagnitude : IsMagnitude (mark.1 ++ (Nat.toDigits mark.2 n.natAbs).map fun c => if upper then c.toUpper else c)
      n.natAbs := ⟨mark, hmark, _, rfl, writes_toDigits (hbase mark hmark) upper n.natAbs⟩
  rw [formOf, String.toList_ofList]
  by_cases hneg : n < 0
  · rw [if_pos hneg]
    exact ⟨(['-'], -1), by decide, _, _, rfl, hmagnitude, by omega⟩
  · rw [if_neg hneg]
    exact ⟨([], 1), by decide, _, _, rfl, hmagnitude, by omega⟩

private theorem formOf_decimal (n : Int) : formOf ([], 10) false n = n.repr := by
  rw [← String.toList_inj, formOf, String.toList_ofList]
  simp only [Bool.false_eq_true, if_false, List.map_id', List.nil_append]
  cases n with
  | ofNat n => simp [Int.repr]
  | negSucc n => simp [Int.repr, Int.negSucc_lt_zero]

theorem parseInt?_repr (n : Int64) : parseInt? n.toInt.repr = some n := by
  rw [parseInt?_eq_some_iff, ← formOf_decimal]
  exact isNumeral_formOf (by decide) false n.toInt

theorem isDigit_of_mem_toDigits {n : Nat} {c : Char} (h : c ∈ Nat.toDigits 10 n) : c.isDigit = true :=
  Nat.isDigit_of_mem_toDigits (by decide) (by decide) h

/-- The decimal form of an integer holds digits and perhaps a minus sign. -/
theorem isDigit_of_mem_repr {n : Int} {c : Char} (h : c ∈ n.repr.toList) : c.isDigit = true ∨ c = '-' := by
  cases n with
  | ofNat n =>
    simp only [Int.repr, Nat.toList_repr] at h
    exact Or.inl (isDigit_of_mem_toDigits h)
  | negSucc n =>
    simp only [Int.repr, String.toList_append, Nat.toList_repr, List.mem_append] at h
    rcases h with h | h
    · exact Or.inr (List.mem_singleton.1 h)
    · exact Or.inl (isDigit_of_mem_toDigits h)

/-- A literal is read as an integer if and only if it is a numeral of that value; it is refused if and only if it is no
numeral or one whose value does not fit into 64 bits with a sign. No text is a numeral of two values. So each integer is
read back from its decimal form, and from its form behind any mark of a base, whatever the case of its letters. -/
theorem integers_read_as_numerals (s : String) :
    (∀ v : Int64, parseInt? s = some v ↔ IsNumeral s.toList v.toInt) ∧
    (parseInt? s = none ↔ ∀ n, IsNumeral s.toList n → n < -2 ^ 63 ∨ 2 ^ 63 - 1 < n) ∧
    (∀ n n', IsNumeral s.toList n → IsNumeral s.toList n' → n = n') ∧
    ∀ v : Int64, parseInt? v.toInt.repr = some v ∧
      ∀ mark ∈ marks, ∀ upper, parseInt? (formOf mark upper v.toInt) = some v := by
  refine ⟨fun v => parseInt?_eq_some_iff, parseInt?_eq_none_iff, fun n n' h h' => h.unique h', ?_⟩
  intro v
  refine ⟨parseInt?_repr v, ?_⟩
  intro mark hmark upper
  exact parseInt?_eq_some_iff.2 (isNumeral_formOf hmark upper v.toInt)

/-- The least integer behind leading zeros and in its octal form, and the number that is one too large. -/
theorem integers_read_as_numerals_at_limits :
    IsNumeral "-0X0008000000000000000".toList Int64.minValue.toInt ∧
      parseInt? (formOf (['0', 'o'], 8) false Int64.minValue.toInt) = some Int64.minValue ∧
      IsNumeral "9223372036854775808".toList (2 ^ 63) ∧ parseInt? "9223372036854775808" = none := by
  have hlarge : IsNumeral "9223372036854775808".toList (2 ^ 63) := signed?_eq_some_iff.1 rfl
  obtain ⟨hread, _, _, hforms⟩ := integers_read_as_numerals "-0X0008000000000000000"
  obtain ⟨_, hnone, hunique, _⟩ := integers_read_as_numerals "9223372036854775808"
  refine ⟨(hread _).1 (by decide), (hforms Int64.minValue).2 _ (by decide) false, hlarge, hnone.2 ?_⟩
  intro n hn
  rw [hunique n _ hn hlarge]
  decide

end IPPcode23.Literal
