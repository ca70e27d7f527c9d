import IPPcode23.Proofs.Machine.Results
import Mathlib.Data.Int.ModEq

/-!
# Arithmetic

Integers are 64 bits wide. A sum, difference or product that does not fit is replaced by the one integer that does and
is congruent to it (`BinaryOp.gives_of_onIntegers?`). Division truncates toward zero: the remainder is less in size than
the divisor and has the sign of the dividend unless it is zero, which leaves one quotient only (`truncates_iff`). Of all
quotients a single one does not fit, that of the least integer by -1.
-/

namespace IPPcode23

/-- The quotient `q` of `a` by `b` is truncated toward zero: the remainder is less in size than `b`, and it is zero or has
the sign of `a`. -/
def Truncates (a b q : Int) : Prop :=
  ∃ r, a = q * b + r ∧ r.natAbs < b.natAbs ∧ (r = 0 ∨ r.sign = a.sign)

/-- Two remainders of one dividend have no different signs, so they differ by less than the divisor. -/
private theorem natAbs_sub_lt {a r r' : Int} {n : Nat} (hr : r.natAbs < n) (hr' : r'.natAbs < n)
    (hsign : r = 0 ∨ r.sign = a.sign) (hsign' : r' = 0 ∨ r'.sign = a.sign) : (r - r').natAbs < n := by
  have hpos := @Int.sign_eq_one_iff_pos
  have hneg := @Int.sign_eq_neg_one_iff_neg
  rcases Int.lt_trichotomy a 0 with ha | rfl | ha
  · rw [hneg.2 ha, hneg] at hsign hsign'
    omega
  · rw [Int.sign_zero, Int.sign_eq_zero_iff_zero] at hsign hsign'
    omega
  · rw [hpos.2 ha, hpos] at hsign hsign'
    omega

private theorem truncates_tdiv (a : Int) {b : Int} (hb : b ≠ 0) : Truncates a b (a.tdiv b) := by
  refine ⟨a.tmod b, (Int.tdiv_mul_add_tmod a b).symm, ?_, ?_⟩
  · rw [Int.natAbs_tmod]
    exact Nat.mod_lt _ (Int.natAbs_pos.2 hb)
  · by_cases hdvd : b ∣ a
    · exact Or.inl (Int.tmod_eq_zero_of_dvd hdvd)
    · right
      rw [Int.sign_tmod, if_neg hdvd]

/-- There is one truncated quotient only. -/
theorem truncates_iff {a b q : Int} (hb : b ≠ 0) : Truncates a b q ↔ q = a.tdiv b := by
  constructor
  · rintro ⟨r, ha, hr, hsign⟩
    obtain ⟨r', ha', hr', hsign'⟩ := truncates_tdiv a hb
    have hdiff : r - r' = (a.tdiv b - q) * b := by
      rw [Int.sub_mul]
      omega
    have hzero : r - r' = 0 :=
      Int.eq_zero_of_dvd_of_natAbs_lt_natAbs ⟨a.tdiv b - q, by rw [hdiff, Int.mul_comm]⟩
        (natAbs_sub_lt hr hr' hsign hsign')
    rw [hzero] at hdiff
    rcases Int.mul_eq_zero.1 hdiff.symm with h | h
    · omega
    · exact absurd h hb
  · rintro rfl
    exact truncates_tdiv a hb

/-- The 64-bit integer that is congruent to a given integer. -/
private theorem modEq_iff_eq_bmod {x : Int64} {n : Int} : x.toInt ≡ n [ZMOD 2 ^ 64] ↔ x.toInt = n.bmod (2 ^ 64) := by
  have hlow := x.le_toInt
  have hhigh := x.toInt_lt
  rw [eq_comm, Int.bmod_eq_iff (by decide), Int.modEq_comm, Int.modEq_iff_dvd]
  constructor
  · intro h
    exact ⟨by omega, by omega, h⟩
  · intro h
    exact h.2.2

namespace BinaryOp

/-- The operation on integers of any size that an opcode stands for, if it adds, subtracts or multiplies. -/
def onIntegers? : BinaryOp → Option (Int → Int → Int)
  | add => some (· + ·)
  | sub => some (· - ·)
  | mul => some (· * ·)
  | _ => none

/-- What is stored is the one integer of 64 bits that is congruent to the exact result. -/
theorem gives_of_onIntegers? {op : BinaryOp} {f : Int → Int → Int} (h : op.onIntegers? = some f) (a b : Int64) :
    ∃ x : Int64, op.Gives (.int a) (.int b) (.ok (.int x)) ∧
      ∀ y : Int64, y.toInt ≡ f a.toInt b.toInt [ZMOD 2 ^ 64] ↔ y = x := by
  suffices hx : ∃ x : Int64, op.eval (.int a) (.int b) = .ok (.int x) ∧ x.toInt = (f a.toInt b.toInt).bmod (2 ^ 64) by
    obtain ⟨x, heval, hx⟩ := hx
    refine ⟨x, gives_iff.2 heval, fun y => ?_⟩
    rw [modEq_iff_eq_bmod, ← hx, Int64.toInt_inj]
  cases op with
  | add => cases h; exact ⟨a + b, rfl, Int64.toInt_add a b⟩
  | sub => cases h; exact ⟨a - b, rfl, Int64.toInt_sub a b⟩
  | mul => cases h; exact ⟨a * b, rfl, Int64.toInt_mul a b⟩
  | _ => cases h

private theorem idiv_gives_divisionByZero_iff (a b : Int64) :
    idiv.Gives (.int a) (.int b) (.error .divisionByZero) ↔ b = 0 := by
  rw [gives_iff, eval]
  by_cases hb : b = 0 <;> simp [hb]

private theorem idiv_gives_of_ne_zero (a : Int64) {b : Int64} (hb : b ≠ 0) :
    idiv.Gives (.int a) (.int b) (.ok (.int (a / b))) := by
  rw [gives_iff, eval, if_neg hb]

/-- Only the quotient of the least integer by -1 does not fit. -/
private theorem toInt_div_of_fits {a b : Int64} (h : ¬ (a = Int64.minValue ∧ b = -1)) :
    (a / b).toInt = a.toInt.tdiv b.toInt := by
  by_cases ha : a = Int64.minValue
  · exact Int64.toInt_div_of_ne_right a b fun hb => h ⟨ha, hb⟩
  · exact Int64.toInt_div_of_ne_left a b ha

/-- `ADD`, `SUB` and `MUL` of any integers store the one integer of 64 bits that is congruent to the exact result modulo
2^64. `IDIV` fails if the divisor is zero, and only then; otherwise it stores the quotient truncated toward zero, but the
least integer if that is divided by -1. So on no machine does any pair of integers lead to anything else than an integer
that is stored or a division by zero that is reported. A number that is added can be subtracted again, even if the sum
does not fit. -/
theorem arithmetic_wraps_and_truncates (a b : Int64) :
    (∀ (op : BinaryOp) f, op.onIntegers? = some f → ∃ x : Int64, op.Gives (.int a) (.int b) (.ok (.int x)) ∧
      ∀ y : Int64, y.toInt ≡ f a.toInt b.toInt [ZMOD 2 ^ 64] ↔ y = x) ∧
    (idiv.Gives (.int a) (.int b) (.error .divisionByZero) ↔ b = 0) ∧
    (b ≠ 0 → ∃ q : Int64, idiv.Gives (.int a) (.int b) (.ok (.int q)) ∧
      if a.toInt = -2 ^ 63 ∧ b.toInt = -1 then q.toInt = -2 ^ 63
      else ∀ n : Int, Truncates a.toInt b.toInt n ↔ n = q.toInt) ∧
    ∃ x, add.Gives (.int a) (.int b) (.ok x) ∧ sub.Gives x (.int b) (.ok (.int a)) := by
  refine ⟨fun op f h => gives_of_onIntegers? h a b, idiv_gives_divisionByZero_iff a b, ?_, ?_⟩
  · intro hb
    refine ⟨a / b, idiv_gives_of_ne_zero a hb, ?_⟩
    have hlimits : a.toInt = -2 ^ 63 ∧ b.toInt = -1 ↔ a = Int64.minValue ∧ b = -1 := by
      rw [← Int64.toInt_inj, ← Int64.toInt_inj]
      rfl
    split
    case isTrue h =>
      obtain ⟨rfl, rfl⟩ := hlimits.1 h
      decide
    case isFalse h =>
      intro n
      have hb' : b.toInt ≠ 0 := fun hzero => hb (Int64.toInt_inj.1 hzero)
      rw [toInt_div_of_fits (mt hlimits.2 h), truncates_iff hb']
  · refine ⟨.int (a + b), gives_iff.2 rfl, gives_iff.2 ?_⟩
    rw [eval, Int64.add_sub_cancel]

/-- The remainder has the sign of the dividend, and the least integer by -1 is itself. -/
theorem arithmetic_wraps_and_truncates_at_limits :
    (∃ q : Int64, idiv.Gives (.int (-7)) (.int 2) (.ok (.int q)) ∧ q = -3) ∧
      ∃ q : Int64, idiv.Gives (.int Int64.minValue) (.int (-1)) (.ok (.int q)) ∧ q = Int64.minValue := by
  obtain ⟨_, _, htruncates, _⟩ := arithmetic_wraps_and_truncates (-7) 2
  obtain ⟨_, _, hleast, _⟩ := arithmetic_wraps_and_truncates Int64.minValue (-1)
  obtain ⟨q, hq, hquotient⟩ := htruncates (by decide)
  obtain ⟨q', hq', hquotient'⟩ := hleast (by decide)
  rw [if_neg (by decide)] at hquotient
  rw [if_pos (by decide)] at hquotient'
  refine ⟨⟨q, hq, ?_⟩, q', hq', Int64.toInt_inj.1 hquotient'⟩
  have hthree : Truncates (-7) 2 (-3) := ⟨-1, by decide, by decide, by decide⟩
  exact Int64.toInt_inj.1 ((hquotient (-3)).1 hthree).symm

end BinaryOp

end IPPcode23
