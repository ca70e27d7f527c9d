import IPPcode23.Proofs.Literal.Escape
import IPPcode23.Proofs.Machine.Results
import Mathlib.Data.Int.ModEq

/-!
# Strings

Six opcodes look at a string as a sequence of characters: `STRLEN` counts them, `CONCAT` puts two sequences together,
`GETCHAR` and `STRI2INT` take the character at an index, as a string and as its code point, and `INT2CHAR` makes a string
of a code point. They agree on what a character and an index are (`string_opcodes_agree`). An index denotes a character
if and only if it is not negative and less than the length (`charAt_eq_ok_iff`, `exists_getElem?_iff`).
-/

namespace IPPcode23

variable {σ : Type} [Input σ]

/-! ### Characters at an index -/

/-- The code point at an index, with a number to fall back on where a position has no character. -/
def codeAt (fallback : Int64) (s : String) (index : Int64) : Except Fault Int64 :=
  match position? index s.length with
  | some n => .ok ((s.toList[n]?.map fun c => Int64.ofNat c.toNat).getD fallback)
  | none => .error (.indexOutOfRange index s.length)

theorem position?_eq_some_iff {i : Int64} {length n : Nat} :
    position? i length = some n ↔ i.toInt = n ∧ n < length := by
  unfold position?
  split
  case isTrue h =>
    rw [Option.some.injEq]
    omega
  case isFalse h =>
    simp only [reduceCtorEq, false_iff]
    omega

theorem position?_eq_none_iff {i : Int64} {length : Nat} :
    position? i length = none ↔ ¬ (0 ≤ i.toInt ∧ i.toInt < length) := by
  unfold position?
  split <;> simp_all

theorem charAt_eq_ok_iff {s : String} {i : Int64} {c : Char} :
    charAt s i = .ok c ↔ ∃ n : Nat, i.toInt = n ∧ s.toList[n]? = some c := by
  unfold charAt
  constructor
  · intro h
    split at h
    case h_1 c' hc =>
      cases h
      obtain ⟨n, hn, hc⟩ := Option.bind_eq_some_iff.1 hc
      exact ⟨n, (position?_eq_some_iff.1 hn).1, hc⟩
    case h_2 => cases h
  · rintro ⟨n, hi, hc⟩
    have hlength : n < s.length := by
      rw [← String.length_toList]
      exact (List.getElem?_eq_some_iff.1 hc).1
    rw [position?_eq_some_iff.2 ⟨hi, hlength⟩, Option.bind_some, hc]

/-- The indices that denote a character. -/
theorem exists_getElem?_iff {s : String} {i : Int64} :
    (∃ n : Nat, i.toInt = n ∧ ∃ c, s.toList[n]? = some c) ↔ 0 ≤ i.toInt ∧ i.toInt < s.length := by
  rw [← String.length_toList]
  constructor
  · rintro ⟨n, hi, c, hc⟩
    have hlength := (List.getElem?_eq_some_iff.1 hc).1
    omega
  · intro h
    have hlength : i.toInt.toNat < s.toList.length := by omega
    exact ⟨i.toInt.toNat, by omega, _, List.getElem?_eq_getElem hlength⟩

/-- A position within a string has a character, so the number to fall back on does not matter. -/
private theorem codeAt_eq (fallback : Int64) (s : String) (i : Int64) :
    codeAt fallback s i = (fun c => Int64.ofNat c.toNat) <$> charAt s i := by
  unfold codeAt charAt
  cases hn : position? i s.length with
  | none => rfl
  | some n =>
    have hlength : n < s.toList.length := by
      rw [String.length_toList]
      exact (position?_eq_some_iff.1 hn).2
    simp only [Option.bind_some, List.getElem?_eq_getElem hlength]
    rfl

/-! ### Code points -/

private theorem isValidChar_toNat (c : Char) : c.toNat.isValidChar :=
  c.valid

private theorem toInt_ofNat_toNat (c : Char) : (Int64.ofNat c.toNat).toInt = c.toNat := by
  have hvalid := isValidChar_toNat c
  apply Int64.toInt_ofNat_of_lt
  unfold Nat.isValidChar at hvalid
  omega

private theorem charOf_eq_ok_iff {n : Int64} {c : Char} : charOf n = .ok c ↔ n.toInt = c.toNat := by
  unfold charOf
  constructor
  · intro h
    split at h
    case isTrue hvalid =>
      cases h
      rw [Literal.toNat_ofNat hvalid.2]
      omega
    case isFalse => cases h
  · intro h
    rw [h, Int.toNat_natCast, if_pos ⟨Int.natCast_nonneg _, isValidChar_toNat c⟩, Char.ofNat_toNat]

/-- The integers that are code points of characters. -/
private theorem exists_toNat_eq_iff {n : Int} :
    (∃ c : Char, n = c.toNat) ↔ (0 ≤ n ∧ n ≤ 0x10FFFF) ∧ ¬ (0xD800 ≤ n ∧ n ≤ 0xDFFF) := by
  constructor
  · rintro ⟨c, rfl⟩
    have hvalid := isValidChar_toNat c
    unfold Nat.isValidChar at hvalid
    omega
  · intro h
    have hvalid : n.toNat.isValidChar := by
      unfold Nat.isValidChar
      omega
    refine ⟨Char.ofNat n.toNat, ?_⟩
    rw [Literal.toNat_ofNat hvalid]
    omega

/-! ### Opcodes -/

/-- What is made of the character at an index. -/
private theorem map_charAt_eq_ok_iff {f : Char → Value} {s : String} {i : Int64} {x : Value} :
    f <$> charAt s i = .ok x ↔ ∃ n : Nat, i.toInt = n ∧ ∃ c, s.toList[n]? = some c ∧ x = f c := by
  rw [map_eq_ok]
  constructor
  · rintro ⟨c, hc, rfl⟩
    obtain ⟨n, hi, hc⟩ := charAt_eq_ok_iff.1 hc
    exact ⟨n, hi, c, hc, rfl⟩
  · rintro ⟨n, hi, c, hc, rfl⟩
    exact ⟨c, charAt_eq_ok_iff.2 ⟨n, hi, hc⟩, rfl⟩

/-- Something can be made of the character at an index if there is one. -/
private theorem exists_map_charAt_iff {f : Char → Value} {s : String} {i : Int64} :
    (∃ x, f <$> charAt s i = .ok x) ↔ 0 ≤ i.toInt ∧ i.toInt < s.length := by
  simp only [map_charAt_eq_ok_iff]
  rw [← exists_getElem?_iff]
  constructor
  · rintro ⟨x, n, hi, c, hc, _⟩
    exact ⟨n, hi, c, hc⟩
  · rintro ⟨n, hi, c, hc⟩
    exact ⟨f c, n, hi, c, hc, rfl⟩

namespace UnaryOp

private theorem strlen_gives (s : String) : strlen.Gives (.string s) (.ok (.int (Int64.ofNat s.length))) :=
  gives_iff.2 rfl

private theorem int2char_gives_iff {n : Int64} {x : Value} :
    int2char.Gives (.int n) (.ok x) ↔ ∃ c : Char, n.toInt = c.toNat ∧ x = .string (String.singleton c) := by
  rw [gives_iff, eval, map_eq_ok]
  exact exists_congr fun c => and_congr charOf_eq_ok_iff eq_comm

end UnaryOp

namespace BinaryOp

variable {s : String} {i : Int64} {x : Value}

private theorem concat_gives (a b : String) : concat.Gives (.string a) (.string b) (.ok (.string (a ++ b))) :=
  gives_iff.2 rfl

theorem getchar_gives_iff :
    getchar.Gives (.string s) (.int i) (.ok x) ↔
      ∃ n : Nat, i.toInt = n ∧ ∃ c, s.toList[n]? = some c ∧ x = .string (String.singleton c) :=
  gives_iff.trans map_charAt_eq_ok_iff

private theorem stri2int_gives_iff :
    stri2int.Gives (.string s) (.int i) (.ok x) ↔
      ∃ n : Nat, i.toInt = n ∧ ∃ c, s.toList[n]? = some c ∧ x = .int (Int64.ofNat c.toNat) :=
  gives_iff.trans map_charAt_eq_ok_iff

theorem exists_getchar_gives_iff :
    (∃ x, getchar.Gives (.string s) (.int i) (.ok x)) ↔ 0 ≤ i.toInt ∧ i.toInt < s.length :=
  (exists_congr fun _ => gives_iff).trans exists_map_charAt_iff

theorem exists_stri2int_gives_iff :
    (∃ x, stri2int.Gives (.string s) (.int i) (.ok x)) ↔ 0 ≤ i.toInt ∧ i.toInt < s.length :=
  (exists_congr fun _ => gives_iff).trans exists_map_charAt_iff

/-- The characters of two strings put together: those of the first, then those of the second. -/
private theorem getchar_append_gives_iff {a b : String} (ha : a.length < 2 ^ 63) :
    getchar.Gives (.string (a ++ b)) (.int i) (.ok x) ↔
      if i.toInt < a.length then getchar.Gives (.string a) (.int i) (.ok x)
      else getchar.Gives (.string b) (.int (i - Int64.ofNat a.length)) (.ok x) := by
  simp only [getchar_gives_iff, String.toList_append]
  split
  case isTrue hlt =>
    refine exists_congr fun n => and_congr_right fun hn => ?_
    rw [List.getElem?_append_left (by rw [String.length_toList]; omega)]
  case isFalse hge =>
    have hsub : (i - Int64.ofNat a.length).toInt = i.toInt - a.length := by
      have hhigh := i.toInt_lt
      rw [Int64.toInt_sub, Int64.toInt_ofNat_of_lt ha]
      exact Int.bmod_eq_of_le_mul_two (by omega) (by omega)
    rw [hsub]
    constructor
    · rintro ⟨n, hn, c, hc, hx⟩
      rw [List.getElem?_append_right (by rw [String.length_toList]; omega), String.length_toList] at hc
      exact ⟨n - a.length, by omega, c, hc, hx⟩
    · rintro ⟨n, hn, c, hc, hx⟩
      refine ⟨a.length + n, by omega, c, ?_, hx⟩
      rw [List.getElem?_append_right (by rw [String.length_toList]; omega), String.length_toList,
        Nat.add_sub_cancel_left, hc]

end BinaryOp

/-! ### Collecting characters -/

namespace Machine

/-- The instructions that append `n` characters of a source, from an index on, to a variable `r`: each is taken by
`GETCHAR` to a variable `c`, and appended by `CONCAT`. -/
def collecting (source : Symb) (c r : Variable) (index : Nat) : Nat → List Instruction
  | 0 => []
  | n + 1 =>
    (Action.binary .getchar c source (.const (.int (Int64.ofNat index)))).instruction ::
      (Action.binary .concat r (.var r) (.var c)).instruction :: collecting source c r (index + 1) n

/-- A machine can append characters of the string `a`, the value of a source, to the string `t` in a variable `r` by way of
another variable `c`. -/
structure Collects (m : Machine σ) (source : Symb) (c r : Variable) (a t : String) : Prop where
  value : m.memory.value source = .ok (.string a)
  between : m.memory.HasVariable c
  collected : m.memory.read r = .ok (.string t)
  source_ne_between : source ≠ .var c
  source_ne_collected : source ≠ .var r
  between_ne_collected : c ≠ r

/-- A `GETCHAR` and the `CONCAT` behind it append one character. -/
private theorem Collects.append {p : Program} {m : Machine σ} {source : Symb} {c r : Variable} {a t : String}
    (h : m.Collects source c r a t) {index : Nat} {ch : Char} (hch : a.toList[index]? = some ch)
    (hindex : (Int64.ofNat index).toInt = index)
    (hget : p[m.pc]? = some (Action.binary .getchar c source (.const (.int (Int64.ofNat index)))).instruction)
    (hconcat : p[m.pc + 1]? = some (Action.binary .concat r (.var r) (.var c)).instruction) :
    ∃ m', m.run p 2 = .running m' ∧ m'.pc = m.pc + 2 ∧ m'.Collects source c r a (t ++ String.singleton ch) := by
  have hgives := BinaryOp.getchar_gives_iff.2 ⟨index, hindex, ch, hch, rfl⟩
  obtain ⟨memory, hmemory, hstep⟩ := step_binary hget h.between h.value rfl (BinaryOp.gives_iff.1 hgives)
  let m₁ : Machine σ := { m.enter with memory }
  -- the character is in `c`, and nothing else has changed
  have hr₁ : m₁.memory.value (.var r) = .ok (.string t) :=
    Memory.value_of_assign hmemory (fun heq => h.between_ne_collected (Symb.var.inj heq).symm) h.collected
  have hc₁ : m₁.memory.value (.var c) = .ok (.string (String.singleton ch)) := Memory.read_of_assign hmemory
  obtain ⟨memory', hmemory', hstep'⟩ :=
    step_binary (m := m₁) hconcat (Memory.hasVariable_of_read hr₁) hr₁ hc₁ rfl
  refine ⟨{ m₁.enter with memory := memory' }, ?_, rfl, ?_⟩
  · rw [run_succ_of_running hstep, run_succ_of_running hstep']
    rfl
  · refine ⟨?_, ?_, Memory.read_of_assign hmemory', h.source_ne_between, h.source_ne_collected,
      h.between_ne_collected⟩
    · exact Memory.value_of_assign hmemory' h.source_ne_collected
        (Memory.value_of_assign hmemory h.source_ne_between h.value)
    · have hc₂ : memory'.value (.var c) = .ok (.string (String.singleton ch)) :=
        Memory.value_of_assign hmemory' (fun heq => h.between_ne_collected (Symb.var.inj heq)) hc₁
      exact Memory.hasVariable_of_read hc₂

/-- Instructions that append the characters of a string append just these characters. -/
private theorem run_collecting {p : Program} {m : Machine σ} {source : Symb} {c r : Variable} {a t : String}
    {index n : Nat} (h : m.Collects source c r a t) (hn : index + n ≤ a.length) (ha : a.length < 2 ^ 63)
    (hp : collecting source c r index n <+: p.toList.drop m.pc) :
    ∃ m', m.run p (2 * n) = .running m' ∧
      m'.memory.read r = .ok (.string (t ++ String.ofList ((a.toList.drop index).take n))) := by
  induction n generalizing m t index with
  | zero =>
    refine ⟨m, rfl, ?_⟩
    rw [h.collected]
    simp
  | succ n ih =>
    have hlength : index < a.toList.length := by
      rw [String.length_toList]
      omega
    obtain ⟨rest, hrest⟩ := hp
    have hget : p[m.pc]? = some (Action.binary .getchar c source (.const (.int (Int64.ofNat index)))).instruction := by
      rw [← Array.getElem?_toList, ← List.head?_drop, ← hrest]
      rfl
    have hconcat : p[m.pc + 1]? = some (Action.binary .concat r (.var r) (.var c)).instruction := by
      rw [← Array.getElem?_toList, ← List.getElem?_drop, ← hrest]
      rfl
    obtain ⟨m', hrun, hpc, hcollects⟩ :=
      h.append (List.getElem?_eq_getElem hlength) (Int64.toInt_ofNat_of_lt (by omega)) hget hconcat
    have hp' : collecting source c r (index + 1) n <+: p.toList.drop m'.pc := by
      refine ⟨rest, ?_⟩
      rw [hpc, ← List.drop_drop, ← hrest]
      rfl
    obtain ⟨m'', hrun', hread⟩ := ih hcollects (by omega) hp'
    refine ⟨m'', ?_, ?_⟩
    · rw [Nat.mul_succ, Nat.add_comm, run_add_of_running hrun, hrun']
    · rw [hread, List.drop_eq_getElem_cons hlength, List.take_succ_cons, String.append_assoc]
      simp

/-- Let two strings have fewer than 2^63 characters together. Then `CONCAT` gives a string that is as long as both by
`STRLEN`, and `GETCHAR` finds in it the characters of the first one and behind them those of the second one, at these
indices and no others. `STRI2INT` and `INT2CHAR` together are `GETCHAR`. `INT2CHAR` takes just the code points that are not
surrogates, and gives a string of one character with that code point. The characters of a string, taken by `GETCHAR` at
all indices and appended by `CONCAT` one after another, make that string again. Whatever number `STRI2INT` might fall back
on, it is not used. -/
theorem string_opcodes_agree {a b : String} (h : a.length + b.length < 2 ^ 63) :
    ∃ (ab : Value) (la lb lab : Int64),
      BinaryOp.concat.Gives (.string a) (.string b) (.ok ab) ∧ UnaryOp.strlen.Gives (.string a) (.ok (.int la)) ∧
      UnaryOp.strlen.Gives (.string b) (.ok (.int lb)) ∧ UnaryOp.strlen.Gives ab (.ok (.int lab)) ∧
      lab.toInt = la.toInt + lb.toInt ∧
      (∀ i : Int64,
        ((∃ x, BinaryOp.getchar.Gives ab (.int i) (.ok x)) ↔ 0 ≤ i.toInt ∧ i.toInt < la.toInt + lb.toInt) ∧
        ∀ x, BinaryOp.getchar.Gives ab (.int i) (.ok x) ↔
          if i.toInt < la.toInt then BinaryOp.getchar.Gives (.string a) (.int i) (.ok x)
          else BinaryOp.getchar.Gives (.string b) (.int (i - la)) (.ok x)) ∧
      (∀ i : Int64, 0 ≤ i.toInt → i.toInt < la.toInt → ∃ n x, BinaryOp.stri2int.Gives (.string a) (.int i) (.ok n) ∧
        UnaryOp.int2char.Gives n (.ok x) ∧ BinaryOp.getchar.Gives (.string a) (.int i) (.ok x)) ∧
      (∀ n : Int64,
        ((∃ x, UnaryOp.int2char.Gives (.int n) (.ok x)) ↔
          (0 ≤ n.toInt ∧ n.toInt ≤ 0x10FFFF) ∧ ¬ (0xD800 ≤ n.toInt ∧ n.toInt ≤ 0xDFFF)) ∧
        ∀ x, UnaryOp.int2char.Gives (.int n) (.ok x) →
          BinaryOp.stri2int.Gives x (.int 0) (.ok (.int n)) ∧ UnaryOp.strlen.Gives x (.ok (.int 1))) ∧
      (∀ (σ : Type) [Input σ] (p : Program) (m : Machine σ) (source : Symb) (c r : Variable),
        m.Collects source c r a "" → collecting source c r 0 la.toInt.toNat <+: p.toList.drop m.pc →
        ∃ m', m.run p (2 * la.toInt.toNat) = .running m' ∧ m'.memory.read r = .ok (.string a)) ∧
      ∀ (i fallback : Int64), BinaryOp.stri2int.Gives (.string a) (.int i) (.int <$> codeAt fallback a i) := by
  have hla : (Int64.ofNat a.length).toInt = a.length := Int64.toInt_ofNat_of_lt (by omega)
  have hlb : (Int64.ofNat b.length).toInt = b.length := Int64.toInt_ofNat_of_lt (by omega)
  have hlab : (Int64.ofNat (a ++ b).length).toInt = a.length + b.length := by
    rw [String.length_append, Int64.toInt_ofNat_of_lt h]
    omega
  refine ⟨.string (a ++ b), Int64.ofNat a.length, Int64.ofNat b.length, Int64.ofNat (a ++ b).length,
    BinaryOp.concat_gives a b, UnaryOp.strlen_gives a, UnaryOp.strlen_gives b, UnaryOp.strlen_gives (a ++ b), ?_⟩
  rw [hla, hlb, hlab, Int.toNat_natCast]
  refine ⟨rfl, ?_, ?_, ?_, ?_, ?_⟩
  · intro i
    refine ⟨?_, fun x => BinaryOp.getchar_append_gives_iff (by omega)⟩
    rw [BinaryOp.exists_getchar_gives_iff, String.length_append]
    omega
  · intro i hlow hhigh
    obtain ⟨n, hi, c, hc⟩ := exists_getElem?_iff.2 ⟨hlow, hhigh⟩
    exact ⟨_, _, BinaryOp.stri2int_gives_iff.2 ⟨n, hi, c, hc, rfl⟩,
      UnaryOp.int2char_gives_iff.2 ⟨c, toInt_ofNat_toNat c, rfl⟩, BinaryOp.getchar_gives_iff.2 ⟨n, hi, c, hc, rfl⟩⟩
  · intro n
    refine ⟨?_, ?_⟩
    · simp only [UnaryOp.int2char_gives_iff]
      rw [← exists_toNat_eq_iff]
      constructor
      · rintro ⟨x, c, hc, _⟩
        exact ⟨c, hc⟩
      · rintro ⟨c, hc⟩
        exact ⟨_, c, hc, rfl⟩
    · intro x hx
      obtain ⟨c, hc, rfl⟩ := UnaryOp.int2char_gives_iff.1 hx
      have hn : n = Int64.ofNat c.toNat := Int64.toInt_inj.1 (by rw [hc, toInt_ofNat_toNat])
      refine ⟨BinaryOp.stri2int_gives_iff.2 ⟨0, rfl, c, ?_, congrArg Value.int hn⟩, ?_⟩
      · simp
      · have hone := UnaryOp.strlen_gives (String.singleton c)
        rw [String.length_singleton] at hone
        exact hone
  · intro σ _ p m source c r hcollects hp
    obtain ⟨m', hrun, hread⟩ := run_collecting hcollects (by omega) (by omega) hp
    refine ⟨m', hrun, ?_⟩
    rw [hread]
    simp [← String.length_toList]
  · intro i fallback
    rw [BinaryOp.gives_iff, codeAt_eq]
    cases hc : charAt a i <;> simp [BinaryOp.eval, hc]

/-- Characters of two and four bytes: one index for each, and a program that takes a string apart and makes it again. -/
theorem string_opcodes_agree_beyond_ascii :
    let c : Variable := ⟨.global, "x"⟩
    let r : Variable := ⟨.temporary, "x"⟩
    let p : Program := (collecting (.const (.string "ků")) c r 0 2).toArray
    let m : Machine Source :=
      { fresh (Source.lines []) {} {} with
        memory := ⟨⟨[("x", none)], List.pairwise_singleton _ _⟩, [],
          some ⟨[("x", some (.string ""))], List.pairwise_singleton _ _⟩⟩ }
    "ků".length + "😀".length < 2 ^ 63 ∧
      (∃ ab, BinaryOp.concat.Gives (.string "ků") (.string "😀") (.ok ab) ∧
        BinaryOp.getchar.Gives ab (.int 2) (.ok (.string "😀")) ∧ ¬ ∃ x, BinaryOp.getchar.Gives ab (.int 3) (.ok x)) ∧
      ∃ m', m.run p 4 = .running m' ∧ m'.memory.read r = .ok (.string "ků") := by
  intro c r p m
  have hlength : "ků".length + "😀".length < 2 ^ 63 := by decide
  obtain ⟨ab, la, lb, lab, hconcat, hla, hlb, _, _, hget, _, _, hcollect, _⟩ := string_opcodes_agree hlength
  obtain rfl : Int64.ofNat 2 = la := Value.int.inj (Except.ok.inj (UnaryOp.gives_iff.1 hla))
  obtain rfl : Int64.ofNat 1 = lb := Value.int.inj (Except.ok.inj (UnaryOp.gives_iff.1 hlb))
  refine ⟨hlength, ⟨ab, hconcat, ?_, ?_⟩, ?_⟩
  · refine ((hget 2).2 _).2 ?_
    rw [if_neg (by decide)]
    exact BinaryOp.getchar_gives_iff.2 ⟨0, by decide, '😀', by decide, by decide⟩
  · rw [(hget 3).1]
    decide
  · have hcollects : m.Collects (.const (.string "ků")) c r "ků" "" :=
      ⟨rfl, ⟨_, rfl, by decide⟩, rfl, by simp, by simp, by decide⟩
    exact hcollect Source p m _ c r hcollects ⟨[], rfl⟩

end Machine

end IPPcode23
