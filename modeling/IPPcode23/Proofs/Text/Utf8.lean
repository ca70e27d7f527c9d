import IPPcode23.Proofs.Literal.Escape
import IPPcode23.Proofs.Text.Line
import IPPcode23.Text.Utf8
import Mathlib.Data.List.Basic
import Mathlib.Data.Nat.Init

/-!
# Characters and bytes

A byte below 0x80 is a character of its own wherever it stands: it ends what is not well formed before it, and reading
goes on afresh behind it (`decodeFrom_append_ascii`). No other bytes give that character. So the lines of a text are
those of its bytes, read one by one (`lines_decode`). The bytes of a text read back as that text (`decode_toUTF8`).
-/

namespace IPPcode23.Text.Utf8

/-! ### One byte -/

/-- States that bytes lead to: inside a character, every byte to come is at least 0x80, and the character is not one
that a single byte stands for. -/
def State.BeyondAscii : State → Prop
  | idle => True
  | pending bits more low _ =>
    0x80 ≤ low ∧ 2 ≤ 64 * bits + (low - 0x80) ∧ (more = 0 → 0x80 ≤ 64 * bits + (low - 0x80))

/-- What reading a byte can do. A byte below 0x80 is a character of its own. Any other one gives characters beyond
those, or leaves one open. The number 0 stands beside them as that of what would be no character. -/
inductive Reads (s : State) (b : UInt8) : List Char × State → Prop where
  | ascii (hb : b.toNat < 0x80) : Reads s b (finish s ++ [Char.ofNat b.toNat], .idle)
  | other {cs : List Char} {s' : State} (hb : 0x80 ≤ b.toNat) (hcs : ∀ c ∈ cs, c.toNat = 0 ∨ 0x80 ≤ c.toNat)
    (hs' : s'.BeyondAscii) (hopen : cs ≠ [] ∨ s' ≠ .idle) : Reads s b (cs, s')

private theorem toNat_replacement : replacement.toNat = 0xFFFD := rfl

private theorem toNat_ofNat_or (n : Nat) : (Char.ofNat n).toNat = n ∨ (Char.ofNat n).toNat = 0 := by
  by_cases h : n.isValidChar
  · exact Or.inl (Literal.toNat_ofNat h)
  · right
    unfold Char.ofNat
    rw [dif_neg h]
    rfl

private theorem reads_start (b : UInt8) : Reads .idle b (start b) := by
  by_cases hb : b.toNat < 0x80
  · simp only [start, if_pos hb]
    exact .ascii hb
  · have hb' : 0x80 ≤ b.toNat := by omega
    have hpending : ∀ {bits more low high}, State.BeyondAscii (.pending bits more low high) →
        Reads .idle b ([], .pending bits more low high) := by
      intro bits more low high h
      exact .other hb' (by simp) h (Or.inr (by simp))
    simp only [start, if_neg hb]
    -- every first byte of a longer character opens it with room for characters beyond ASCII only
    split_ifs
    case neg => exact .other hb' (by simp [toNat_replacement]) trivial (Or.inl (by simp))
    all_goals
      apply hpending
      simp only [State.BeyondAscii]
      omega

private theorem reads_step {s : State} (h : s.BeyondAscii) (b : UInt8) : Reads s b (step s b) := by
  cases s with
  | idle => exact reads_start b
  | pending bits more low high =>
    simp only [State.BeyondAscii] at h
    by_cases hb : low ≤ b.toNat ∧ b.toNat ≤ high
    · have hb' : 0x80 ≤ b.toNat := by omega
      cases more with
      | zero =>
        simp only [step, if_pos hb]
        refine .other hb' ?_ trivial (Or.inl (by simp))
        intro c hc
        rw [List.mem_singleton.1 hc]
        rcases toNat_ofNat_or (64 * bits + (b.toNat - 0x80)) with heq | hzero
        · exact Or.inr (by omega)
        · exact Or.inl hzero
      | succ n =>
        simp only [step, if_pos hb]
        refine .other hb' (by simp) ?_ (Or.inr (by simp))
        simp only [State.BeyondAscii]
        omega
    · -- the byte breaks the character off and is read as a first one
      have hstart := reads_start b
      simp only [step, if_neg hb]
      generalize start b = r at hstart
      cases hstart with
      | ascii hb => exact .ascii hb
      | other hb hcs hs' _ =>
        refine .other hb ?_ hs' (Or.inl (by simp))
        intro c hc
        rcases List.mem_cons.1 hc with rfl | hc
        · exact Or.inr (by rw [toNat_replacement]; omega)
        · exact hcs c hc

private theorem beyondAscii_step {s : State} (h : s.BeyondAscii) (b : UInt8) : (step s b).2.BeyondAscii := by
  have hreads := reads_step h b
  generalize step s b = r at hreads
  cases hreads with
  | ascii => trivial
  | other _ _ hs' _ => exact hs'

private theorem step_of_ascii {s : State} (h : s.BeyondAscii) {b : UInt8} (hb : b.toNat < 0x80) :
    step s b = (finish s ++ [Char.ofNat b.toNat], .idle) := by
  have hreads := reads_step h b
  generalize step s b = r at hreads
  cases hreads with
  | ascii => rfl
  | other hb' => omega

/-- A character that one byte stands for, NUL apart, comes from that byte. -/
private theorem toNat_of_mem_step {s : State} (h : s.BeyondAscii) {b : UInt8} {c : Char} (hc : c ∈ (step s b).1)
    (hpos : 0 < c.toNat) (hascii : c.toNat < 0x80) : b.toNat = c.toNat := by
  have hreads := reads_step h b
  generalize step s b = r at hreads hc
  cases hreads with
  | ascii hb =>
    rcases List.mem_append.1 hc with hc | hc
    · cases s with
      | idle => cases hc
      | pending =>
        rw [List.mem_singleton.1 hc, toNat_replacement] at hascii
        omega
    · rw [List.mem_singleton.1 hc] at hpos ⊢
      rcases toNat_ofNat_or b.toNat with heq | hzero <;> omega
  | other _ hcs =>
    have hrange := hcs c hc
    omega

/-! ### Sequences of bytes -/

private theorem decodeFrom_cons (s : State) (b : UInt8) (bs : List UInt8) :
    decodeFrom s (b :: bs) = (step s b).1 ++ decodeFrom (step s b).2 bs :=
  rfl

/-- A byte below 0x80 cuts a sequence in two that are read apart. -/
theorem decodeFrom_append_ascii {s : State} (h : s.BeyondAscii) {b : UInt8} (hb : b.toNat < 0x80) (xs ys : List UInt8) :
    decodeFrom s (xs ++ b :: ys) = decodeFrom s xs ++ Char.ofNat b.toNat :: decodeFrom .idle ys := by
  induction xs generalizing s with
  | nil => simp [decodeFrom_cons, step_of_ascii h hb, decodeFrom]
  | cons x xs ih =>
    rw [List.cons_append, decodeFrom_cons, decodeFrom_cons, ih (beyondAscii_step h x), List.append_assoc]

private theorem decodeFrom_cons_ne_nil {s : State} (h : s.BeyondAscii) (b : UInt8) (bs : List UInt8) :
    decodeFrom s (b :: bs) ≠ [] := by
  induction bs generalizing s b with
  | nil =>
    have hreads := reads_step h b
    rw [decodeFrom_cons]
    generalize step s b = r at hreads
    cases hreads with
    | ascii => simp
    | @other cs s' _ _ _ hopen =>
      cases s' with
      | idle => simpa [decodeFrom, finish] using hopen
      | pending => simp [decodeFrom, finish]
  | cons b' bs ih =>
    rw [decodeFrom_cons]
    exact List.append_ne_nil_of_right_ne_nil _ (ih (beyondAscii_step h b) b')

private theorem exists_mem_of_mem_decodeFrom {s : State} (h : s.BeyondAscii) {bs : List UInt8} {c : Char}
    (hc : c ∈ decodeFrom s bs) (hpos : 0 < c.toNat) (hascii : c.toNat < 0x80) : ∃ b ∈ bs, b.toNat = c.toNat := by
  induction bs generalizing s with
  | nil =>
    cases s with
    | idle => cases hc
    | pending =>
      have hc : c = replacement := List.mem_singleton.1 hc
      rw [hc, toNat_replacement] at hascii
      omega
  | cons b bs ih =>
    rw [decodeFrom_cons, List.mem_append] at hc
    rcases hc with hc | hc
    · exact ⟨b, List.mem_cons_self, toNat_of_mem_step h hc hpos hascii⟩
    · obtain ⟨b', hb', heq⟩ := ih (beyondAscii_step h b) hc
      exact ⟨b', List.mem_cons_of_mem b hb', heq⟩

private theorem exists_getLast?_of_decodeFrom {s : State} (h : s.BeyondAscii) {bs : List UInt8} {c : Char}
    (hc : (decodeFrom s bs).getLast? = some c) (hpos : 0 < c.toNat) (hascii : c.toNat < 0x80) :
    ∃ b, bs.getLast? = some b ∧ b.toNat = c.toNat := by
  induction bs generalizing s with
  | nil =>
    obtain ⟨b, hb, _⟩ := exists_mem_of_mem_decodeFrom h (List.mem_of_getLast? hc) hpos hascii
    cases hb
  | cons b bs ih =>
    cases bs with
    | nil =>
      obtain ⟨b', hb', heq⟩ := exists_mem_of_mem_decodeFrom h (List.mem_of_getLast? hc) hpos hascii
      exact ⟨b', by rw [List.mem_singleton.1 hb']; rfl, heq⟩
    | cons b' bs =>
      -- the last character is one of the last bytes, which give at least one
      have hne := decodeFrom_cons_ne_nil (beyondAscii_step h b) b' bs
      rw [decodeFrom_cons, List.getLast?_append_of_ne_nil _ hne] at hc
      rw [List.getLast?_cons_cons]
      exact ih (beyondAscii_step h b) hc

/-! ### Lines -/

private theorem lf_not_mem_decodeFrom {bs : List UInt8} (h : 10 ∉ bs) : '\n' ∉ decodeFrom .idle bs := by
  intro hc
  obtain ⟨b, hb, heq⟩ := exists_mem_of_mem_decodeFrom (s := .idle) trivial hc (by decide) (by decide)
  have hb10 : b = 10 := UInt8.toNat_inj.1 heq
  exact h (hb10 ▸ hb)

private theorem cr_not_last_decodeFrom {bs : List UInt8} (h : bs.getLast? ≠ some 13) :
    (decodeFrom .idle bs).getLast? ≠ some '\r' := by
  intro hc
  obtain ⟨b, hb, heq⟩ := exists_getLast?_of_decodeFrom (s := .idle) trivial hc (by decide) (by decide)
  have hb13 : b = 13 := UInt8.toNat_inj.1 heq
  exact h (hb13 ▸ hb)

private theorem decodeFrom_append_lf (xs ys : List UInt8) :
    decodeFrom .idle (xs ++ 10 :: ys) = decodeFrom .idle xs ++ '\n' :: decodeFrom .idle ys :=
  decodeFrom_append_ascii (s := .idle) trivial (b := 10) (by decide) xs ys

private theorem decodeFrom_append_cr_lf (xs ys : List UInt8) :
    decodeFrom .idle (xs ++ 13 :: 10 :: ys) = decodeFrom .idle xs ++ '\r' :: '\n' :: decodeFrom .idle ys := by
  have hcr := decodeFrom_append_ascii (s := .idle) trivial (b := 13) (by decide) xs (10 :: ys)
  have hlf := decodeFrom_append_lf [] ys
  rw [List.nil_append] at hlf
  rw [hcr, hlf]
  rfl

/-- Reading bytes as text and cutting the text into lines comes to the same as cutting the bytes into lines and reading
each one. -/
private theorem splitLines_decodeFrom (bs : List UInt8) :
    splitLines '\n' '\r' (decodeFrom .idle bs) = (splitLines 10 13 bs).map (decodeFrom .idle) := by
  induction hn : bs.length using Nat.strong_induction_on generalizing bs with
  | _ n ih =>
    subst hn
    rcases line_cases (10 : UInt8) 13 bs with rfl | ⟨hne, hlf⟩ | ⟨line, rest, hlf, hcr, rfl⟩ | ⟨line, rest, hlf, rfl⟩
    · rfl
    · obtain ⟨b, bs, rfl⟩ := List.exists_cons_of_ne_nil hne
      have hne' : decodeFrom .idle (b :: bs) ≠ [] := decodeFrom_cons_ne_nil (s := .idle) trivial b bs
      rw [splitLines_of_not_mem hne hlf, splitLines_of_not_mem hne' (lf_not_mem_decodeFrom hlf)]
      rfl
    · have hrest := ih rest.length (by simp; omega) rest rfl
      rw [decodeFrom_append_lf, splitLines_append_lf hlf hcr,
        splitLines_append_lf (lf_not_mem_decodeFrom hlf) (cr_not_last_decodeFrom hcr), hrest]
      rfl
    · have hrest := ih rest.length (by simp; omega) rest rfl
      rw [decodeFrom_append_cr_lf, splitLines_append_cr_lf (by decide) hlf,
        splitLines_append_cr_lf (by decide) (lf_not_mem_decodeFrom hlf), hrest]
      rfl

theorem lines_decode (bs : List UInt8) : lines (decode bs) = (splitLines 10 13 bs).map decode := by
  unfold lines decode
  rw [String.toList_ofList, splitLines_decodeFrom, List.map_map]
  rfl

/-! ### Bytes of a text -/

private theorem toNat_ofNat_byte {b : Nat} (hb : b < 256) : (UInt8.ofNat b).toNat = b := by
  rw [UInt8.toNat_ofNat']
  omega

private theorem decodeFrom_first {b : UInt8} {s : State} (hstart : start b = ([], s)) (rest : List UInt8) :
    decodeFrom .idle (b :: rest) = decodeFrom s rest := by
  rw [decodeFrom_cons, step, hstart, List.nil_append]

private theorem decodeFrom_middle {bits more low high b : Nat} (hb : b < 256) (hlow : low ≤ b) (hhigh : b ≤ high)
    (rest : List UInt8) :
    decodeFrom (.pending bits (more + 1) low high) (UInt8.ofNat b :: rest) =
      decodeFrom (.pending (64 * bits + (b - 0x80)) more 0x80 0xBF) rest := by
  simp only [decodeFrom_cons, step, toNat_ofNat_byte hb, if_pos (And.intro hlow hhigh), List.nil_append]

private theorem decodeFrom_last {bits low high b : Nat} (hb : b < 256) (hlow : low ≤ b) (hhigh : b ≤ high)
    (rest : List UInt8) :
    decodeFrom (.pending bits 0 low high) (UInt8.ofNat b :: rest) =
      Char.ofNat (64 * bits + (b - 0x80)) :: decodeFrom .idle rest := by
  simp only [decodeFrom_cons, step, toNat_ofNat_byte hb, if_pos (And.intro hlow hhigh), List.cons_append,
    List.nil_append]

private theorem decodeFrom_two {v : Nat} (hlow : 0x80 ≤ v) (hhigh : v ≤ 0x7FF) (rest : List UInt8) :
    decodeFrom .idle (UInt8.ofNat (v / 64 % 32 + 192) :: UInt8.ofNat (v % 64 + 128) :: rest) =
      Char.ofNat v :: decodeFrom .idle rest := by
  have hstart : start (UInt8.ofNat (v / 64 % 32 + 192)) = ([], .pending (v / 64) 0 0x80 0xBF) := by
    simp only [start, toNat_ofNat_byte (show v / 64 % 32 + 192 < 256 by omega)]
    rw [if_neg (by omega), if_pos (by omega), show v / 64 % 32 + 192 - 192 = v / 64 by omega]
  have hv : 64 * (v / 64) + (v % 64 + 128 - 0x80) = v := by omega
  rw [decodeFrom_first hstart, decodeFrom_last (by omega) (by omega) (by omega), hv]

/-- The second byte of three after which the range of the character is settled. -/
private theorem exists_start_three {v : Nat} (hlow : 0x800 ≤ v) (hhigh : v ≤ 0xFFFF) (hvalid : v.isValidChar) :
    ∃ low high, start (UInt8.ofNat (v / 4096 % 16 + 224)) = ([], .pending (v / 4096) 1 low high) ∧
      low ≤ v / 64 % 64 + 128 ∧ v / 64 % 64 + 128 ≤ high := by
  have hsub : v / 4096 % 16 + 224 - 224 = v / 4096 := by omega
  have hvalid : v < 0xD800 ∨ 0xDFFF < v := by
    rcases hvalid with h | h
    · exact Or.inl h
    · exact Or.inr h.1
  simp only [start, toNat_ofNat_byte (show v / 4096 % 16 + 224 < 256 by omega)]
  rw [if_neg (by omega), if_neg (by omega)]
  by_cases hfirst : v / 4096 = 0
  · refine ⟨0xA0, 0xBF, ?_, by omega, by omega⟩
    rw [if_pos (by omega), hfirst]
  · by_cases hsurrogate : v / 4096 = 0xD
    · refine ⟨0x80, 0x9F, ?_, by omega, by omega⟩
      rw [if_neg (by omega), if_pos (by omega), hsurrogate]
    · refine ⟨0x80, 0xBF, ?_, by omega, by omega⟩
      rw [if_neg (by omega), if_neg (by omega), if_pos (by omega), hsub]

private theorem decodeFrom_three {v : Nat} (hlow : 0x800 ≤ v) (hhigh : v ≤ 0xFFFF) (hvalid : v.isValidChar)
    (rest : List UInt8) :
    decodeFrom .idle (UInt8.ofNat (v / 4096 % 16 + 224) :: UInt8.ofNat (v / 64 % 64 + 128) ::
      UInt8.ofNat (v % 64 + 128) :: rest) = Char.ofNat v :: decodeFrom .idle rest := by
  obtain ⟨low, high, hstart, hl, hh⟩ := exists_start_three hlow hhigh hvalid
  have hv : 64 * (64 * (v / 4096) + (v / 64 % 64 + 128 - 0x80)) + (v % 64 + 128 - 0x80) = v := by omega
  rw [decodeFrom_first hstart, decodeFrom_middle (by omega) hl hh, decodeFrom_last (by omega) (by omega) (by omega), hv]

private theorem exists_start_four {v : Nat} (hlow : 0x10000 ≤ v) (hhigh : v ≤ 0x10FFFF) :
    ∃ low high, start (UInt8.ofNat (v / 262144 % 8 + 240)) = ([], .pending (v / 262144) 2 low high) ∧
      low ≤ v / 4096 % 64 + 128 ∧ v / 4096 % 64 + 128 ≤ high := by
  have hsub : v / 262144 % 8 + 240 - 240 = v / 262144 := by omega
  simp only [start, toNat_ofNat_byte (show v / 262144 % 8 + 240 < 256 by omega)]
  rw [if_neg (by omega), if_neg (by omega), if_neg (by omega), if_neg (by omega), if_neg (by omega)]
  by_cases hfirst : v / 262144 = 0
  · refine ⟨0x90, 0xBF, ?_, by omega, by omega⟩
    rw [if_pos (by omega), hfirst]
  · by_cases hlast : v / 262144 = 4
    · refine ⟨0x80, 0x8F, ?_, by omega, by omega⟩
      rw [if_neg (by omega), if_neg (by omega), if_pos (by omega), hlast]
    · refine ⟨0x80, 0xBF, ?_, by omega, by omega⟩
      rw [if_neg (by omega), if_pos (by omega), hsub]

private theorem decodeFrom_four {v : Nat} (hlow : 0x10000 ≤ v) (hhigh : v ≤ 0x10FFFF) (rest : List UInt8) :
    decodeFrom .idle (UInt8.ofNat (v / 262144 % 8 + 240) :: UInt8.ofNat (v / 4096 % 64 + 128) ::
      UInt8.ofNat (v / 64 % 64 + 128) :: UInt8.ofNat (v % 64 + 128) :: rest) =
        Char.ofNat v :: decodeFrom .idle rest := by
  obtain ⟨low, high, hstart, hl, hh⟩ := exists_start_four hlow hhigh
  have hv : 64 * (64 * (64 * (v / 262144) + (v / 4096 % 64 + 128 - 0x80)) + (v / 64 % 64 + 128 - 0x80)) +
      (v % 64 + 128 - 0x80) = v := by omega
  rw [decodeFrom_first hstart, decodeFrom_middle (by omega) hl hh,
    decodeFrom_middle (by omega) (by omega) (by omega), decodeFrom_last (by omega) (by omega) (by omega), hv]

/-- The bytes of a character read back as that character, whatever follows. -/
private theorem decodeFrom_utf8EncodeChar (c : Char) (rest : List UInt8) :
    decodeFrom .idle (String.utf8EncodeChar c ++ rest) = c :: decodeFrom .idle rest := by
  have hvalid : c.val.toNat.isValidChar := c.valid
  have hbound : c.val.toNat ≤ 0x10FFFF := by
    rcases hvalid with h | h <;> omega
  have hc : Char.ofNat c.val.toNat = c := Char.ofNat_toNat c
  unfold String.utf8EncodeChar
  dsimp only
  split_ifs with h1 h2 h3
  · have hb := toNat_ofNat_byte (show c.val.toNat < 256 by omega)
    have hascii := decodeFrom_append_ascii (s := .idle) trivial (b := UInt8.ofNat c.val.toNat) (by omega) [] rest
    rw [hb, hc] at hascii
    exact hascii
  · have htwo := decodeFrom_two (by omega) h2 rest
    rwa [hc] at htwo
  · have hthree := decodeFrom_three (by omega) h3 hvalid rest
    rwa [hc] at hthree
  · have hfour := decodeFrom_four (by omega) hbound rest
    rwa [hc] at hfour

private theorem decodeFrom_flatMap_utf8EncodeChar (cs : List Char) :
    decodeFrom .idle (cs.flatMap String.utf8EncodeChar) = cs := by
  induction cs with
  | nil => rfl
  | cons c cs ih => rw [List.flatMap_cons, decodeFrom_utf8EncodeChar, ih]

private theorem toList_loop (bytes : ByteArray) (i : Nat) (r : List UInt8) :
    ByteArray.toList.loop bytes i r = r.reverse ++ bytes.data.toList.drop i := by
  fun_induction ByteArray.toList.loop bytes i r with
  | case1 i r hi ih =>
    have hlength : i < bytes.data.toList.length := by simpa using hi
    rw [ih, List.drop_eq_getElem_cons hlength]
    simp [ByteArray.get!, hi]
  | case2 i r hi =>
    rw [List.drop_eq_nil_of_le (by simpa using Nat.le_of_not_lt hi)]
    simp

private theorem toList_toUTF8 (text : String) : text.toUTF8.toList = text.toList.flatMap String.utf8EncodeChar := by
  have hdata : text.toUTF8.toList = text.toUTF8.data.toList := by
    rw [ByteArray.toList, toList_loop]
    rfl
  rw [hdata, String.toUTF8_eq_toByteArray, ← String.utf8Encode_toList, List.utf8Encode, List.toList_data_toByteArray]

/-- The bytes of a text read back as that text. -/
theorem decode_toUTF8 (text : String) : decode text.toUTF8.toList = text := by
  rw [decode, toList_toUTF8, decodeFrom_flatMap_utf8EncodeChar, String.ofList_toList]

end IPPcode23.Text.Utf8
