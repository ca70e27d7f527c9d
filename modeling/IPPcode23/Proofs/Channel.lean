import IPPcode23.Channel

/-!
# Answers of an input

What an input is to a machine: the answers that its reads give one after another. An input may supply lines and then
nothing any more (`Supplies`), as lines that are apart do (`supplies_lines`) and a reader that does not fail
(`supplies_bytes`). A read of a reader that fails takes the bytes before the failure with it (`takes_takeLine`).
-/

namespace IPPcode23

namespace Input

variable {σ : Type} [Input σ]

/-- What the next read gives. -/
def answer (s : σ) : Answer :=
  (read s).1

/-- What the next read leaves. -/
def advance (s : σ) : σ :=
  (read s).2

/-- What `n` reads leave. -/
def after : (n : Nat) → σ → σ
  | 0, s => s
  | n + 1, s => after n (advance s)

/-- The input holds just these lines: its reads give them one after another, and from then on the end of the input. -/
def Supplies (s : σ) (lines : List String) : Prop :=
  ∀ n, answer (after n s) = .ok lines[n]?

theorem Supplies.answer_eq {s : σ} {lines : List String} (h : Supplies s lines) : answer s = .ok lines.head? := by
  rw [List.head?_eq_getElem?]
  exact h 0

theorem Supplies.advance {s : σ} {lines : List String} (h : Supplies s lines) : Supplies (advance s) lines.tail := by
  intro n
  rw [List.getElem?_tail]
  exact h (n + 1)

/-- Lines are supplied if the first one is given and the others are held afterwards, in every state that holds lines. -/
private theorem supplies_of_holds {P : σ → List String → Prop}
    (hread : ∀ s lines, P s lines → answer s = .ok lines.head? ∧ P (advance s) lines.tail) {s : σ}
    {lines : List String} (h : P s lines) : Supplies s lines := by
  intro n
  induction n generalizing s lines with
  | zero =>
    rw [← List.head?_eq_getElem?]
    exact (hread s lines h).1
  | succ n ih =>
    rw [← List.getElem?_tail]
    exact ih (hread s lines h).2

end Input

namespace Delivery

/-- What is taken off the deliveries of a reader, and what is left. -/
inductive Takes : List Delivery → Except ChannelFault (Option (List UInt8)) → List Delivery → Prop where
  /-- The input has ended. -/
  | atEnd : Takes [] (.ok none) []
  /-- A line with its ending, to which a carriage return before the line feed belongs. -/
  | line {l ending : List UInt8} {rest : List Delivery} (hline : 10 ∉ l)
    (hending : ending = [13, 10] ∨ ending = [10] ∧ l.getLast? ≠ some 13) :
    Takes ((l ++ ending).map .byte ++ rest) (.ok (some l)) rest
  /-- A last line without an ending. -/
  | lastLine {l : List UInt8} (hl : l ≠ []) (hline : 10 ∉ l) : Takes (l.map .byte) (.ok (some l)) []
  /-- The reader fails, and what it has delivered of the line is lost. -/
  | failure {l : List UInt8} {cause : ChannelFault} {rest : List Delivery} (hline : 10 ∉ l) :
    Takes (l.map .byte ++ .failure cause :: rest) (.error cause) rest

/-- A byte that does not belong to the ending of a line is put in front of what is taken. -/
private theorem Takes.cons {b : UInt8} {rest left : List Delivery} {taken : Except ChannelFault (Option (List UInt8))}
    (h : Takes rest taken left) (hlf : b ≠ 10) (hcr : ¬ (b = 13 ∧ rest.head? = some (.byte 10))) :
    Takes (.byte b :: rest) (taken.map fun line? => some (b :: line?.getD [])) left := by
  have hnot : ∀ {l : List UInt8}, 10 ∉ l → 10 ∉ b :: l := by
    intro l hl hmem
    rcases List.mem_cons.1 hmem with h | h
    · exact hlf h.symm
    · exact hl h
  cases h with
  | atEnd => exact Takes.lastLine (l := [b]) (by simp) (hnot (by simp))
  | @line l ending _ hline hending =>
    refine Takes.line (l := b :: l) (hnot hline) ?_
    rcases hending with hending | ⟨rfl, hlast⟩
    · exact Or.inl hending
    · refine Or.inr ⟨rfl, ?_⟩
      cases l with
      | nil =>
        -- a carriage return here would belong to the ending
        intro hb
        exact hcr ⟨by simpa using hb, rfl⟩
      | cons c l => simpa using hlast
  | lastLine _ hline => exact Takes.lastLine (by simp) (hnot hline)
  | @failure l _ _ hline => exact Takes.failure (l := b :: l) (hnot hline)

theorem takes_takeLine (ds : List Delivery) : Takes ds (takeLine ds).1 (takeLine ds).2 := by
  induction ds with
  | nil => exact .atEnd
  | cons d rest ih =>
    cases d with
    | failure cause => exact Takes.failure (l := []) (by simp)
    | byte b =>
      rw [takeLine]
      by_cases hlf : b = 10
      · rw [if_pos hlf, hlf]
        exact Takes.line (l := []) (by simp) (Or.inr ⟨rfl, by simp⟩)
      by_cases hcr : b = 13 ∧ rest.head? = some (.byte 10)
      · rw [if_neg hlf, if_pos hcr]
        obtain ⟨rest', rfl⟩ := List.head?_eq_some_iff.1 hcr.2
        rw [hcr.1]
        exact Takes.line (l := []) (by simp) (Or.inl rfl)
      rw [if_neg hlf, if_neg hcr]
      have hcons := ih.cons hlf hcr
      cases hrest : takeLine rest with
      | mk taken left =>
        rw [hrest] at hcons
        cases taken <;> exact hcons

/-- A reader that does not fail delivers the lines of its bytes. -/
private theorem takeLine_bytes (bs : List UInt8) :
    takeLine (bs.map .byte) =
      match Text.takeLine? 10 13 bs with
      | none => (.ok none, [])
      | some (line, rest) => (.ok (some line), rest.map .byte) := by
  induction bs with
  | nil => rfl
  | cons b bs ih =>
    have hhead : (bs.map Delivery.byte).head? = some (.byte 10) ↔ bs.head? = some 10 := by
      cases bs <;> simp
    rw [List.map_cons, takeLine, Text.takeLine?]
    by_cases hlf : b = 10
    · simp [hlf]
    · by_cases hcr : b = 13 ∧ bs.head? = some 10
      · simp [hcr]
      · have hcr' : ¬ (b = 13 ∧ (bs.map Delivery.byte).head? = some (.byte 10)) := by rwa [hhead]
        rw [if_neg hlf, if_neg hcr', if_neg hlf, if_neg hcr, ih]
        cases Text.takeLine? 10 13 bs <;> rfl

end Delivery

namespace Source

open Input

theorem supplies_lines (ls : List String) : Supplies (lines ls) ls := by
  refine supplies_of_holds (P := fun s ls => s = lines ls) ?_ rfl
  rintro _ ls rfl
  cases ls <;> exact ⟨rfl, rfl⟩

theorem supplies_bytes (bs : List UInt8) : Supplies (bytes bs) ((Text.splitLines 10 13 bs).map Text.Utf8.decode) := by
  refine supplies_of_holds
    (P := fun s ls => ∃ bs, s = bytes bs ∧ ls = (Text.splitLines 10 13 bs).map Text.Utf8.decode) ?_ ⟨bs, rfl, rfl⟩
  rintro _ _ ⟨bs, rfl, rfl⟩
  have hnext : next (bytes bs) = _ := congrArg (fun r => (r.1.map (·.map Text.Utf8.decode), reader r.2))
    (Delivery.takeLine_bytes bs)
  rw [answer, advance]
  show (next (bytes bs)).1 = _ ∧ ∃ bs', (next (bytes bs)).2 = _ ∧ _
  rw [hnext, Text.splitLines_eq_takeLine?]
  cases hline : Text.takeLine? 10 13 bs with
  | none => exact ⟨rfl, [], rfl, rfl⟩
  | some r => exact ⟨rfl, r.2, rfl, rfl⟩

/-- What a read of a source takes off it. -/
inductive Takes : Source → Answer → Source → Prop where
  | line {line : String} {pending : List String} : Takes (lines (line :: pending)) (.ok (some line)) (lines pending)
  | noLine : Takes (lines []) (.ok none) (lines [])
  | delivery {ds rest : List Delivery} {line? : Except ChannelFault (Option (List UInt8))}
    (h : Delivery.Takes ds line? rest) : Takes (reader ds) (line?.map (·.map Text.Utf8.decode)) (reader rest)

theorem takes_read (s : Source) : Takes s (answer s) (advance s) := by
  match s with
  | lines [] => exact .noLine
  | lines (_ :: _) => exact .line
  | reader ds => exact .delivery (Delivery.takes_takeLine ds)

end Source

theorem Sink.fits_of_limit {s : Sink} (h : s.limit = none) (text : String) : s.fits text = true := by
  rw [fits, h]

end IPPcode23
