import IPPcode23.Proofs.Channel
import IPPcode23.Proofs.Text.Utf8

/-!
# Reading an input to its end

What the reads of an input give one after another: the lines that it supplies, and nothing from then on (`reads_eq`). So
it makes no difference whether bytes are cut into lines and each line is read as text, or are read as text first
(`bytes_read_as_text`).
-/

namespace IPPcode23

/-- What the first `n` reads of an input give. -/
def Input.reads {σ : Type} [Input σ] : (n : Nat) → σ → List Answer
  | 0, _ => []
  | n + 1, s => answer s :: reads n (advance s)

/-- The reads of an input give the lines that it supplies, and then nothing for ever. -/
theorem Input.reads_eq {σ : Type} [Input σ] {s : σ} {lines : List String} (h : Supplies s lines) (n : Nat) :
    reads n s = (List.range n).map (.ok lines[·]?) := by
  induction n generalizing s lines with
  | zero => rfl
  | succ n ih =>
    rw [reads, ih h.advance, h.answer_eq, List.range_succ_eq_map, List.map_cons, List.map_map]
    simp [Function.comp_def, List.head?_eq_getElem?]

namespace Source

open Input

/-- Bytes supply the lines of the text that they are as a whole. -/
private theorem supplies_bytes_decode (bs : List UInt8) : Supplies (bytes bs) (Text.lines (Text.Utf8.decode bs)) := by
  rw [Text.Utf8.lines_decode]
  exact supplies_bytes bs

theorem supplies_bytes_toUTF8 (text : String) : Supplies (bytes text.toUTF8.toList) (Text.lines text) := by
  have h := supplies_bytes_decode text.toUTF8.toList
  rwa [Text.Utf8.decode_toUTF8] at h

theorem supplies_ofText (text : String) : Supplies (ofText text) (Text.lines text) :=
  supplies_lines _

/-- Bytes that are read line by line give the lines of the text that they are as a whole, and then nothing for ever.
In particular the bytes of a text give the lines of that text. -/
theorem bytes_read_as_text (n : Nat) :
    (∀ bs : List UInt8, reads n (bytes bs) = reads n (ofText (Text.Utf8.decode bs)) ∧
      reads n (bytes bs) = (List.range n).map (.ok (Text.lines (Text.Utf8.decode bs))[·]?)) ∧
    ∀ text : String, reads n (bytes text.toUTF8.toList) = reads n (ofText text) := by
  refine ⟨fun bs => ⟨?_, reads_eq (supplies_bytes_decode bs) n⟩, fun text => ?_⟩
  · rw [reads_eq (supplies_bytes_decode bs), reads_eq (supplies_ofText _)]
  · rw [reads_eq (supplies_bytes_toUTF8 text), reads_eq (supplies_ofText text)]

/-- A character broken off before each of the two line endings, and a carriage return at the end of the input. -/
example : reads 4 (bytes [0xE2, 0x82, 0x0D, 0x0A, 0xC3, 0x0A, 0x61, 0x0D]) =
    [.ok (some "�"), .ok (some "�"), .ok (some "a\r"), .ok none] := by
  decide

end Source

end IPPcode23
