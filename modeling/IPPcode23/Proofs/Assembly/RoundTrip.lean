import IPPcode23.Assembly.Printer
import IPPcode23.Proofs.Assembly.Token
import IPPcode23.Proofs.Literal.Escape
import IPPcode23.Proofs.Literal.Integer
import IPPcode23.Proofs.Load
import IPPcode23.Proofs.Text.Line

/-!
# Assembling what was disassembled

The text of a program reads back as that program exactly if the program is valid (`assemble_disassemble_iff`).

* A program that reads back has been assembled, so it is valid.
* In a valid program every operand is written as a single word, and that word reads back as the operand at any position
  of a signature that accepts it (`operand_operandText`). The words of a line and the lines of the text are found again
  because no word holds a separator, a `#` or the end of a line.
-/

namespace IPPcode23

/-! ### Names and mnemonics -/

private theorem ne_of_isSubsequent {c d : Char} (hc : isSubsequent c = true) (hd : isSubsequent d = false) : c ≠ d := by
  rintro rfl
  rw [hc] at hd
  cases hd

private theorem isSubsequent_of_isInitial {c : Char} (h : isInitial c = true) : isSubsequent c = true := by
  simp only [isInitial, isSubsequent, Char.isAlphanum, Bool.or_eq_true] at h ⊢
  rcases h with h | h
  · exact Or.inl (Or.inl h)
  · exact Or.inr h

private theorem isIdentifier_ne_nil {s : String} (h : isIdentifier s = true) : s.toList ≠ [] := by
  intro hnil
  unfold isIdentifier at h
  rw [hnil] at h
  cases h

theorem isSubsequent_of_mem {s : String} (h : isIdentifier s = true) {c : Char} (hc : c ∈ s.toList) :
    isSubsequent c = true := by
  unfold isIdentifier at h
  split at h
  case h_1 => cases h
  case h_2 d ds heq =>
    simp only [Bool.and_eq_true, List.all_eq_true] at h
    rw [heq] at hc
    rcases List.mem_cons.1 hc with rfl | hc
    · exact isSubsequent_of_isInitial h.1
    · exact h.2 c hc

theorem Variable.ofText?_text {v : Variable} (h : isIdentifier v.name = true) : Variable.ofText? v.text = some v := by
  have hmark : '@' ∉ v.frame.mark.toList := by cases v.frame <;> decide
  unfold Variable.ofText? Variable.text
  rw [splitAtSign?_append hmark]
  simp [FrameTag.ofMark?_mark, h]

theorem Opcode.ofMnemonic?_mnemonic (op : Opcode) : Opcode.ofMnemonic? op.mnemonic = some op := by
  have hall : ∀ op ∈ Opcode.all, Opcode.ofMnemonic? op.mnemonic = some op := by decide
  exact hall op (Opcode.mem_all op)

/-- The kind and the text of an operand read back as that operand. -/
theorem Operand.parse_parts {o : Operand} (ho : o.WellNamed) : Operand.parse o.parts.1 o.parts.2 = .ok o := by
  cases o with
  | var v =>
    change Operand.var <$> Variable.parse v.text = _
    unfold Variable.parse
    rw [Variable.ofText?_text (ho v.name rfl)]
    rfl
  | label name =>
    change Operand.parseLabel name = _
    unfold Operand.parseLabel
    rw [if_pos (ho name rfl)]
  | type t => cases t <;> rfl
  | const x =>
    cases x with
    | int n =>
      change Operand.parseInt n.toInt.repr = _
      unfold Operand.parseInt
      rw [Literal.parseInt?_repr]
    | bool b => cases b <;> rfl
    | nil => rfl
    | string s =>
      change (fun s => Operand.const (.string s)) <$> Literal.decodeString (Literal.encodeString s) = _
      unfold Literal.decodeString
      rw [Literal.decodeString?_encodeString]
      rfl

namespace Assembly

private theorem isSeparator_of_isSubsequent {c : Char} (h : isSubsequent c = true) : isSeparator c = false := by
  have hne : ∀ d, isSubsequent d = false → c ≠ d := fun d => ne_of_isSubsequent h
  simp [isSeparator, hne ' ' (by decide), hne '\t' (by decide), hne '\n' (by decide), hne '\x0c' (by decide),
    hne '\r' (by decide)]

private theorem isWord_of_isIdentifier {s : String} (h : isIdentifier s = true) : IsWord s.toList where
  ne_nil := isIdentifier_ne_nil h
  separator _ hc := isSeparator_of_isSubsequent (isSubsequent_of_mem h hc)
  comment hc := ne_of_isSubsequent (isSubsequent_of_mem h hc) (by decide) rfl

/-! ### Words -/

private theorem isWord_append {v w : List Char} (hv : IsWord v) (hsep : ∀ c ∈ w, isSeparator c = false) (hw : '#' ∉ w) :
    IsWord (v ++ w) where
  ne_nil h := hv.ne_nil (List.append_eq_nil_iff.1 h).1
  separator c hc := by
    rcases List.mem_append.1 hc with hc | hc
    · exact hv.separator c hc
    · exact hsep c hc
  comment hc := by
    rcases List.mem_append.1 hc with hc | hc
    · exact hv.comment hc
    · exact hw hc

private theorem isSeparator_of_toNat {c : Char} (h : 0x20 < c.toNat) : isSeparator c = false := by
  have hne : ∀ d : Char, d.toNat ≤ 0x20 → c ≠ d := by
    rintro d hd rfl
    omega
  simp [isSeparator, hne ' ' (by decide), hne '\t' (by decide), hne '\n' (by decide), hne '\x0c' (by decide),
    hne '\r' (by decide)]

theorem isSubsequent_of_mem_repr {n : Int} {c : Char} (h : c ∈ n.repr.toList) : isSubsequent c = true := by
  rcases Literal.isDigit_of_mem_repr h with h | rfl
  · simp [isSubsequent, Char.isAlphanum, h]
  · decide

private theorem isWord_qualified (mark : String) {body : String} (hmark : IsWord (mark ++ "@").toList)
    (hbody : ∀ c ∈ body.toList, isSeparator c = false) (hcomment : '#' ∉ body.toList) :
    IsWord (mark ++ "@" ++ body).toList := by
  rw [String.toList_append]
  exact isWord_append hmark hbody hcomment

private theorem isWord_mark (t : FrameTag) : IsWord (t.mark ++ "@").toList := by
  cases t <;> decide

private theorem isWord_operandText {o : Operand} (ho : o.WellNamed) : IsWord (operandText o).toList := by
  cases o with
  | var v =>
    have hname := isWord_of_isIdentifier (ho v.name rfl)
    exact isWord_qualified v.frame.mark (isWord_mark v.frame) hname.separator hname.comment
  | label name => exact isWord_of_isIdentifier (ho name rfl)
  | type t => cases t <;> decide
  | const x =>
    cases x with
    | int n =>
      refine isWord_qualified "int" (by decide) ?_ ?_
      · intro c hc
        exact isSeparator_of_isSubsequent (isSubsequent_of_mem_repr hc)
      · intro hc
        exact ne_of_isSubsequent (isSubsequent_of_mem_repr hc) (by decide) rfl
    | bool b => cases b <;> decide
    | nil => decide
    | string s =>
      have hmem : ∀ c ∈ (Literal.encodeString s).toList, 0x20 < c.toNat ∧ c ≠ '#' := by
        intro c hc
        rw [Literal.encodeString, String.toList_ofList] at hc
        exact Literal.toNat_of_mem_escape hc
      refine isWord_qualified "string" (by decide) ?_ ?_
      · intro c hc
        exact isSeparator_of_toNat (hmem c hc).1
      · intro hc
        exact (hmem '#' hc).2 rfl

private theorem isWord_mnemonic (op : Opcode) : IsWord op.mnemonic.toList := by
  have hall : ∀ op ∈ Opcode.all, IsWord op.mnemonic.toList := by decide
  exact hall op (Opcode.mem_all op)

/-! ### Reading words back -/

private theorem ofWord_variable (v : Variable) : Token.ofWord v.text = .qualified v.text v.frame.mark v.name := by
  have hmark : '@' ∉ v.frame.mark.toList ∧ v.frame.mark.toList.head? ≠ some '.' := by
    cases v.frame <;> exact ⟨by decide, by decide⟩
  exact Token.ofWord_qualified hmark.1 hmark.2 v.name

theorem ofWord_identifier {s : String} (h : isIdentifier s = true) : Token.ofWord s = .bare s := by
  apply Token.ofWord_bare
  · intro hat
    exact ne_of_isSubsequent (isSubsequent_of_mem h hat) (by decide) rfl
  · intro hdot
    exact ne_of_isSubsequent (isSubsequent_of_mem h (List.mem_of_head? hdot)) (by decide) rfl

theorem operand_qualified (k : OperandKind) (mark : String) (hat : '@' ∉ mark.toList)
    (hdot : mark.toList.head? ≠ some '.') (hframe : FrameTag.ofMark? mark = none) (body : String) :
    operand k (Token.ofWord (mark ++ "@" ++ body)) = Operand.parse mark body := by
  rw [Token.ofWord_qualified hat hdot, operand, hframe]
  rfl

private theorem operand_const (k : OperandKind) (x : Value) :
    operand k (Token.ofWord (operandText (.const x))) =
      Operand.parse (Operand.const x).parts.1 (Operand.const x).parts.2 := by
  cases x with
  | int n => exact operand_qualified k "int" (by decide) (by decide) rfl n.toInt.repr
  | bool b => exact operand_qualified k "bool" (by decide) (by decide) rfl (Value.bool b).text
  | nil => exact operand_qualified k "nil" (by decide) (by decide) rfl "nil"
  | string s => exact operand_qualified k "string" (by decide) (by decide) rfl (Literal.encodeString s)

/-- The word for an operand reads back as that operand wherever the operand may stand. -/
theorem operand_operandText {k : OperandKind} {o : Operand} (hk : k.accepts o = true) (ho : o.WellNamed) :
    operand k (Token.ofWord (operandText o)) = .ok o := by
  cases o with
  | var v =>
    change operand k (Token.ofWord v.text) = _
    rw [ofWord_variable, operand, FrameTag.ofMark?_mark]
    exact Operand.parse_parts ho
  | const x => exact (operand_const k x).trans (Operand.parse_parts ho)
  | label name =>
    have hname := ho name rfl
    cases k with
    | label =>
      change operand .label (Token.ofWord name) = _
      rw [ofWord_identifier hname]
      exact Operand.parse_parts ho
    -- a bare word is read by the kind of its position, which is no other as it accepts the label
    | var | symb | type => cases hk
  | type t =>
    cases k with
    | type => cases t <;> rfl
    | var | symb | label => cases hk

private theorem operands_operandText {ks : List OperandKind} {os : List Operand} (hfits : Fits ks os)
    (hos : ∀ o ∈ os, o.WellNamed) : operands ks (os.map fun o => Token.ofWord (operandText o)) = .ok os := by
  induction hfits with
  | nil => rfl
  | cons hk _ ih =>
    have ho := operand_operandText hk (hos _ List.mem_cons_self)
    have hrest := ih (fun o ho => hos o (List.mem_cons_of_mem _ ho))
    rw [List.map_cons, operands, ho, hrest]
    rfl

theorem ofWord_mnemonic (op : Opcode) : Token.ofWord op.mnemonic = .bare op.mnemonic := by
  have hall : ∀ op ∈ Opcode.all, Token.ofWord op.mnemonic = .bare op.mnemonic := by decide
  exact hall op (Opcode.mem_all op)

/-- The words of a valid instruction read back as that instruction. -/
private theorem instruction_words {i : Instruction} (h : i.Valid) :
    instruction (Token.ofWord i.opcode.mnemonic) (i.operands.map fun o => Token.ofWord (operandText o)) = .ok i := by
  have hfits := Instruction.checkSignature_eq_ok_iff.1 h.signature
  have hlength : i.operands.length = i.opcode.signature.length := (List.Forall₂.length_eq hfits).symm
  rw [ofWord_mnemonic, instruction, Opcode.parse, Opcode.ofMnemonic?_mnemonic]
  simp only [instructionOf, List.length_map]
  rw [if_pos hlength, operands_operandText hfits h.names]
  simp only [checked]
  rw [h.signature]

/-! ### Lines -/

/-- The line for an instruction, without its end. -/
private def line (i : Instruction) : List Char :=
  i.opcode.mnemonic.toList ++ (i.operands.map fun o => (operandText o).toList).flatMap fun w => ' ' :: w

private theorem toList_instructionText (i : Instruction) : (instructionText i).toList = line i ++ ['\n'] := by
  simp [instructionText, line, List.flatMap_map]

private theorem tokenize_line {i : Instruction} (h : i.Valid) :
    tokenize (String.ofList (line i)) =
      Token.ofWord i.opcode.mnemonic :: i.operands.map fun o => Token.ofWord (operandText o) := by
  have hwords : ∀ w ∈ i.operands.map fun o => (operandText o).toList, IsWord w := by
    intro w hw
    obtain ⟨o, ho, rfl⟩ := List.mem_map.1 hw
    exact isWord_operandText (h.names o ho)
  rw [line, tokenize_spaced (isWord_mnemonic i.opcode) hwords]
  simp [String.ofList_toList]

/-- The end of a line does not occur in a line. -/
private theorem ne_of_mem_line {i : Instruction} (h : i.Valid) {c : Char} (hc : c ∈ line i) : c ≠ '\n' ∧ c ≠ '\r' := by
  simp only [line, List.mem_append, List.mem_flatMap, List.mem_map, List.mem_cons] at hc
  rcases hc with hc | ⟨w, ⟨o, ho, rfl⟩, rfl | hc⟩
  · exact (isWord_mnemonic i.opcode).ne_lineEnd hc
  · decide
  · exact (isWord_operandText (h.names o ho)).ne_lineEnd hc

private theorem lines_disassemble {p : Program} (h : p.Valid) :
    Text.lines (disassemble p) = header :: p.toList.map fun i => String.ofList (line i) := by
  have hlist : (disassemble p).toList = (header.toList :: p.toList.map line).flatMap fun l => l ++ ['\n'] := by
    simp [disassemble, toList_instructionText, List.flatMap_map]
  have hheader : IsWord header.toList := by decide
  have hchars : ∀ l ∈ header.toList :: p.toList.map line, ∀ c ∈ l, c ≠ '\n' ∧ c ≠ '\r' := by
    intro l hl c hc
    rcases List.mem_cons.1 hl with rfl | hl
    · exact hheader.ne_lineEnd hc
    · obtain ⟨i, hi, rfl⟩ := List.mem_map.1 hl
      exact ne_of_mem_line (h i (Array.mem_toList_iff.1 hi)) hc
  unfold Text.lines
  rw [hlist, Text.splitLines_flatMap]
  · simp [String.ofList_toList]
  · intro l hl hc
    exact (hchars l hl _ hc).1 rfl
  · intro l hl hlast
    exact (hchars l hl _ (List.mem_of_getLast? hlast)).2 rfl

private theorem instructions_statements {is : List Instruction} (h : ∀ i ∈ is, i.Valid) (n : Nat) :
    instructions (statements n (is.map fun i => String.ofList (line i))) = .ok is := by
  induction is generalizing n with
  | nil => rfl
  | cons i is ih =>
    have hi := h i List.mem_cons_self
    have hrest := ih (fun j hj => h j (List.mem_cons_of_mem i hj)) (n + 1)
    rw [List.map_cons, statements, tokenize_line hi]
    simp only [instructions]
    rw [instruction_words hi, hrest]
    rfl

/-- A valid program reads back from its text. -/
theorem assemble_disassemble {p : Program} (h : p.Valid) : assemble (disassemble p) = .ok p := by
  have hheader : tokenize header = [.directive header] := by decide
  have hlist : ∀ i ∈ p.toList, i.Valid := fun i hi => h i (Array.mem_toList_iff.1 hi)
  unfold assemble
  rw [lines_disassemble h, statements, hheader]
  simp only [programOf]
  rw [if_pos (by decide), instructions_statements hlist]
  rfl

/-- The text of a program reads back as that program if and only if every instruction fits its signature and every
name of a variable or label is an identifier. -/
theorem assemble_disassemble_iff (p : Program) :
    assemble (disassemble p) = .ok p ↔
      (∀ i ∈ p, i.checkSignature = .ok ()) ∧
        ∀ i ∈ p, ∀ o ∈ i.operands, ∀ name, o.name? = some name → isIdentifier name = true := by
  constructor
  · intro h
    have hvalid : p.Valid := assemble_valid h
    exact ⟨fun i hi => (hvalid i hi).signature, fun i hi => (hvalid i hi).names⟩
  · rintro ⟨hsignature, hnames⟩
    exact assemble_disassemble fun i hi => ⟨hsignature i hi, hnames i hi⟩

end Assembly

end IPPcode23
