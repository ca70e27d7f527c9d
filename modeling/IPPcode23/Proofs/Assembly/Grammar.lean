import IPPcode23.Proofs.Assembly.Layout
import IPPcode23.Proofs.Assembly.RoundTrip

/-!
# The grammar of a line

The words behind the opcode of a line have the forms that the positions of its signature ask for (`HasForm`): bare words
for labels and types, words with an `@` for variables and constants. What stands before the first `@` is taken for the
kind of an operand as it is, though, so a variable, a label or a type may also come with its kind before it, as in
`type@int` (`HasTaggedForm`). A line is read as an instruction exactly if its words have one of the two forms
(`accepts_iff`), and no word has both.
-/

namespace IPPcode23

/-! ### Operands and the texts that they are read from -/

private theorem FrameTag.ofMark?_eq_some_iff {mark : String} {t : FrameTag} :
    ofMark? mark = some t ↔ mark = t.mark := by
  constructor
  · intro h
    unfold ofMark? at h
    split at h <;> cases h <;> rfl
  · rintro rfl
    exact ofMark?_mark t

private theorem TypeName.ofWord?_eq_some_iff {word : String} {t : TypeName} :
    ofWord? word = some t ↔ word = t.word := by
  constructor
  · intro h
    unfold ofWord? at h
    split at h <;> cases h <;> rfl
  · rintro rfl
    exact ofWord?_word t

private theorem Variable.ofText?_eq_some_iff {text : String} {v : Variable} :
    ofText? text = some v ↔ text = v.text ∧ isIdentifier v.name = true := by
  constructor
  · intro h
    simp only [ofText?, Option.bind_eq_bind, Option.bind_eq_some_iff] at h
    obtain ⟨⟨mark, name⟩, hsplit, frame, hframe, h⟩ := h
    split at h
    case isFalse => cases h
    case isTrue hname =>
      cases h
      refine ⟨?_, hname⟩
      rcases splitAtSign?_cases text with ⟨mark', name', _, htext, hsplit'⟩ | ⟨_, hnone⟩
      · cases hsplit.symm.trans hsplit'
        obtain rfl : mark = frame.mark := FrameTag.ofMark?_eq_some_iff.1 hframe
        exact htext
      · cases hsplit.symm.trans hnone
  · rintro ⟨rfl, hname⟩
    exact ofText?_text hname

private theorem Variable.parse_eq_ok_iff {text : String} {v : Variable} :
    Variable.parse text = .ok v ↔ text = v.text ∧ isIdentifier v.name = true := by
  rw [← ofText?_eq_some_iff]
  unfold Variable.parse
  cases ofText? text <;> simp

private theorem TypeName.parse_eq_ok_iff {text : String} {t : TypeName} :
    TypeName.parse text = .ok t ↔ text = t.word := by
  rw [← ofWord?_eq_some_iff]
  unfold TypeName.parse
  cases ofWord? text <;> simp

namespace Operand

private theorem parseLabel_eq_ok_iff {text : String} {o : Operand} :
    parseLabel text = .ok o ↔ o = label text ∧ isIdentifier text = true := by
  unfold parseLabel
  by_cases hname : isIdentifier text = true
  · simp [hname, eq_comm]
  · simp [hname]

/-- What an operand is read from: the word for its kind and its text. -/
def IsWritten (kind text : String) : Operand → Prop
  | var v => kind = "var" ∧ text = v.text ∧ isIdentifier v.name = true
  | const (.int n) => kind = "int" ∧ Literal.parseInt? text = some n
  | const (.bool b) => kind = "bool" ∧ text = (Value.bool b).text
  | const (.string s) => kind = "string" ∧ Literal.decodeString? text = some s
  | const .nil => kind = "nil" ∧ text = "nil"
  | label name => kind = "label" ∧ text = name ∧ isIdentifier name = true
  | type t => kind = "type" ∧ text = t.word

private theorem isWritten_of_parse {kind text : String} {o : Operand} (h : parse kind text = .ok o) :
    o.IsWritten kind text := by
  unfold parse at h
  split at h
  case h_1 =>
    obtain ⟨v, hv, rfl⟩ := map_eq_ok.1 h
    exact ⟨rfl, Variable.parse_eq_ok_iff.1 hv⟩
  case h_2 =>
    unfold parseInt at h
    split at h <;> cases h
    case h_1 hn => exact ⟨rfl, hn⟩
  case h_3 =>
    unfold parseBool at h
    split at h <;> cases h <;> exact ⟨rfl, rfl⟩
  case h_4 =>
    obtain ⟨s, hs, rfl⟩ := map_eq_ok.1 h
    unfold Literal.decodeString at hs
    split at hs <;> cases hs
    case h_1 htext => exact ⟨rfl, htext⟩
  case h_5 =>
    unfold parseNil at h
    split at h <;> cases h
    case isTrue htext => exact ⟨rfl, htext⟩
  case h_6 =>
    obtain ⟨rfl, hname⟩ := parseLabel_eq_ok_iff.1 h
    exact ⟨rfl, rfl, hname⟩
  case h_7 =>
    obtain ⟨t, ht, rfl⟩ := map_eq_ok.1 h
    exact ⟨rfl, TypeName.parse_eq_ok_iff.1 ht⟩
  case h_8 => cases h

private theorem parse_of_isWritten {kind text : String} {o : Operand} (h : o.IsWritten kind text) :
    parse kind text = .ok o := by
  cases o with
  | var v =>
    obtain ⟨rfl, rfl, hname⟩ := h
    exact parse_parts (wellNamed_var hname)
  | label name =>
    obtain ⟨rfl, rfl, hname⟩ := h
    exact parse_parts (wellNamed_label hname)
  | type t =>
    obtain ⟨rfl, rfl⟩ := h
    cases t <;> rfl
  | const x =>
    cases x with
    | int n =>
      obtain ⟨rfl, htext⟩ := h
      change parseInt text = _
      rw [parseInt, htext]
    | bool b =>
      obtain ⟨rfl, rfl⟩ := h
      cases b <;> rfl
    | string s =>
      obtain ⟨rfl, htext⟩ := h
      change (fun s => const (.string s)) <$> Literal.decodeString text = _
      rw [Literal.decodeString, htext]
      rfl
    | nil =>
      obtain ⟨rfl, rfl⟩ := h
      rfl

end Operand

private theorem Opcode.ofMnemonic?_eq_some_iff {word : String} {op : Opcode} :
    ofMnemonic? word = some op ↔ Text.equalFold op.mnemonic word = true := by
  constructor
  · intro h
    have hfound := List.find?_some (p := fun op : Opcode => Text.equalFold op.mnemonic word) h
    exact hfound
  · intro h
    rw [← Assembly.ofMnemonic?_of_equalFold h, ofMnemonic?_mnemonic]

namespace Assembly

/-! ### Forms of words -/

/-- A variable: the mark of a frame, `@` and an identifier. -/
def IsVariable (w : String) : Prop :=
  ∃ mark ∈ ["GF", "LF", "TF"], ∃ name, isIdentifier name = true ∧ w = mark ++ "@" ++ name

/-- A constant: the name of a type, `@` and a literal of that type. -/
def IsConstant (w : String) : Prop :=
  (∃ text, (Literal.parseInt? text).isSome = true ∧ w = "int" ++ "@" ++ text) ∨
    (∃ text ∈ ["true", "false"], w = "bool" ++ "@" ++ text) ∨
    (∃ text, (Literal.decodeString? text).isSome = true ∧ w = "string" ++ "@" ++ text) ∨ w = "nil" ++ "@" ++ "nil"

/-- The forms that a position of a signature asks for. -/
def HasForm : OperandKind → String → Prop
  | .var, w => IsVariable w
  | .symb, w => IsVariable w ∨ IsConstant w
  | .label, w => isIdentifier w = true
  | .type, w => w ∈ ["int", "string", "bool"]

/-- The forms with the kind of the operand before it. -/
def HasTaggedForm : OperandKind → String → Prop
  | .var, w | .symb, w => ∃ v, IsVariable v ∧ w = "var" ++ "@" ++ v
  | .label, w => ∃ name, isIdentifier name = true ∧ w = "label" ++ "@" ++ name
  | .type, w => ∃ t ∈ ["int", "string", "bool"], w = "type" ++ "@" ++ t

/-- A word that begins with a kind of operands other than constants. -/
def IsTagged (w : String) : Prop :=
  ∃ kind ∈ ["var", "label", "type"], ∃ text, w = kind ++ "@" ++ text

private theorem plain_of_mem_kinds {kind : String} (h : kind ∈ ["var", "label", "type"]) :
    '@' ∉ kind.toList ∧ kind.toList.head? ≠ some '.' ∧ FrameTag.ofMark? kind = none := by
  simp only [List.mem_cons, List.not_mem_nil, or_false] at h
  rcases h with rfl | rfl | rfl <;> decide

private theorem isVariable_iff {w : String} :
    IsVariable w ↔ ∃ v : Variable, isIdentifier v.name = true ∧ w = v.text := by
  constructor
  · rintro ⟨mark, hmark, name, hname, rfl⟩
    simp only [List.mem_cons, List.not_mem_nil, or_false] at hmark
    rcases hmark with rfl | rfl | rfl
    · exact ⟨⟨.global, name⟩, hname, rfl⟩
    · exact ⟨⟨.local, name⟩, hname, rfl⟩
    · exact ⟨⟨.temporary, name⟩, hname, rfl⟩
  · rintro ⟨⟨frame, name⟩, hname, rfl⟩
    exact ⟨frame.mark, by cases frame <;> decide, name, hname, rfl⟩

private theorem mem_types_iff {w : String} : w ∈ ["int", "string", "bool"] ↔ ∃ t : TypeName, w = t.word := by
  constructor
  · intro h
    simp only [List.mem_cons, List.not_mem_nil, or_false] at h
    rcases h with rfl | rfl | rfl
    · exact ⟨.int, rfl⟩
    · exact ⟨.string, rfl⟩
    · exact ⟨.bool, rfl⟩
  · rintro ⟨t, rfl⟩
    cases t <;> decide

/-- A constant is read from its type and its literal. -/
private theorem isConstant_iff {w : String} : IsConstant w ↔
    ∃ x kind text, (Operand.const x).IsWritten kind text ∧ w = kind ++ "@" ++ text := by
  constructor
  · rintro (⟨text, hn, rfl⟩ | ⟨text, hb, rfl⟩ | ⟨text, hs, rfl⟩ | rfl)
    · obtain ⟨n, hn⟩ := Option.isSome_iff_exists.1 hn
      exact ⟨.int n, "int", text, ⟨rfl, hn⟩, rfl⟩
    · simp only [List.mem_cons, List.not_mem_nil, or_false] at hb
      rcases hb with rfl | rfl
      · exact ⟨.bool true, "bool", "true", ⟨rfl, rfl⟩, rfl⟩
      · exact ⟨.bool false, "bool", "false", ⟨rfl, rfl⟩, rfl⟩
    · obtain ⟨s, hs⟩ := Option.isSome_iff_exists.1 hs
      exact ⟨.string s, "string", text, ⟨rfl, hs⟩, rfl⟩
    · exact ⟨.nil, "nil", "nil", ⟨rfl, rfl⟩, rfl⟩
  · rintro ⟨x, kind, text, hx, rfl⟩
    cases x with
    | int n =>
      obtain ⟨rfl, hn⟩ := hx
      exact Or.inl ⟨text, by rw [hn]; rfl, rfl⟩
    | bool b =>
      obtain ⟨rfl, rfl⟩ := hx
      exact Or.inr (Or.inl ⟨_, by cases b <;> decide, rfl⟩)
    | string s =>
      obtain ⟨rfl, hs⟩ := hx
      exact Or.inr (Or.inr (Or.inl ⟨text, by rw [hs]; rfl, rfl⟩))
    | nil =>
      obtain ⟨rfl, rfl⟩ := hx
      exact Or.inr (Or.inr (Or.inr rfl))

/-! ### Words that are accepted -/

/-- A position admits a word: it is read as an operand that may stand there. -/
def Admits (k : OperandKind) (t : Token) : Prop :=
  ∃ o, operand k t = .ok o ∧ k.accepts o = true

private theorem operand_variable {k : OperandKind} {v : Variable} (hk : k.accepts (.var v) = true)
    (hname : isIdentifier v.name = true) : operand k (Token.ofWord v.text) = .ok (.var v) := by
  have htext : operandText (.var v) = v.text := rfl
  rw [← htext]
  exact operand_operandText hk (Operand.wellNamed_var hname)

private theorem admits_of_hasForm {k : OperandKind} {w : String} (h : HasForm k w) : Admits k (Token.ofWord w) := by
  cases k with
  | var =>
    obtain ⟨v, hname, rfl⟩ := isVariable_iff.1 h
    exact ⟨.var v, operand_variable rfl hname, rfl⟩
  | symb =>
    rcases h with h | h
    · obtain ⟨v, hname, rfl⟩ := isVariable_iff.1 h
      exact ⟨.var v, operand_variable rfl hname, rfl⟩
    · obtain ⟨x, kind, text, hx, rfl⟩ := isConstant_iff.1 h
      refine ⟨.const x, ?_, rfl⟩
      obtain ⟨hat, hdot, hframe⟩ : '@' ∉ kind.toList ∧ kind.toList.head? ≠ some '.' ∧ FrameTag.ofMark? kind = none := by
        cases x <;> obtain ⟨rfl, _⟩ := hx <;> decide
      rw [operand_qualified .symb kind hat hdot hframe, Operand.parse_of_isWritten hx]
  | label =>
    have hlabel : (Operand.label w).IsWritten "label" w := ⟨rfl, rfl, h⟩
    refine ⟨.label w, ?_, rfl⟩
    rw [ofWord_identifier h, operand, Operand.parse_of_isWritten hlabel]
  | type =>
    obtain ⟨t, rfl⟩ := mem_types_iff.1 h
    exact ⟨.type t, by cases t <;> rfl, rfl⟩

private theorem admits_of_hasTaggedForm {k : OperandKind} {w : String} (h : HasTaggedForm k w) :
    Admits k (Token.ofWord w) := by
  have htagged : ∀ kind ∈ ["var", "label", "type"], ∀ text o, o.IsWritten kind text →
      operand k (Token.ofWord (kind ++ "@" ++ text)) = .ok o := by
    intro kind hkind text o ho
    obtain ⟨hat, hdot, hframe⟩ := plain_of_mem_kinds hkind
    rw [operand_qualified k kind hat hdot hframe, Operand.parse_of_isWritten ho]
  cases k with
  | var | symb =>
    obtain ⟨_, hv, rfl⟩ := h
    obtain ⟨v, hname, rfl⟩ := isVariable_iff.1 hv
    exact ⟨.var v, htagged "var" (by decide) _ _ ⟨rfl, rfl, hname⟩, rfl⟩
  | label =>
    obtain ⟨name, hname, rfl⟩ := h
    exact ⟨.label name, htagged "label" (by decide) _ _ ⟨rfl, rfl, hname⟩, rfl⟩
  | type =>
    obtain ⟨_, ht, rfl⟩ := h
    obtain ⟨t, rfl⟩ := mem_types_iff.1 ht
    exact ⟨.type t, htagged "type" (by decide) _ _ ⟨rfl, rfl⟩, rfl⟩

/-- A bare word is read by the kind of its position. -/
private theorem hasForm_of_bare {k : OperandKind} {w : String} {o : Operand} (h : operand k (.bare w) = .ok o) :
    HasForm k w := by
  cases k with
  | var | symb => cases h
  | label => exact (Operand.parseLabel_eq_ok_iff.1 h).2
  | type =>
    obtain ⟨t, ht, _⟩ := map_eq_ok.1 h
    exact mem_types_iff.2 ⟨t, TypeName.parse_eq_ok_iff.1 ht⟩

/-- A word with an `@` is read by what stands before it, and what it is read as may stand at some positions only. -/
private theorem form_of_isWritten {k : OperandKind} {kind text : String} {o : Operand} (h : o.IsWritten kind text)
    (hk : k.accepts o = true) : HasForm k (kind ++ "@" ++ text) ∨ HasTaggedForm k (kind ++ "@" ++ text) := by
  cases o with
  | var v =>
    obtain ⟨rfl, rfl, hname⟩ := h
    have hv : IsVariable v.text := isVariable_iff.2 ⟨v, hname, rfl⟩
    cases k with
    | var | symb => exact Or.inr ⟨v.text, hv, rfl⟩
    | label | type => cases hk
  | const x =>
    cases k with
    | symb => exact Or.inl (Or.inr (isConstant_iff.2 ⟨x, kind, text, h, rfl⟩))
    | var | label | type => cases hk
  | label name =>
    obtain ⟨rfl, rfl, hname⟩ := h
    cases k with
    | label => exact Or.inr ⟨_, hname, rfl⟩
    | var | symb | type => cases hk
  | type t =>
    obtain ⟨rfl, rfl⟩ := h
    cases k with
    | type => exact Or.inr ⟨_, mem_types_iff.2 ⟨t, rfl⟩, rfl⟩
    | var | symb | label => cases hk

/-- A word with the mark of a frame before its `@` is a variable, and stands where a variable may. -/
private theorem hasForm_of_parse_var {k : OperandKind} {w : String} {o : Operand} (h : Operand.parse "var" w = .ok o)
    (hk : k.accepts o = true) : HasForm k w := by
  obtain ⟨v, hv, rfl⟩ := map_eq_ok.1 h
  obtain ⟨rfl, hname⟩ := Variable.parse_eq_ok_iff.1 hv
  have hw : IsVariable v.text := isVariable_iff.2 ⟨v, hname, rfl⟩
  cases k with
  | var => exact hw
  | symb => exact Or.inl hw
  | label | type => cases hk

/-- A position admits the words of the forms that it asks for, bare or behind their kinds, and no others. -/
private theorem admits_iff {k : OperandKind} {w : String} :
    Admits k (Token.ofWord w) ↔ HasForm k w ∨ HasTaggedForm k w := by
  constructor
  · rintro ⟨o, h, hk⟩
    rcases Token.ofWord_cases w with ⟨_, hw⟩ | ⟨mark, body, _, _, rfl, hw⟩ | ⟨_, _, hw⟩
    · rw [hw] at h
      cases k <;> cases h
    · rw [hw, operand] at h
      by_cases hframe : (FrameTag.ofMark? mark).isSome = true
      · rw [if_pos hframe] at h
        exact Or.inl (hasForm_of_parse_var h hk)
      · rw [if_neg hframe] at h
        exact form_of_isWritten (Operand.isWritten_of_parse h) hk
    · rw [hw] at h
      exact Or.inl (hasForm_of_bare h)
  · rintro (h | h)
    · exact admits_of_hasForm h
    · exact admits_of_hasTaggedForm h

/-- What may stand before the first `@` of a word that has a form of the grammar. -/
private theorem mark_of_hasForm {k : OperandKind} {w : String} (h : HasForm k w) :
    '@' ∉ w.toList ∨ ∃ mark ∈ ["GF", "LF", "TF", "int", "bool", "string", "nil"], ∃ body, w = mark ++ "@" ++ body := by
  have hvariable : IsVariable w →
      ∃ mark ∈ ["GF", "LF", "TF", "int", "bool", "string", "nil"], ∃ body, w = mark ++ "@" ++ body := by
    rintro ⟨mark, hmark, name, _, hw⟩
    exact ⟨mark, List.mem_append_left ["int", "bool", "string", "nil"] hmark, name, hw⟩
  cases k with
  | var => exact Or.inr (hvariable h)
  | symb =>
    right
    rcases h with h | ⟨text, _, hw⟩ | ⟨text, _, hw⟩ | ⟨text, _, hw⟩ | hw
    · exact hvariable h
    · exact ⟨"int", by decide, text, hw⟩
    · exact ⟨"bool", by decide, text, hw⟩
    · exact ⟨"string", by decide, text, hw⟩
    · exact ⟨"nil", by decide, "nil", hw⟩
  | label =>
    left
    intro hat
    exact absurd (isSubsequent_of_mem h hat) (by decide)
  | type =>
    left
    obtain ⟨t, rfl⟩ := mem_types_iff.1 h
    cases t <;> decide

private theorem not_isTagged_of_hasForm {k : OperandKind} {w : String} (h : HasForm k w) : ¬ IsTagged w := by
  rintro ⟨kind, hkind, text, rfl⟩
  have hother : ∀ kind ∈ ["var", "label", "type"], kind ∉ ["GF", "LF", "TF", "int", "bool", "string", "nil"] := by decide
  have hmarks : ∀ mark ∈ ["GF", "LF", "TF", "int", "bool", "string", "nil"], '@' ∉ mark.toList := by decide
  rcases mark_of_hasForm h with hat | ⟨mark, hmark, body, hw⟩
  · apply hat
    simp
  · -- the two are cut at the same `@`
    have hsplit := congrArg splitAtSign? hw
    rw [splitAtSign?_append (plain_of_mem_kinds hkind).1, splitAtSign?_append (hmarks mark hmark)] at hsplit
    cases hsplit
    exact hother kind hkind hmark

private theorem isTagged_of_hasTaggedForm {k : OperandKind} {w : String} (h : HasTaggedForm k w) : IsTagged w := by
  cases k with
  | var | symb =>
    obtain ⟨v, _, rfl⟩ := h
    exact ⟨"var", by decide, v, rfl⟩
  | label =>
    obtain ⟨name, _, rfl⟩ := h
    exact ⟨"label", by decide, name, rfl⟩
  | type =>
    obtain ⟨t, _, rfl⟩ := h
    exact ⟨"type", by decide, t, rfl⟩

/-! ### Lines that are accepted -/

/-- A line whose words are read as an instruction. -/
def Accepts (line : String) : Prop :=
  ∃ head tail i, tokenize line = head :: tail ∧ instruction head tail = .ok i

/-- A line of an opcode in any ASCII case and as many words as its signature has positions, each of a form for its
position. -/
def IsInstruction (form : OperandKind → String → Prop) (line : String) : Prop :=
  ∃ (op : Opcode) (word : String) (args : List String), (tokenize line).map Token.text = word :: args ∧
    Text.equalFold op.mnemonic word = true ∧ List.Forall₂ form op.signature args

private theorem exists_operands_iff {ks : List OperandKind} {ts : List Token} :
    (ts.length = ks.length ∧ ∃ os, operands ks ts = .ok os ∧ Fits ks os) ↔ List.Forall₂ Admits ks ts := by
  constructor
  · rintro ⟨hlength, os, hos, hfits⟩
    induction hfits generalizing ts with
    | nil =>
      obtain rfl := List.length_eq_zero_iff.1 hlength
      exact .nil
    | @cons k o ks os hk _ ih =>
      cases ts with
      | nil => cases hlength
      | cons t ts =>
        obtain ⟨o', ho, hrest⟩ := bind_eq_ok.1 hos
        obtain ⟨os', hos', h⟩ := bind_eq_ok.1 hrest
        cases h
        exact .cons ⟨o, ho, hk⟩ (ih (by simpa using hlength) hos')
  · intro h
    induction h with
    | nil => exact ⟨rfl, [], rfl, .nil⟩
    | @cons k t ks ts ht _ ih =>
      obtain ⟨o, ho, hk⟩ := ht
      obtain ⟨hlength, os, hos, hfits⟩ := ih
      refine ⟨by simp [hlength], o :: os, ?_, .cons hk hfits⟩
      rw [operands, ho, hos]
      rfl

private theorem exists_instructionOf_iff {op : Opcode} {ts : List Token} :
    (∃ i, instructionOf op ts = .ok i) ↔ List.Forall₂ Admits op.signature ts := by
  rw [← exists_operands_iff]
  unfold instructionOf
  constructor
  · rintro ⟨i, hi⟩
    by_cases hlength : ts.length = op.signature.length
    · simp only [hlength, if_true] at hi
      cases hos : operands op.signature ts with
      | error cause => rw [hos] at hi; cases hi
      | ok os =>
        rw [hos] at hi
        have hcheck := (checked_eq_ok hi).2
        exact ⟨hlength, os, rfl, Instruction.checkSignature_eq_ok_iff.1 hcheck⟩
    · simp only [hlength, if_false] at hi
      cases hi
  · rintro ⟨hlength, os, hos, hfits⟩
    have hcheck : (Instruction.mk op os).checkSignature = .ok () := Instruction.checkSignature_eq_ok_iff.2 hfits
    refine ⟨⟨op, os⟩, ?_⟩
    simp only [hlength, if_true, hos, checked]
    rw [hcheck]

/-- A word that names an opcode is bare. -/
private theorem ofWord_of_equalFold_mnemonic {op : Opcode} {word : String}
    (h : Text.equalFold op.mnemonic word = true) : Token.ofWord word = .bare word := by
  have hop := ofWord_mnemonic op
  rcases ofWord_of_equalFold h with ⟨hw, _⟩ | ⟨_, hw⟩ | ⟨mark, body, hw⟩
  · cases hop.symm.trans hw
  · exact hw
  · cases hop.symm.trans hw

/-- The words of a line are accepted if and only if the first one names an opcode and the others have forms, with or
without their kinds, for its positions. -/
theorem accepts_iff {line : String} :
    Accepts line ↔ IsInstruction (fun k w => HasForm k w ∨ HasTaggedForm k w) line := by
  have htokens : tokenize line = ((tokenize line).map Token.text).map Token.ofWord := by
    unfold tokenize
    simp
  constructor
  · rintro ⟨head, tail, i, hline, hi⟩
    rw [hline, List.map_cons, List.map_cons] at htokens
    obtain ⟨hhead, htail⟩ := List.cons.inj htokens
    cases head with
    | directive text | qualified text mark body => cases hi
    | bare word =>
      rw [instruction, Opcode.parse] at hi
      cases hop : Opcode.ofMnemonic? word with
      | none => rw [hop] at hi; cases hi
      | some op =>
        rw [hop] at hi
        have hargs := exists_instructionOf_iff.1 ⟨i, hi⟩
        rw [htail, List.forall₂_map_right_iff] at hargs
        refine ⟨op, word, tail.map Token.text, by rw [hline]; rfl, Opcode.ofMnemonic?_eq_some_iff.1 hop, ?_⟩
        exact hargs.imp fun k w h => admits_iff.1 h
  · rintro ⟨op, word, args, hwords, hop, hargs⟩
    rw [hwords, List.map_cons, ofWord_of_equalFold_mnemonic hop] at htokens
    have htail : List.Forall₂ Admits op.signature (args.map Token.ofWord) :=
      List.forall₂_map_right_iff.2 (hargs.imp fun k w h => admits_iff.2 h)
    obtain ⟨i, hi⟩ := exists_instructionOf_iff.2 htail
    refine ⟨_, _, i, htokens, ?_⟩
    rw [instruction, Opcode.parse, Opcode.ofMnemonic?_eq_some_iff.2 hop]
    exact hi

private theorem forall₂_hasForm_iff {ks : List OperandKind} {args : List String} : List.Forall₂ HasForm ks args ↔
    List.Forall₂ (fun k w => HasForm k w ∨ HasTaggedForm k w) ks args ∧ ∀ w ∈ args, ¬ IsTagged w := by
  constructor
  · intro h
    induction h with
    | nil => exact ⟨.nil, by simp⟩
    | cons hw _ ih => exact ⟨.cons (Or.inl hw) ih.1, List.forall_mem_cons.2 ⟨not_isTagged_of_hasForm hw, ih.2⟩⟩
  · rintro ⟨h, hnone⟩
    induction h with
    | nil => exact .nil
    | cons hw _ ih =>
      obtain ⟨hfirst, hrest⟩ := List.forall_mem_cons.1 hnone
      have hform := hw.resolve_right fun h => hfirst (isTagged_of_hasTaggedForm h)
      exact .cons hform (ih hrest)

/-- A line follows the grammar if and only if it is accepted and no word of it begins with its kind. -/
private theorem isInstruction_hasForm_iff {line : String} : IsInstruction HasForm line ↔
    Accepts line ∧ ∀ w ∈ (tokenize line).map Token.text, ¬ IsTagged w := by
  rw [accepts_iff]
  constructor
  · rintro ⟨op, word, args, hwords, hop, hargs⟩
    obtain ⟨hforms, hnone⟩ := forall₂_hasForm_iff.1 hargs
    have hword : ¬ IsTagged word := by
      rintro ⟨kind, hkind, text, rfl⟩
      obtain ⟨hat, hdot, _⟩ := plain_of_mem_kinds hkind
      cases (ofWord_of_equalFold_mnemonic hop).symm.trans (Token.ofWord_qualified hat hdot text)
    refine ⟨⟨op, word, args, hwords, hop, hforms⟩, ?_⟩
    rw [hwords]
    exact List.forall_mem_cons.2 ⟨hword, hnone⟩
  · rintro ⟨⟨op, word, args, hwords, hop, hargs⟩, hnone⟩
    rw [hwords] at hnone
    exact ⟨op, word, args, hwords, hop, forall₂_hasForm_iff.2 ⟨hargs, (List.forall_mem_cons.1 hnone).2⟩⟩

/-- A line is accepted if and only if it is an opcode in any ASCII case with as many words as its signature has positions,
each of the form that its position asks for or of that form behind the kind of its operand. The grammar without kinds is
what is accepted, but for the lines that are accepted with a kind at the beginning of a word. -/
theorem accepts_grammar_unless_tagged (line : String) :
    (Accepts line ↔ IsInstruction (fun k w => HasForm k w ∨ HasTaggedForm k w) line) ∧
      ((Accepts line ↔ IsInstruction HasForm line) ↔
        ¬ (Accepts line ∧ ∃ w ∈ (tokenize line).map Token.text, IsTagged w)) := by
  refine ⟨accepts_iff, ?_⟩
  rw [isInstruction_hasForm_iff]
  constructor
  · rintro h ⟨haccepts, w, hw, htagged⟩
    exact (h.1 haccepts).2 w hw htagged
  · intro h
    refine ⟨fun haccepts => ⟨haccepts, fun w hw htagged => h ⟨haccepts, w, hw, htagged⟩⟩, ?_⟩
    rintro ⟨haccepts, _⟩
    exact haccepts

/-- A type with its kind before it is accepted, though no position asks for such a word. -/
theorem accepts_tagged_type :
    assemble ".IPPcode23\nREAD GF@x type@int\n" = .ok #[⟨.read, [.var ⟨.global, "x"⟩, .type .int]⟩] ∧
      Accepts "READ GF@x type@int" ∧ ¬ IsInstruction HasForm "READ GF@x type@int" := by
  have hwords : (tokenize "READ GF@x type@int").map Token.text = ["READ", "GF@x", "type@int"] := by decide
  refine ⟨rfl, ⟨_, _, _, rfl, rfl⟩, ?_⟩
  rintro ⟨op, word, args, hline, hop, hargs⟩
  cases hwords.symm.trans hline
  have hread : Opcode.ofMnemonic? "READ" = some .read := rfl
  cases hread.symm.trans (Opcode.ofMnemonic?_eq_some_iff.2 hop)
  cases hargs with
  | cons _ hrest =>
    cases hrest with
    | cons htype _ =>
      have hmem : "type@int" ∈ ["int", "string", "bool"] := htype
      exact absurd hmem (by decide)

end Assembly

end IPPcode23
