import IPPcode23.Proofs.Assembly.RoundTrip
import IPPcode23.Proofs.Text.Blank
import IPPcode23.Proofs.Xml.Reading

/-!
# Programs as documents

The document of a program has an element for each instruction and in it an argument for each operand, with the operand's
text as in assembly. It reads back as the program in which the strings have lost the wide white space at their ends
(`programOf_document`), because the text of an argument is read without white space around it. So the document and the
assembly text of a program agree exactly if there is no such white space (`document_agrees_with_assembly`).
-/

namespace IPPcode23

private theorem isPrintable_of_isSubsequent {c : Char} (h : isSubsequent c = true) : Text.isPrintable c = true := by
  rcases Bool.or_eq_true_iff.1 h with h | h
  · exact Text.isPrintable_of_isAlphanum h
  · have hspecial : "_-$&%*!?".toList.all Text.isPrintable = true := by decide
    exact List.all_eq_true.1 hspecial c (List.contains_iff_mem.1 h)

/-! ### What an operand loses -/

/-- An operand without the wide white space at the ends of a string. -/
def Operand.trimmed : Operand → Operand
  | const (.string s) => const (.string (Text.trimWide s))
  | o => o

/-- An instruction with its operands trimmed. -/
def Instruction.trimmed (i : Instruction) : Instruction :=
  { i with operands := i.operands.map Operand.trimmed }

namespace Operand

private theorem trimmed_eq_self_iff {o : Operand} : o.trimmed = o ↔ ∀ s, o = .const (.string s) → ¬ Text.Padded s := by
  cases o with
  | const x =>
    cases x with
    | string s => simp [trimmed, Text.trimWide_eq_self_iff]
    | int n | bool b | nil => simp [trimmed]
  | var v | label name | type t => simp [trimmed]

private theorem name?_trimmed (o : Operand) : o.trimmed.name? = o.name? := by
  cases o with
  | const x => cases x <;> rfl
  | var v | label name | type t => rfl

private theorem accepts_trimmed (k : OperandKind) (o : Operand) : k.accepts o.trimmed = k.accepts o := by
  cases o with
  | const x => cases x <;> cases k <;> rfl
  | var v | label name | type t => rfl

/-- The text of an operand without white space around it is that of the operand trimmed. -/
private theorem parts_trimmed {o : Operand} (ho : o.WellNamed) :
    o.trimmed.parts = (o.parts.1, Text.trim o.parts.2) := by
  have hidentifier : ∀ {name : String}, isIdentifier name = true → name.toList.all Text.isPrintable = true := by
    intro name hname
    exact List.all_eq_true.2 fun c hc => isPrintable_of_isSubsequent (isSubsequent_of_mem hname hc)
  cases o with
  | var v =>
    have htext : Text.trim v.text = v.text := by
      have hmark : (v.frame.mark ++ "@").toList.all Text.isPrintable = true := by
        cases v.frame <;> decide
      apply Text.trim_of_printable
      rw [Variable.text, String.toList_append, List.all_append, hmark, hidentifier (ho v.name rfl)]
      rfl
    exact congrArg (Prod.mk "var") htext.symm
  | label name =>
    have htext : Text.trim name = name := Text.trim_of_printable (hidentifier (ho name rfl))
    exact congrArg (Prod.mk "label") htext.symm
  | type t => cases t <;> decide
  | const x =>
    cases x with
    | int n =>
      have htext : Text.trim n.toInt.repr = n.toInt.repr := by
        apply Text.trim_of_printable
        exact List.all_eq_true.2 fun c hc => isPrintable_of_isSubsequent (Assembly.isSubsequent_of_mem_repr hc)
      exact congrArg (Prod.mk "int") htext.symm
    | bool b => cases b <;> decide
    | nil => decide
    | string s => exact congrArg (Prod.mk "string") (Text.trim_encodeString s).symm

private theorem parse_trim_parts {o : Operand} (ho : o.WellNamed) :
    Operand.parse o.parts.1 (Text.trim o.parts.2) = .ok o.trimmed := by
  have htrimmed : o.trimmed.WellNamed := by
    intro name hname
    rw [name?_trimmed] at hname
    exact ho name hname
  have hread := parse_parts htrimmed
  rw [parts_trimmed ho] at hread
  exact hread

end Operand

private theorem map_eq_self_iff {α : Type} {f : α → α} {xs : List α} : xs.map f = xs ↔ ∀ x ∈ xs, f x = x := by
  have hid : xs.map f = xs ↔ xs.map f = xs.map id := by rw [List.map_id]
  rw [hid, List.map_eq_map_iff]
  rfl

private theorem Instruction.checkSignature_trimmed {i : Instruction} (h : i.checkSignature = .ok ()) :
    i.trimmed.checkSignature = .ok () := by
  rw [checkSignature_eq_ok_iff] at h ⊢
  refine List.forall₂_map_right_iff.2 (h.imp fun k o hk => ?_)
  rw [Operand.accepts_trimmed]
  exact hk

private theorem Instruction.trimmed_eq_self_iff {i : Instruction} :
    i.trimmed = i ↔ ∀ s, .const (.string s) ∈ i.operands → ¬ Text.Padded s := by
  have hoperands : i.trimmed = i ↔ i.operands.map Operand.trimmed = i.operands := by
    rw [Instruction.trimmed]
    constructor
    · intro h
      exact congrArg Instruction.operands h
    · intro h
      rw [h]
  rw [hoperands, map_eq_self_iff]
  simp only [Operand.trimmed_eq_self_iff]
  constructor
  · intro h s hs
    exact h _ hs s rfl
  · rintro h o ho s rfl
    exact h s ho

namespace Xml

/-! ### The document of a program -/

/-- The argument for an operand. There is no text where the operand has none. -/
def argument (k : Nat) (o : Operand) : Element :=
  ⟨argumentName k, [⟨none, "type", o.parts.1⟩], if o.parts.2 = "" then [] else [.text o.parts.2]⟩

/-- The element for an instruction. Orders count from one. -/
def instructionElement (n : Nat) (i : Instruction) : Element :=
  ⟨"instruction", [⟨none, "order", (n + 1).repr⟩, ⟨none, "opcode", i.opcode.mnemonic⟩],
    (i.operands.mapIdx argument).map Element.toNode⟩

/-- The document of a program. -/
def document (p : Program) : Element :=
  ⟨"program", [⟨none, "language", language⟩], (p.toList.mapIdx instructionElement).map Element.toNode⟩

private theorem filterMap_element?_toNode (es : List Element) :
    (es.map Element.toNode).filterMap Node.element? = es := by
  rw [List.filterMap_map]
  exact List.filterMap_some

private theorem children_argument (k : Nat) (o : Operand) : (argument k o).children = [] := by
  unfold argument Element.children
  split <;> rfl

private theorem text_argument (k : Nat) (o : Operand) : (argument k o).text = o.parts.2 := by
  unfold argument Element.text
  dsimp only
  split
  case isTrue h => exact h.symm
  case isFalse => simp [Node.text?]

private theorem operand_argument {o : Operand} (ho : o.WellNamed) (k : Nat) :
    operand (argument k o) = .ok o.trimmed := by
  have hkind : (argument k o).attribute? "type" = some o.parts.1 := rfl
  rw [operand, hkind, text_argument]
  dsimp only
  rw [Operand.parse_trim_parts ho]

private theorem order?_repr {n : Nat} (hpos : 0 < n) (hlt : n < UInt64.size) : order? n.repr = some n := by
  have hdigits : ∀ c ∈ Nat.toDigits 10 n, c.isDigit = true := fun _ => Literal.isDigit_of_mem_toDigits
  have htrim : Text.trimChars (Nat.toDigits 10 n) = Nat.toDigits 10 n := by
    refine Text.trimChars_of_printable (List.all_eq_true.2 fun c hc => Text.isPrintable_of_isAlphanum ?_)
    rw [Char.isAlphanum, hdigits c hc, Bool.or_true]
  unfold order?
  rw [Nat.toList_repr, htrim]
  split
  case h_1 ds heq =>
    rw [heq] at hdigits
    exact absurd (hdigits '+' List.mem_cons_self) (by decide)
  case h_2 => simp [Literal.numeral?_toDigits, hpos, hlt]

/-- No signature has more kinds than there are names for arguments. -/
private theorem length_operands_le {i : Instruction} (h : i.checkSignature = .ok ()) :
    i.operands.length ≤ argumentNames.length := by
  have hsignature : ∀ op ∈ Opcode.all, op.signature.length ≤ argumentNames.length := by decide
  rw [← (Instruction.checkSignature_eq_ok_iff.1 h).length_eq]
  exact hsignature _ (Opcode.mem_all _)

private theorem map_name_mapIdx_argument (os : List Operand) :
    (os.mapIdx argument).map Element.name = (List.range os.length).map argumentName := by
  apply List.ext_getElem
  · simp
  · intro k _ _
    simp [argument]

private theorem operandsOf_instructionElement {i : Instruction} (h : i.Valid) (n : Nat) :
    operandsOf (instructionElement n i) = .ok i.trimmed.operands := by
  have hnames : (i.operands.mapIdx argument).map Element.name =
      argumentNames.take (i.operands.mapIdx argument).length := by
    rw [map_name_mapIdx_argument, List.length_mapIdx, take_argumentNames (length_operands_le h.signature)]
  have hoperands : List.Forall₂ (fun a o => operand a = .ok o) (i.operands.mapIdx argument) i.trimmed.operands := by
    refine List.forall₂_iff_get.2 ⟨by simp [Instruction.trimmed], ?_⟩
    intro k hk _
    rw [List.length_mapIdx] at hk
    simp only [List.get_eq_getElem, List.getElem_mapIdx, Instruction.trimmed, List.getElem_map]
    exact operand_argument (h.names _ (List.getElem_mem hk)) k
  have hchildren : ∀ a ∈ i.operands.mapIdx argument, a.children = [] := by
    intro a ha
    obtain ⟨k, hk, rfl⟩ := List.mem_mapIdx.1 ha
    exact children_argument k _
  obtain ⟨hle, hprovides⟩ := provides_zip_iff.2 ⟨hnames, hchildren, hoperands⟩
  refine operandsOf_eq_ok_iff.2 ⟨hle, _, ?_, hprovides⟩
  rw [Element.children, instructionElement, filterMap_element?_toNode]

private theorem entry_instructionElement {i : Instruction} (h : i.Valid) {n : Nat} (hn : n + 1 < UInt64.size) :
    entry (instructionElement n i) = .ok ⟨n + 1, i.trimmed⟩ := by
  have hopcode : Opcode.parse (Text.trim i.opcode.mnemonic) = .ok i.opcode := by
    have hmnemonic : ∀ op ∈ Opcode.all, Text.trim op.mnemonic = op.mnemonic := by decide
    rw [hmnemonic _ (Opcode.mem_all _), Opcode.parse, Opcode.ofMnemonic?_mnemonic]
  have hsignature := Instruction.checkSignature_trimmed h.signature
  have hi : instructionOf i.opcode.mnemonic (instructionElement n i) = .ok i.trimmed :=
    instructionOf_eq_ok_iff.2 ⟨hopcode, operandsOf_instructionElement h n, hsignature⟩
  have hword : (instructionElement n i).attribute? "opcode" = some i.opcode.mnemonic := rfl
  have htext : (instructionElement n i).attribute? "order" = some (n + 1).repr := rfl
  have horder : (instructionElement n i).order? = some (n + 1) := by
    rw [Element.order?, htext, Option.bind_some, order?_repr (Nat.succ_pos n) hn]
  exact entry_eq_ok_iff.2 ⟨rfl, horder, _, hword, hi⟩

/-- The document of a valid program reads back as the program with its instructions trimmed. -/
theorem programOf_document {p : Program} (h : p.Valid) (hsize : p.size < UInt64.size) :
    programOf (document p) = .ok (p.map Instruction.trimmed) := by
  let xs : List Entry := p.toList.mapIdx fun n i => ⟨n + 1, i.trimmed⟩
  have hentries : List.Forall₂ (fun e x => entry e = .ok x) (p.toList.mapIdx instructionElement) xs := by
    refine List.forall₂_iff_get.2 ⟨by simp [xs], ?_⟩
    intro n hn _
    rw [List.length_mapIdx] at hn
    simp only [List.get_eq_getElem, List.getElem_mapIdx, xs]
    have hvalid := h _ (Array.mem_toList_iff.1 (List.getElem_mem hn))
    exact entry_instructionElement hvalid (by rw [Array.length_toList] at hn; omega)
  have hsorted : Sorted xs := by
    refine List.pairwise_iff_getElem.2 ?_
    intro m n _ _ hlt
    simp only [List.getElem_mapIdx, xs]
    omega
  refine programOf_eq_ok_iff.2 ⟨rfl, ⟨language, rfl, by decide⟩, _, xs, ?_, hentries, hsorted, ?_⟩
  · rw [Element.children, document, filterMap_element?_toNode]
  · apply Array.toList_inj.1
    apply List.ext_getElem
    · simp [xs]
    · intro n _ _
      simp [xs]

private theorem map_trimmed_eq_self_iff {p : Program} :
    p.map Instruction.trimmed = p ↔ ∀ i ∈ p, ∀ s, .const (.string s) ∈ i.operands → ¬ Text.Padded s := by
  rw [← Array.toList_inj, Array.toList_map, map_eq_self_iff]
  simp only [Array.mem_toList_iff, Instruction.trimmed_eq_self_iff]

/-- A valid program of fewer than 2^64 instructions reads back from its assembly text, and from its document exactly if
no string in it begins or ends with white space outside ASCII. Otherwise the document reads as another program. -/
theorem document_agrees_with_assembly {p : Program} (h : p.Valid) (hsize : p.size < UInt64.size) :
    Assembly.assemble (Assembly.disassemble p) = .ok p ∧
    (programOf (document p) = .ok p ↔ ∀ i ∈ p, ∀ s, .const (.string s) ∈ i.operands → ¬ Text.Padded s) ∧
    ((∃ i ∈ p, ∃ s, .const (.string s) ∈ i.operands ∧ Text.Padded s) → ∃ q ≠ p, programOf (document p) = .ok q) := by
  have hread := programOf_document h hsize
  refine ⟨Assembly.assemble_disassemble h, ?_, ?_⟩
  · rw [hread, Except.ok.injEq, map_trimmed_eq_self_iff]
  · rintro ⟨i, hi, s, hs, hpadded⟩
    refine ⟨p.map Instruction.trimmed, ?_, hread⟩
    intro heq
    exact map_trimmed_eq_self_iff.1 heq i hi s hs hpadded

/-- A no-break space is kept within a string and lost at its end. -/
theorem document_agrees_with_assembly_no_break_space :
    let p (s : String) : Program := #[⟨.label, [.label "end"]⟩, ⟨.write, [.const (.string s)]⟩]
    let within := p " a\u00a0b#"
    let atEnd := p "a b\u00a0"
    within.Valid ∧ programOf (document within) = .ok within ∧
      atEnd.Valid ∧ ∃ q ≠ atEnd, programOf (document atEnd) = .ok q := by
  intro p within atEnd
  have hwithin : within.Valid := by decide
  have hatEnd : atEnd.Valid := by decide
  have hplain : ∀ i ∈ within, ∀ s, .const (.string s) ∈ i.operands → ¬ Text.Padded s := by
    have hstring : ¬ Text.Padded " a\u00a0b#" := by decide
    simpa [within, p] using hstring
  have hpadded : ∃ i ∈ atEnd, ∃ s, .const (.string s) ∈ i.operands ∧ Text.Padded s :=
    ⟨⟨.write, [.const (.string "a b\u00a0")]⟩, by simp [atEnd, p], "a b\u00a0", by simp, by decide⟩
  exact ⟨hwithin, (document_agrees_with_assembly hwithin (by decide)).2.1.2 hplain, hatEnd,
    (document_agrees_with_assembly hatEnd (by decide)).2.2 hpadded⟩

end Xml

end IPPcode23
