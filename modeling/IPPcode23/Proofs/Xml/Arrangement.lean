import IPPcode23.Proofs.Xml.Reading
import Mathlib.Logic.Relation

/-!
# The arrangement of an XML document

How the elements of a document stand to each other does not matter, nor do comments, processing instructions and the
text outside arguments: the program is the same, or there is none in both cases (`program_independent_of_arrangement`).

What does matter is said level by level. Arguments are alike if they have the same name, attributes and text
(`AlikeArgument`). Instructions, and roots, are alike if they have the same name and attributes and their children match
one another in some order (`Alike`). Both are symmetric, so it is enough that what one of two is read as, the other is
read as, too.
-/

namespace IPPcode23.Xml

/-! ### Rearranging a document -/

namespace Node

/-- A comment or a processing instruction. -/
def isRemark : Node → Bool
  | comment _ | instruction _ _ => true
  | element _ _ _ | text _ => false

/-- A text. -/
def isText : Node → Bool
  | text _ => true
  | element _ _ _ | comment _ | instruction _ _ => false

end Node

/-- Content with a comment or a processing instruction put in: between two nodes, within a text, or somewhere in the
content of an element. -/
inductive Remarked : List Node → List Node → Prop where
  | between (before after : List Node) {remark : Node} (h : remark.isRemark = true) :
    Remarked (before ++ after) (before ++ remark :: after)
  | withinText (before after : List Node) (s t : String) {remark : Node} (h : remark.isRemark = true) :
    Remarked (before ++ .text (s ++ t) :: after) (before ++ .text s :: remark :: .text t :: after)
  | withinElement (before after : List Node) (name : String) (attributes : List Attribute)
    {content content' : List Node} (h : Remarked content content') :
    Remarked (before ++ .element name attributes content :: after)
      (before ++ .element name attributes content' :: after)

/-- Content with its nodes in another order, or with other text between the nodes that are no text. -/
inductive Shuffled (content content' : List Node) : Prop where
  | permuted (h : content.Perm content')
  | retexted (h : content.filter (!·.isText) = content'.filter (!·.isText))

/-- One change of a document outside the texts of its arguments: to the content of the root, to the content of one of
its children, or by a comment or a processing instruction anywhere. -/
inductive Rearranged (root : Element) : Element → Prop where
  | root {content' : List Node} (h : Shuffled root.content content') :
    Rearranged root { root with content := content' }
  | child (before after : List Node) {name : String} {attributes : List Attribute} {content content' : List Node}
    (hroot : root.content = before ++ .element name attributes content :: after) (h : Shuffled content content') :
    Rearranged root { root with content := before ++ .element name attributes content' :: after }
  | remark {content' : List Node} (h : Remarked root.content content') :
    Rearranged root { root with content := content' }

/-! ### Elements that are read alike -/

/-- Elements that match one another in some order. -/
def Matched (R : Element → Element → Prop) (es es' : List Element) : Prop :=
  ∃ fs, es.Perm fs ∧ List.Forall₂ R fs es'

section

variable {R : Element → Element → Prop}

private theorem forall₂_self (hR : ∀ e, R e e) (es : List Element) : List.Forall₂ R es es :=
  List.forall₂_same.2 fun e _ => hR e

private theorem Matched.of_forall₂ {es es' : List Element} (h : List.Forall₂ R es es') : Matched R es es' :=
  ⟨es, .refl _, h⟩

private theorem Matched.symm (hR : ∀ e e', R e e' → R e' e) {es es' : List Element} (h : Matched R es es') :
    Matched R es' es := by
  obtain ⟨fs, hperm, hfs⟩ := h
  obtain ⟨gs, hgs, hperm'⟩ := List.perm_comp_forall₂ hperm hfs
  exact ⟨gs, hperm'.symm, hgs.flip.imp fun e e' => hR e' e⟩

/-- What some elements are read as in some order, the elements that they match are read as, too. -/
private theorem Matched.exists_forall₂ {β : Type} {S : Element → β → Prop} {es es' fs : List Element} {bs : List β}
    (h : Matched R es es') (hperm : fs.Perm es) (hfs : List.Forall₂ S fs bs)
    (hRS : ∀ e e' b, R e e' → S e b → S e' b) : ∃ fs', fs'.Perm es' ∧ List.Forall₂ S fs' bs := by
  obtain ⟨gs, hgs, hR⟩ := h
  obtain ⟨fs', hR', hperm'⟩ := List.perm_comp_forall₂ (hperm.trans hgs) hR
  refine ⟨fs', hperm', ?_⟩
  clear hperm hperm' hgs hR
  induction hR' generalizing bs with
  | nil => exact hfs
  | cons he _ ih =>
    cases hfs with
    | cons hb hbs => exact .cons (hRS _ _ _ he hb) (ih hbs)

end

/-- Arguments that are read alike. Of the elements in them it only matters whether there are any. -/
structure AlikeArgument (a a' : Element) : Prop where
  name : a.name = a'.name
  attributes : a.attributes = a'.attributes
  text : a.text = a'.text
  children : a.children = [] ↔ a'.children = []

/-- Elements with the same name and attributes, and with children that match. -/
structure Alike (R : Element → Element → Prop) (e e' : Element) : Prop where
  name : e.name = e'.name
  attributes : e.attributes = e'.attributes
  children : Matched R e.children e'.children

private theorem AlikeArgument.refl (a : Element) : AlikeArgument a a :=
  ⟨rfl, rfl, rfl, Iff.rfl⟩

private theorem AlikeArgument.symm {a a' : Element} (h : AlikeArgument a a') : AlikeArgument a' a :=
  ⟨h.name.symm, h.attributes.symm, h.text.symm, h.children.symm⟩

private theorem Alike.refl {R : Element → Element → Prop} (hR : ∀ e, R e e) (e : Element) : Alike R e e :=
  ⟨rfl, rfl, .of_forall₂ (forall₂_self hR _)⟩

private theorem Alike.symm {R : Element → Element → Prop} (hR : ∀ e e', R e e' → R e' e) {e e' : Element}
    (h : Alike R e e') : Alike R e' e :=
  ⟨h.name.symm, h.attributes.symm, h.children.symm hR⟩

private theorem attribute?_of_attributes {e e' : Element} (h : e.attributes = e'.attributes) (name : String) :
    e.attribute? name = e'.attribute? name := by
  rw [Element.attribute?, Element.attribute?, h]

private theorem AlikeArgument.provides {a a' : Element} {named : String × Operand} (h : AlikeArgument a a')
    (ha : Provides a named) : Provides a' named where
  name := h.name ▸ ha.name
  children := h.children.1 ha.children
  operand := by
    have ho := ha.operand
    rw [operand, attribute?_of_attributes h.attributes, h.text] at ho
    exact ho

private theorem Alike.operandsOf {e e' : Element} {os : List Operand} (h : Alike AlikeArgument e e')
    (he : operandsOf e = .ok os) : Xml.operandsOf e' = .ok os := by
  obtain ⟨hlength, args, hperm, hargs⟩ := operandsOf_eq_ok_iff.1 he
  have hmatched := h.children.exists_forall₂ hperm hargs fun _ _ _ => AlikeArgument.provides
  exact operandsOf_eq_ok_iff.2 ⟨hlength, hmatched⟩

private theorem Alike.entry {e e' : Element} {x : Entry} (h : Alike AlikeArgument e e') (he : entry e = .ok x) :
    Xml.entry e' = .ok x := by
  obtain ⟨hname, horder, word, hword, hi⟩ := entry_eq_ok_iff.1 he
  obtain ⟨hopcode, hos, hcheck⟩ := instructionOf_eq_ok_iff.1 hi
  rw [Element.order?, attribute?_of_attributes h.attributes] at horder
  rw [attribute?_of_attributes h.attributes] at hword
  have hi' := instructionOf_eq_ok_iff.2 ⟨hopcode, h.operandsOf hos, hcheck⟩
  exact entry_eq_ok_iff.2 ⟨h.name ▸ hname, horder, word, hword, hi'⟩

private theorem Alike.programOf {root root' : Element} {p : Program} (h : Alike (Alike AlikeArgument) root root')
    (hroot : programOf root = .ok p) : Xml.programOf root' = .ok p := by
  obtain ⟨hname, ⟨found, hfound, hlanguage⟩, es, xs, hperm, hes, hsorted, hp⟩ := programOf_eq_ok_iff.1 hroot
  obtain ⟨es', hperm', hes'⟩ := h.children.exists_forall₂ hperm hes fun _ _ _ => Alike.entry
  rw [attribute?_of_attributes h.attributes] at hfound
  exact programOf_eq_ok_iff.2 ⟨h.name ▸ hname, ⟨found, hfound, hlanguage⟩, es', xs, hperm', hes', hsorted, hp⟩

/-! ### Rearranged documents are alike -/

section

variable {R : Element → Element → Prop} {content content' : List Node}

private theorem Shuffled.matched (hR : ∀ e, R e e) (h : Shuffled content content') :
    Matched R (content.filterMap Node.element?) (content'.filterMap Node.element?) := by
  cases h with
  | permuted h => exact ⟨_, h.filterMap _, forall₂_self hR _⟩
  | retexted h =>
    have helements : ∀ c : List Node, (c.filter (!·.isText)).filterMap Node.element? = c.filterMap Node.element? := by
      intro c
      rw [List.filterMap_filter]
      congr
      funext n
      cases n <;> rfl
    rw [← helements content, h, helements content']
    exact .of_forall₂ (forall₂_self hR _)

/-- An element may be replaced in content by one that is related to it. -/
private theorem forall₂_replace (hR : ∀ e, R e e) {name : String} {attributes : List Attribute}
    (h : R ⟨name, attributes, content⟩ ⟨name, attributes, content'⟩) (before after : List Node) :
    List.Forall₂ R ((before ++ .element name attributes content :: after).filterMap Node.element?)
      ((before ++ .element name attributes content' :: after).filterMap Node.element?) := by
  simp only [List.filterMap_append, List.filterMap_cons, Node.element?]
  exact List.rel_append (forall₂_self hR _) (.cons h (forall₂_self hR _))

private theorem element?_of_isRemark {n : Node} (h : n.isRemark = true) : n.element? = none := by
  cases n with
  | comment value | instruction target value => rfl
  | element name attributes content | text value => cases h

private theorem text?_of_isRemark {n : Node} (h : n.isRemark = true) : n.text? = none := by
  cases n with
  | comment value | instruction target value => rfl
  | element name attributes content | text value => cases h

/-- The elements of content with a remark put in are the same, but for one that has the remark in its own content. -/
private theorem Remarked.forall₂ (hR : ∀ e, R e e)
    (hwithin : ∀ name attributes content content', Remarked content content' →
      R ⟨name, attributes, content⟩ ⟨name, attributes, content'⟩)
    (h : Remarked content content') :
    List.Forall₂ R (content.filterMap Node.element?) (content'.filterMap Node.element?) := by
  cases h with
  | between before after h =>
    simp only [List.filterMap_append, List.filterMap_cons, element?_of_isRemark h]
    exact forall₂_self hR _
  | withinText before after s t h =>
    simp only [List.filterMap_append, List.filterMap_cons, element?_of_isRemark h]
    exact forall₂_self hR _
  | withinElement before after name attributes h =>
    exact forall₂_replace hR (hwithin name attributes _ _ h) before after

private theorem Remarked.join_text (h : Remarked content content') :
    String.join (content.filterMap Node.text?) = String.join (content'.filterMap Node.text?) := by
  cases h with
  | between before after h =>
    simp only [List.filterMap_append, List.filterMap_cons, text?_of_isRemark h]
  | withinText before after s t h =>
    simp only [List.filterMap_append, List.filterMap_cons, text?_of_isRemark h, String.join_append]
    simp only [Node.text?, String.join_cons, String.append_assoc]
  | withinElement before after name attributes h =>
    simp only [List.filterMap_append, List.filterMap_cons, Node.text?]

private theorem Remarked.alikeArgument {name : String} {attributes : List Attribute} (h : Remarked content content') :
    AlikeArgument ⟨name, attributes, content⟩ ⟨name, attributes, content'⟩ where
  name := rfl
  attributes := rfl
  text := h.join_text
  children := by
    have hlength := (h.forall₂ (R := fun _ _ => True) (fun _ => trivial) (fun _ _ _ _ _ => trivial)).length_eq
    simp only [Element.children, ← List.length_eq_zero_iff, hlength]

private theorem Remarked.alike {name : String} {attributes : List Attribute} (h : Remarked content content') :
    Alike AlikeArgument ⟨name, attributes, content⟩ ⟨name, attributes, content'⟩ :=
  ⟨rfl, rfl, .of_forall₂ (h.forall₂ AlikeArgument.refl fun _ _ _ _ => Remarked.alikeArgument)⟩

end

private theorem Rearranged.alike {root root' : Element} (h : Rearranged root root') :
    Alike (Alike AlikeArgument) root root' := by
  have hrefl : ∀ e, Alike AlikeArgument e e := Alike.refl AlikeArgument.refl
  cases h with
  | root h => exact ⟨rfl, rfl, h.matched hrefl⟩
  | @child before after name attributes content content' hroot h =>
    have hchild : Alike AlikeArgument ⟨name, attributes, content⟩ ⟨name, attributes, content'⟩ :=
      ⟨rfl, rfl, h.matched AlikeArgument.refl⟩
    refine ⟨rfl, rfl, .of_forall₂ ?_⟩
    rw [Element.children, hroot]
    exact forall₂_replace hrefl hchild before after
  | remark h => exact ⟨rfl, rfl, .of_forall₂ (h.forall₂ hrefl fun _ _ _ _ => Remarked.alike)⟩

private theorem programOf_rearranged {root root' : Element} (h : Rearranged root root') (p : Program) :
    programOf root = .ok p ↔ programOf root' = .ok p :=
  ⟨h.alike.programOf, (h.alike.symm fun _ _ h => h.symm fun _ _ h => h.symm).programOf⟩

/-! ### What a program takes from its document -/

/-- An element that stands for an instruction: it has one argument for each operand, named after its position. -/
structure Denotes (e : Element) (i : Instruction) : Prop where
  name : e.name = "instruction"
  opcode : ∃ word, e.attribute? "opcode" = some word ∧ Opcode.parse (Text.trim word) = .ok i.opcode
  arguments : (e.children.map Element.name).Perm ((List.range i.operands.length).map argumentName)
  operands : ∀ k o, i.operands[k]? = some o → ∃ a ∈ e.children, a.name = argumentName k ∧ operand a = .ok o

private theorem denotes_of_entry {e : Element} {x : Entry} (h : entry e = .ok x) : Denotes e x.instruction := by
  obtain ⟨hname, _, word, hword, hi⟩ := entry_eq_ok_iff.1 h
  obtain ⟨hopcode, hos, _⟩ := instructionOf_eq_ok_iff.1 hi
  obtain ⟨hle, args, hperm, hargs⟩ := operandsOf_eq_ok_iff.1 hos
  obtain ⟨hnames, _, hos⟩ := provides_zip_iff.1 ⟨hle, hargs⟩
  have hlength := hos.length_eq
  rw [hlength, take_argumentNames hle] at hnames
  refine ⟨hname, ⟨word, hword, hopcode⟩, hnames ▸ (hperm.map Element.name).symm, ?_⟩
  intro k o ho
  obtain ⟨hk, rfl⟩ := List.getElem?_eq_some_iff.1 ho
  have hk' : k < args.length := hlength ▸ hk
  refine ⟨args[k], hperm.mem_iff.1 (List.getElem_mem hk'), ?_, hos.get hk' hk⟩
  apply Option.some.inj
  calc some args[k].name = (args.map Element.name)[k]? := by simp [hk']
    _ = some (argumentName k) := by simp [hnames, hk]

/-- A program has one instruction for each child of the root, in strictly increasing order of these, each with its
operands from the arguments of their positions. It stays the same program, and what is no program stays none, when the
children of the root or of an instruction are put in another order, when comments or processing instructions are put
in anywhere, and when the text outside arguments is changed. -/
theorem program_independent_of_arrangement (root : Element) :
    (∀ p, programOf root = .ok p → ∃ es orders, es.Perm root.children ∧
      List.Forall₂ (fun e n => e.order? = some n) es orders ∧ orders.Pairwise (· < ·) ∧
      List.Forall₂ Denotes es p.toList) ∧
    ∀ root', Relation.ReflTransGen Rearranged root root' →
      ∀ p, programOf root = .ok p ↔ programOf root' = .ok p := by
  constructor
  · intro p h
    obtain ⟨_, _, es, xs, hperm, hes, hsorted, rfl⟩ := programOf_eq_ok_iff.1 h
    refine ⟨es, xs.map Entry.order, hperm, ?_, List.pairwise_map.2 hsorted, ?_⟩
    · exact List.forall₂_map_right_iff.2 (hes.imp fun e x h => (entry_eq_ok_iff.1 h).2.1)
    · exact List.forall₂_map_right_iff.2 (hes.imp fun e x => denotes_of_entry)
  · intro root' h p
    induction h with
    | refl => exact Iff.rfl
    | tail _ hstep ih => exact ih.trans (programOf_rearranged hstep p)

/-- A document out of order, and the same with the arguments exchanged and a comment within a text. -/
theorem program_independent_of_arrangement_comment :
    let child (order opcode : String) (content : List Node) : Node :=
      .element "instruction" [⟨none, "order", order⟩, ⟨none, "opcode", opcode⟩] content
    let arg (name kind : String) (content : List Node) : Node := .element name [⟨none, "type", kind⟩] content
    let declaration := child "2" "defvar" [arg "arg1" "var" [.text "GF@x"]]
    let root : Element := ⟨"program", [⟨none, "language", "IPPcode23"⟩],
      [child "7" "MOVE" [arg "arg1" "var" [.text "GF@x"], arg "arg2" "string" [.text "ab"]], declaration]⟩
    let root' : Element := ⟨"program", [⟨none, "language", "IPPcode23"⟩],
      [child "7" "MOVE" [arg "arg2" "string" [.text "a", .comment "and", .text "b"], arg "arg1" "var" [.text "GF@x"]],
        declaration]⟩
    let p : Program := #[⟨.defVar, [.var ⟨.global, "x"⟩]⟩, ⟨.unary .move, [.var ⟨.global, "x"⟩, .const (.string "ab")]⟩]
    programOf root = .ok p ∧ Relation.ReflTransGen Rearranged root root' ∧ programOf root' = .ok p ∧
      ∃ es orders, es.Perm root.children ∧ List.Forall₂ (fun e n => e.order? = some n) es orders ∧
        orders.Pairwise (· < ·) ∧ List.Forall₂ Denotes es p.toList := by
  intro child arg declaration root root' p
  have hroot : programOf root = .ok p := by decide
  have hremark : Remarked root.content
      [child "7" "MOVE" [arg "arg1" "var" [.text "GF@x"], arg "arg2" "string" [.text "a", .comment "and", .text "b"]],
        declaration] :=
    .withinElement [] [declaration] _ _ (.withinElement [arg "arg1" "var" [.text "GF@x"]] [] _ _
      (.withinText [] [] "a" "b" rfl))
  have hchanged : Relation.ReflTransGen Rearranged root root' :=
    .tail (.single (.remark hremark)) (.child [] [declaration] rfl (.permuted (.swap _ _ _)))
  obtain ⟨hdenotes, hsame⟩ := program_independent_of_arrangement root
  exact ⟨hroot, hchanged, (hsame root' hchanged p).1 hroot, hdenotes p hroot⟩

end IPPcode23.Xml
