import IPPcode23.Xml.Scan

/-!
# Markup

A document as the sequence of its tags, texts, comments and processing instructions, before it is known whether the
tags match.
-/

namespace IPPcode23.Xml

/-- An attribute as it is written. -/
abbrev RawAttribute := QName × List Char

/-- A part of a document as it is written. -/
inductive Markup where
  | startTag (name : QName) (attributes : List RawAttribute)
  | emptyTag (name : QName) (attributes : List RawAttribute)
  | endTag (name : QName)
  | text (raw : List Char)
  | cdata (raw : List Char)
  | comment (raw : List Char)
  | instruction (target content : List Char)
  deriving DecidableEq, Repr

/-- Reads the attributes of a tag and its end. Tells whether the tag is that of an empty element. -/
def attributes? (cs : List Char) : Option ((List RawAttribute × Bool) × List Char) :=
  match h : skipSpaces cs with
  | '/' :: '>' :: rest => some (([], true), rest)
  | '>' :: rest => some (([], false), rest)
  | inner =>
    if cs.head?.any isSpace then
      match ha : attribute? inner with
      | none => none
      | some (a, rest) =>
        have : rest.length < cs.length := by
          have hskip := length_dropWhile_le isSpace cs
          have hattr := length_attribute? ha
          unfold skipSpaces at h
          rw [h] at hskip
          omega
        (attributes? rest).map fun ((as, isEmpty), rest) => ((a :: as, isEmpty), rest)
    else none
termination_by cs.length

/-- Reads a start tag or the tag of an empty element after its `<`. -/
def tag? (cs : List Char) : Option (Markup × List Char) := do
  let (name, cs) ← qname? cs
  let ((attributes, isEmpty), cs) ← attributes? cs
  return (if isEmpty then .emptyTag name attributes else .startTag name attributes, cs)

/-- Reads an end tag after its `</`. -/
def endTag? (cs : List Char) : Option (Markup × List Char) := do
  let (name, cs) ← qname? cs
  let cs ← after? ['>'] (skipSpaces cs)
  return (.endTag name, cs)

/-- Whether a sequence holds a fixed text. -/
def holds (text : List Char) : List Char → Bool
  | [] => (after? text []).isSome
  | c :: cs => (after? text (c :: cs)).isSome || holds text cs

/-- Reads a comment after its `<!--`. Two hyphens may not stand in it, nor a hyphen at its end. -/
def comment? (cs : List Char) : Option (Markup × List Char) := do
  let (raw, cs) ← until? ['-', '-', '>'] cs
  if holds ['-', '-'] raw || raw.getLast? == some '-' then none else return (.comment raw, cs)

/-- Reads a processing instruction after its `<?`. It may not look like an XML declaration. -/
def instruction? (cs : List Char) : Option (Markup × List Char) := do
  if (after? ['x', 'm', 'l', ' '] cs).isSome || !cs.head?.any isNameStart then none
  let (content, rest) ← until? ['?', '>'] (skipSpaces (cs.dropWhile isNameChar))
  return (.instruction (cs.takeWhile isNameChar) content, rest)

/-- Reads text up to the next markup. The end of a CDATA section may not stand in it. -/
def text? (cs : List Char) : Option (Markup × List Char) :=
  let raw := cs.takeWhile (· != '<')
  if raw.isEmpty || !raw.all isXmlChar || holds [']', ']', '>'] raw then none
  else some (.text raw, cs.dropWhile (· != '<'))

/-- Reads the part of a document that begins at the front. -/
def markup? : List Char → Option (Markup × List Char)
  | '<' :: '!' :: '-' :: '-' :: cs => comment? cs
  | '<' :: '!' :: '[' :: 'C' :: 'D' :: 'A' :: 'T' :: 'A' :: '[' :: cs =>
    (until? [']', ']', '>'] cs).map fun (raw, rest) => (.cdata raw, rest)
  | '<' :: '?' :: cs => instruction? cs
  | '<' :: '/' :: cs => endTag? cs
  | '<' :: cs => tag? cs
  | cs => text? cs

/-! ### What is left is shorter -/

private theorem length_attributes? {cs rest : List Char} {a : List RawAttribute × Bool}
    (h : attributes? cs = some (a, rest)) : rest.length < cs.length := by
  induction hn : cs.length using Nat.strongRecOn generalizing cs a rest with
  | ind n ih =>
    have hskip := length_dropWhile_le isSpace cs
    unfold attributes? at h
    split at h
    case h_1 r hs =>
      simp only [Option.some.injEq, Prod.mk.injEq] at h
      unfold skipSpaces at hs
      rw [hs, h.2] at hskip
      simp only [List.length_cons] at hskip
      omega
    case h_2 r hs =>
      simp only [Option.some.injEq, Prod.mk.injEq] at h
      unfold skipSpaces at hs
      rw [hs, h.2] at hskip
      simp only [List.length_cons] at hskip
      omega
    case h_3 =>
      split at h
      · split at h
        · simp at h
        · next a' rest' ha =>
          obtain ⟨⟨as, r⟩, hrec, heq⟩ := Option.map_eq_some_iff.1 h
          simp only [Prod.mk.injEq] at heq
          have hattr := length_attribute? ha
          unfold skipSpaces at hattr
          have hlt : rest'.length < n := by omega
          have := ih rest'.length hlt hrec rfl
          rw [← heq.2]
          omega
      · simp at h

private theorem length_tag? {cs rest : List Char} {x : Markup} (h : tag? cs = some (x, rest)) :
    rest.length < cs.length := by
  unfold tag? at h
  simp only [Option.bind_eq_bind, Option.bind_eq_some_iff, Option.pure_def, Option.some.injEq, Prod.mk.injEq] at h
  obtain ⟨⟨name, cs₁⟩, hname, ⟨a, cs₂⟩, hattrs, _, hrest⟩ := h
  have := length_qname? hname
  have := length_attributes? hattrs
  rw [← hrest]
  simp only at *
  omega

private theorem length_endTag? {cs rest : List Char} {x : Markup} (h : endTag? cs = some (x, rest)) :
    rest.length < cs.length := by
  unfold endTag? at h
  simp only [Option.bind_eq_bind, Option.bind_eq_some_iff, Option.pure_def, Option.some.injEq, Prod.mk.injEq] at h
  obtain ⟨⟨name, cs₁⟩, hname, cs₂, hafter, _, hrest⟩ := h
  have := length_qname? hname
  have := length_after? hafter
  have := length_dropWhile_le isSpace cs₁
  unfold skipSpaces at *
  rw [← hrest]
  simp only [List.length_singleton] at *
  omega

private theorem length_comment? {cs rest : List Char} {x : Markup} (h : comment? cs = some (x, rest)) :
    rest.length < cs.length := by
  unfold comment? at h
  simp only [Option.bind_eq_bind, Option.bind_eq_some_iff] at h
  obtain ⟨⟨raw, cs₁⟩, huntil, h⟩ := h
  split at h
  · simp at h
  · simp only [Option.pure_def, Option.some.injEq, Prod.mk.injEq] at h
    rw [← h.2]
    exact length_until? (by simp) huntil

private theorem length_instruction? {cs rest : List Char} {x : Markup} (h : instruction? cs = some (x, rest)) :
    rest.length < cs.length := by
  unfold instruction? at h
  split at h
  · simp at h
  · simp only [Option.bind_eq_bind, Option.bind_eq_some_iff, Option.pure_def, Option.some.injEq,
      Prod.mk.injEq] at h
    obtain ⟨⟨content, cs₁⟩, huntil, _, hrest⟩ := h
    have := length_until? (by simp) huntil
    have := length_dropWhile_le isSpace (cs.dropWhile isNameChar)
    have := length_dropWhile_le isNameChar cs
    unfold skipSpaces at *
    rw [← hrest]
    simp only at *
    omega

private theorem length_text? {cs rest : List Char} {x : Markup} (h : text? cs = some (x, rest)) :
    rest.length < cs.length := by
  unfold text? at h
  simp only at h
  split at h
  · simp at h
  · next hraw =>
    simp only [Option.some.injEq, Prod.mk.injEq] at h
    have hsum : (cs.takeWhile (· != '<')).length + (cs.dropWhile (· != '<')).length = cs.length := by
      rw [← List.length_append, List.takeWhile_append_dropWhile]
    have hpos : 0 < (cs.takeWhile (· != '<')).length := by
      apply List.length_pos_iff.2
      intro hnil
      simp [hnil] at hraw
    rw [← h.2]
    omega

private theorem length_markup? {cs rest : List Char} {x : Markup} (h : markup? cs = some (x, rest)) :
    rest.length < cs.length := by
  unfold markup? at h
  split at h
  · have := length_comment? h
    simp only [List.length_cons]
    omega
  · obtain ⟨⟨raw, r⟩, huntil, heq⟩ := Option.map_eq_some_iff.1 h
    simp only [Prod.mk.injEq] at heq
    have := length_until? (by simp) huntil
    rw [← heq.2]
    simp only [List.length_cons]
    omega
  · have := length_instruction? h
    simp only [List.length_cons]
    omega
  · have := length_endTag? h
    simp only [List.length_cons]
    omega
  · have := length_tag? h
    simp only [List.length_cons]
    omega
  · exact length_text? h

/-- Reads all parts of a document. -/
def markups? (cs : List Char) : Option (List Markup) :=
  if cs.isEmpty then some []
  else
    match h : markup? cs with
    | none => none
    | some (x, rest) =>
      have : rest.length < cs.length := length_markup? h
      (markups? rest).map (x :: ·)
termination_by cs.length

/-- Reads the XML declaration after its `<?xml`: a version, perhaps an encoding, perhaps a standalone note. What they
say does not matter. -/
def declaration? (cs : List Char) : Option (List Char) := do
  let cs := skipSpaces cs
  let _ ← after? "version".toList cs
  let (_, cs) ← attribute? cs
  let cs ← spaced? cs
  let cs ← optional? "encoding".toList cs
  let cs ← if (after? "standalone".toList cs).isSome then (attribute? cs).map Prod.snd else some cs
  after? ['?', '>'] (skipSpaces cs)
where
  /-- White space, which may only be missing at the end. -/
  spaced? (cs : List Char) : Option (List Char) :=
    if cs.head?.all isSpace || (after? ['?', '>'] cs).isSome then some (skipSpaces cs) else none
  /-- An attribute whose name begins with a word, if the word is there. -/
  optional? (word cs : List Char) : Option (List Char) :=
    if (after? word cs).isSome then (attribute? cs).bind fun (_, cs) => spaced? cs else some cs

/-- Drops a byte order mark and the XML declaration, if they are there. -/
def prologue? (cs : List Char) : Option (List Char) :=
  let cs := (after? ['\ufeff'] cs).getD cs
  if (after? "<?xml ".toList cs).isSome then declaration? (cs.drop 5) else some cs

end IPPcode23.Xml
