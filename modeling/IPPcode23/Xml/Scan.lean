import IPPcode23.Xml.Character

/-!
# Reading the parts of markup

Each function reads one part from the front of a character sequence and returns it with what is left. What is left is
shorter, so reading part after part comes to an end.
-/

namespace IPPcode23.Xml

/-- A name with the mark of its namespace, empty where it has none. -/
structure QName where
  space : String
  name : String
  deriving DecidableEq, Repr

/-- Drops white space. -/
def skipSpaces (cs : List Char) : List Char :=
  cs.dropWhile isSpace

/-- Drops a fixed text. -/
def after? : List Char → List Char → Option (List Char)
  | [], cs => some cs
  | a :: as, c :: cs => if a = c then after? as cs else none
  | _ :: _, [] => none

/-- Reads up to the first occurrence of a fixed text and drops that. -/
def until? (stop : List Char) : List Char → Option (List Char × List Char)
  | [] => none
  | c :: cs =>
    match after? stop (c :: cs) with
    | some rest => some ([], rest)
    | none => if isXmlChar c then (until? stop cs).map fun (text, rest) => (c :: text, rest) else none

/-- Reads the rest of a quoted value, in which `<` may not stand. -/
def value? (quote : Char) : List Char → Option (List Char × List Char)
  | [] => none
  | c :: cs =>
    if c = quote then some ([], cs)
    else if c == '<' || !isXmlChar c then none
    else (value? quote cs).map fun (text, rest) => (c :: text, rest)

/-- The parts of a name that holds at most one colon. Neither part may begin like the middle of a name, and the local
part may not be empty. -/
def splitName? (word : List Char) : Option QName :=
  let (space, name) :=
    match word.dropWhile (· != ':') with
    | [] => ([], word)
    | _ :: name => (word.takeWhile (· != ':'), name)
  if space.head?.all isNameStart && name.head?.any isNameStart && !name.contains ':' then
    some ⟨String.ofList space, String.ofList name⟩
  else none

/-- Reads a name. -/
def qname? (cs : List Char) : Option (QName × List Char) :=
  (splitName? (cs.takeWhile isNameChar)).map fun name => (name, cs.dropWhile isNameChar)

/-- Reads an equals sign with white space around it. -/
def equals? (cs : List Char) : Option (List Char) :=
  (after? ['='] (skipSpaces cs)).map skipSpaces

/-- Reads a value in single or double quotes. -/
def quoted? : List Char → Option (List Char × List Char)
  | '"' :: cs => value? '"' cs
  | '\'' :: cs => value? '\'' cs
  | _ => none

/-- Reads an attribute: a name and its value as it is written. -/
def attribute? (cs : List Char) : Option ((QName × List Char) × List Char) := do
  let (name, cs) ← qname? cs
  let cs ← equals? cs
  let (value, cs) ← quoted? cs
  return ((name, value), cs)

/-! ### What is left is shorter -/

theorem length_dropWhile_le {α : Type} (p : α → Bool) (xs : List α) : (xs.dropWhile p).length ≤ xs.length :=
  (List.dropWhile_sublist p).length_le

theorem length_after? {stop cs rest : List Char} (h : after? stop cs = some rest) :
    rest.length + stop.length = cs.length := by
  induction stop generalizing cs with
  | nil =>
    simp only [after?, Option.some.injEq] at h
    simp [h]
  | cons a as ih =>
    cases cs with
    | nil => simp [after?] at h
    | cons c cs =>
      unfold after? at h
      split at h
      · have := ih h
        simp only [List.length_cons]
        omega
      · simp at h

theorem length_until? {stop cs text rest : List Char} (hstop : stop ≠ []) (h : until? stop cs = some (text, rest)) :
    rest.length < cs.length := by
  induction cs generalizing text with
  | nil => simp [until?] at h
  | cons c cs ih =>
    unfold until? at h
    split at h
    case h_1 rest' hafter =>
      have hlen := length_after? hafter
      have hpos : 0 < stop.length := List.length_pos_iff.2 hstop
      simp only [Option.some.injEq, Prod.mk.injEq] at h
      rw [h.2] at hlen
      omega
    case h_2 =>
      split at h
      · obtain ⟨⟨t, r⟩, hrec, heq⟩ := Option.map_eq_some_iff.1 h
        simp only [Prod.mk.injEq] at heq
        have := ih (heq.2 ▸ hrec)
        simp only [List.length_cons]
        omega
      · simp at h

private theorem length_value? {quote : Char} {cs text rest : List Char} (h : value? quote cs = some (text, rest)) :
    rest.length < cs.length := by
  induction cs generalizing text with
  | nil => simp [value?] at h
  | cons c cs ih =>
    unfold value? at h
    split at h
    · simp only [Option.some.injEq, Prod.mk.injEq] at h
      simp [h.2]
    · split at h
      · simp at h
      · obtain ⟨⟨t, r⟩, hrec, heq⟩ := Option.map_eq_some_iff.1 h
        simp only [Prod.mk.injEq] at heq
        have := ih (heq.2 ▸ hrec)
        simp only [List.length_cons]
        omega

theorem length_qname? {cs rest : List Char} {name : QName} (h : qname? cs = some (name, rest)) :
    rest.length < cs.length := by
  unfold qname? at h
  obtain ⟨q, hsplit, heq⟩ := Option.map_eq_some_iff.1 h
  simp only [Prod.mk.injEq] at heq
  have hword : cs.takeWhile isNameChar ≠ [] := by
    intro hnil
    rw [hnil] at hsplit
    simp [splitName?] at hsplit
  have hpos : 0 < (cs.takeWhile isNameChar).length := List.length_pos_iff.2 hword
  have hsum : (cs.takeWhile isNameChar).length + (cs.dropWhile isNameChar).length = cs.length := by
    rw [← List.length_append, List.takeWhile_append_dropWhile]
  rw [← heq.2]
  omega

private theorem length_equals? {cs rest : List Char} (h : equals? cs = some rest) : rest.length < cs.length := by
  unfold equals? at h
  obtain ⟨r, hafter, heq⟩ := Option.map_eq_some_iff.1 h
  have hlen := length_after? hafter
  have hskip := length_dropWhile_le isSpace cs
  have hskip' := length_dropWhile_le isSpace r
  unfold skipSpaces at hlen heq
  rw [← heq]
  simp only [List.length_singleton] at hlen
  omega

private theorem length_quoted? {cs text rest : List Char} (h : quoted? cs = some (text, rest)) :
    rest.length < cs.length := by
  unfold quoted? at h
  split at h
  · exact Nat.lt_succ_of_lt (length_value? h)
  · exact Nat.lt_succ_of_lt (length_value? h)
  · simp at h

theorem length_attribute? {cs rest : List Char} {a : QName × List Char} (h : attribute? cs = some (a, rest)) :
    rest.length < cs.length := by
  unfold attribute? at h
  simp only [Option.bind_eq_bind, Option.bind_eq_some_iff, Option.pure_def, Option.some.injEq, Prod.mk.injEq] at h
  obtain ⟨⟨name, cs₁⟩, hname, cs₂, heq, ⟨value, cs₃⟩, hvalue, _, hrest⟩ := h
  have := length_qname? hname
  have := length_equals? heq
  have := length_quoted? hvalue
  rw [← hrest]
  simp only at *
  omega

end IPPcode23.Xml
