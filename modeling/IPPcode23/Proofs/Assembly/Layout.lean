import IPPcode23.Proofs.Assembly.Composition
import IPPcode23.Proofs.Text.Fold
import Mathlib.Data.List.Forall2
import Mathlib.Logic.Relation

/-!
# Layout of assembly text

What a text assembles to depends on the words of its lines only (`sameButLine_of_content`), so lines without words, the
separators between words, comments and the kind of line ends can be changed at will. A change to a line keeps its words
(`LineEdit.words_eq`), and a change to a text touches one line or adds one without words (`Edit.content_eq`). Where a
text assembles, the first words of its lines can moreover be written in upper and lower case (`assemble_of_recased`).
-/

namespace IPPcode23.Assembly

/-! ### Edits -/

/-- The characters that stand between the words of a line. -/
def separators : List Char := [' ', '\t', '\x0c', '\r']

/-- A text of separators only. -/
def IsSpacing (gap : String) : Prop :=
  ∀ c ∈ gap.toList, c ∈ separators

/-- A comment as far as the end of its line. -/
def IsComment (comment : String) : Prop :=
  ∃ text, comment = "#" ++ text ∧ '\n' ∉ text.toList

/-- A line of separators and at most a comment. -/
def IsBlankLine (line : String) : Prop :=
  ∃ gap comment, IsSpacing gap ∧ (comment = "" ∨ IsComment comment) ∧ line = gap ++ comment

/-- An end of a line. -/
def IsLineEnd (ending : String) : Prop :=
  ending = "\n" ∨ ending = "\r\n"

/-- A text after which a line begins. -/
def BeginsLine (before : String) : Prop :=
  before = "" ∨ ∃ text, before = text ++ "\n"

/-- A text before which a line ends. -/
def EndsLine (after : String) : Prop :=
  after = "" ∨ ∃ ending text, IsLineEnd ending ∧ after = ending ++ text

/-- A part of a line after which a word begins. -/
def BeginsWord (before : String) : Prop :=
  '\n' ∉ before.toList ∧ '#' ∉ before.toList ∧ ∀ c ∈ before.toList.getLast?, c ∈ separators

/-- A part of a line before which a word ends. -/
def EndsWord (after : String) : Prop :=
  '\n' ∉ after.toList ∧ ∀ c ∈ after.toList.head?, c ∈ separators ∨ c = '#'

/-- A change to the layout of a line. -/
inductive LineEdit : String → String → Prop where
  /-- Other separators between two parts of a line. -/
  | spacing {x y gap gap' : String} (hx : '#' ∉ x.toList) (hgap : IsSpacing gap) (hne : gap ≠ "")
    (hgap' : IsSpacing gap') (hne' : gap' ≠ "") : LineEdit (x ++ gap ++ y) (x ++ gap' ++ y)
  /-- Separators at the beginning. -/
  | indent {line gap : String} (hgap : IsSpacing gap) : LineEdit line (gap ++ line)
  /-- Separators at the end. -/
  | trail {line gap : String} (hgap : IsSpacing gap) : LineEdit line (line ++ gap)
  /-- A comment at the end. -/
  | comment {line comment : String} (h : IsComment comment) : LineEdit line (line ++ comment)
  /-- Another comment. -/
  | recomment {line comment comment' : String} (h : IsComment comment) (h' : IsComment comment') :
    LineEdit (line ++ comment) (line ++ comment')

/-- A change to the layout of a text. -/
inductive Edit : String → String → Prop where
  /-- A change to one line. -/
  | line {before line line' after : String} (hbefore : BeginsLine before) (hafter : EndsLine after)
    (hline : '\n' ∉ line.toList) (hline' : '\n' ∉ line'.toList) (h : LineEdit line line') :
    Edit (before ++ line ++ after) (before ++ line' ++ after)
  /-- A line without words before another one or after the last one. -/
  | insert {before blank ending after : String} (hbefore : BeginsLine before) (hblank : IsBlankLine blank)
    (hending : IsLineEnd ending) : Edit (before ++ after) (before ++ (blank ++ ending) ++ after)
  /-- A line without words behind a last line, which is ended by it. -/
  | append {before blank ending : String} (hblank : IsBlankLine blank) (hending : IsLineEnd ending) :
    Edit before (before ++ (ending ++ blank))
  /-- The other end of a line. -/
  | lineEnd {before after : String} : Edit (before ++ "\n" ++ after) (before ++ "\r\n" ++ after)

/-- A change to the case of ASCII letters in the first word of a line. -/
inductive Recased : String → String → Prop where
  | word {before gap word word' tail after : String} (hbefore : BeginsLine before) (hgap : IsSpacing gap)
    (hword : IsWord word.toList) (hfold : Text.equalFold word word' = true) (htail : EndsWord tail)
    (hafter : EndsLine after) :
    Recased (before ++ (gap ++ word ++ tail) ++ after) (before ++ (gap ++ word' ++ tail) ++ after)

/-- The same result, or the same fault, be it at another line. -/
inductive SameButLine {α : Type} : Except LoadError α → Except LoadError α → Prop where
  | ok (a : α) : SameButLine (.ok a) (.ok a)
  | error (n k : Nat) (cause : SourceFault) :
    SameButLine (.error (.invalid (.line n) cause)) (.error (.invalid (.line k) cause))

/-- The words of the lines of a text, line by line. -/
def wordsByLine (text : String) : List (List String) :=
  (statements 1 (Text.lines text)).map fun s => s.head.text :: s.tail.map Token.text

-- decided on the characters of the text: characters are finitely many, but too many to be gone through
instance (gap : String) : Decidable (IsSpacing gap) :=
  decidable_of_iff (gap.toList.all separators.contains = true) (by simp [IsSpacing])

instance (before : String) : Decidable (BeginsWord before) :=
  decidable_of_iff (before.toList.contains '\n' = false ∧ before.toList.contains '#' = false ∧
    before.toList.getLast?.all separators.contains = true) (by simp [BeginsWord, Option.all_eq_true])

instance (after : String) : Decidable (EndsWord after) :=
  decidable_of_iff (after.toList.contains '\n' = false ∧
    (after.toList.head?.all fun c => separators.contains c || c == '#') = true) (by simp [EndsWord, Option.all_eq_true])

private theorem isSeparator_iff {c : Char} : isSeparator c = true ↔ c ∈ separators ∨ c = '\n' := by
  simp only [isSeparator, separators, Bool.or_eq_true, beq_iff_eq, List.mem_cons, List.not_mem_nil, or_false]
  tauto

private theorem isWord_toList_iff {word : String} :
    IsWord word.toList ↔ word ≠ "" ∧ ∀ c ∈ word.toList, c ∉ separators ∧ c ≠ '\n' ∧ c ≠ '#' := by
  constructor
  · intro h
    refine ⟨fun hempty => h.ne_nil (by simp [hempty]), fun c hc => ?_⟩
    have hseparator := h.separator c hc
    rw [← Bool.not_eq_true, isSeparator_iff, not_or] at hseparator
    refine ⟨hseparator.1, hseparator.2, ?_⟩
    rintro rfl
    exact h.comment hc
  · rintro ⟨hne, h⟩
    refine ⟨by simpa using hne, fun c hc => ?_, fun hc => (h '#' hc).2.2 rfl⟩
    rw [← Bool.not_eq_true, isSeparator_iff]
    exact not_or.2 ⟨(h c hc).1, (h c hc).2.1⟩

private theorem IsSpacing.isGap {gap : String} (h : IsSpacing gap) : IsGap gap.toList :=
  fun c hc => isSeparator_iff.2 (Or.inl (h c hc))

private theorem IsSpacing.not_mem_lf {gap : String} (h : IsSpacing gap) : '\n' ∉ gap.toList := by
  intro hc
  exact absurd (h '\n' hc) (by decide)

private theorem IsSpacing.beginsWord {gap : String} (h : IsSpacing gap) : BeginsWord gap :=
  ⟨h.not_mem_lf, h.isGap.not_mem_comment, fun c hc => h c (List.mem_of_getLast? hc)⟩

private theorem IsSpacing.tokenize_eq {gap : String} (h : IsSpacing gap) : tokenize gap = [] := by
  have hwords : words (gap.toList ++ []) = words [] := words_gap_append h.isGap []
  rw [List.append_nil] at hwords
  rw [tokenize, uncomment_of_not_mem h.isGap.not_mem_comment, hwords]
  rfl

/-! ### The content of a text -/

/-- The words of those lines that have any. -/
def content (text : List Char) : List (List Token) :=
  ((Text.splitLines '\n' '\r' text).map fun line => tokenize (String.ofList line)).filter fun tokens => !tokens.isEmpty

/-- The words of a line, unless it has none. -/
def lineContent (line : List Char) : List (List Token) :=
  [tokenize (String.ofList line)].filter fun tokens => !tokens.isEmpty

private theorem content_line_append {line : List Char} (h : '\n' ∉ line) (rest : List Char) :
    content (line ++ '\n' :: rest) = lineContent line ++ content rest := by
  obtain ⟨line', hsplit, hwords⟩ := exists_splitLines_append h rest
  unfold content lineContent
  rw [hsplit, List.map_cons, hwords, ← List.singleton_append, List.filter_append]

private theorem content_of_not_mem {line : List Char} (h : '\n' ∉ line) : content line = lineContent line := by
  by_cases hne : line = []
  · subst hne
    rfl
  · unfold content lineContent
    rw [Text.splitLines_of_not_mem hne h]
    rfl

/-- What an end adds to the content of a line it adds to the content of every text. -/
private theorem content_append_of_line {ending : List Char} {added : List (List Token)}
    (h : ∀ line : List Char, '\n' ∉ line → content (line ++ ending) = content line ++ added) (a : List Char) :
    content (a ++ ending) = content a ++ added := by
  -- generalized to a beginning of the first line, which grows until that line ends
  have hline : ∀ line : List Char, '\n' ∉ line → content (line ++ (a ++ ending)) = content (line ++ a) ++ added := by
    induction a with
    | nil =>
      intro line hline
      rw [List.nil_append, List.append_nil, h line hline]
    | cons c a ih =>
      intro line hline
      by_cases hc : c = '\n'
      · subst hc
        have hrest := ih [] (by simp)
        rw [List.nil_append, List.nil_append] at hrest
        rw [List.cons_append, content_line_append hline, content_line_append hline, hrest, List.append_assoc]
      · have hnext := ih (line ++ [c]) (by simp [hline, Ne.symm hc])
        rwa [List.append_assoc, List.append_assoc] at hnext
  exact hline [] (by simp)

private theorem content_append_lf (a b : List Char) : content (a ++ '\n' :: b) = content a ++ content b := by
  apply content_append_of_line
  intro line h
  rw [content_line_append h, content_of_not_mem h]

private theorem lineContent_congr {line line' : List Char} (h : words (uncomment line) = words (uncomment line')) :
    lineContent line = lineContent line' := by
  unfold lineContent tokenize
  rw [String.toList_ofList, String.toList_ofList, h]

/-- What follows the end of a line is apart from what stands before it. -/
private theorem BeginsLine.content_append {before : String} (h : BeginsLine before) (rest : List Char) :
    content (before.toList ++ rest) = content before.toList ++ content rest := by
  rcases h with rfl | ⟨text, rfl⟩
  · rfl
  · have hend : content (text.toList ++ '\n' :: []) = content text.toList ++ [] := content_append_lf text.toList []
    have hlist : (text ++ "\n").toList = text.toList ++ ['\n'] := by simp
    rw [hlist, List.append_assoc, List.singleton_append, content_append_lf, hend, List.append_nil]

private theorem content_append_cr (a : List Char) : content (a ++ ['\r']) = content a := by
  have hline : ∀ line : List Char, '\n' ∉ line → content (line ++ ['\r']) = content line ++ [] := by
    intro line h
    rw [content_of_not_mem (by simp [h]), content_of_not_mem h, List.append_nil]
    exact lineContent_congr (words_uncomment_append_gap isGap_cr line)
  rw [content_append_of_line hline a, List.append_nil]

/-- Either end of a line cuts a text apart. -/
private theorem IsLineEnd.content_append {ending : String} (h : IsLineEnd ending) (a b : List Char) :
    content (a ++ (ending.toList ++ b)) = content a ++ content b := by
  rcases h with rfl | rfl
  · exact content_append_lf a b
  · have hlist : a ++ ("\r\n".toList ++ b) = (a ++ ['\r']) ++ '\n' :: b := by simp
    rw [hlist, content_append_lf, content_append_cr]

private theorem EndsLine.content_append {after : String} (h : EndsLine after) (a : List Char) :
    content (a ++ after.toList) = content a ++ content after.toList := by
  rcases h with rfl | ⟨ending, text, hending, rfl⟩
  · show content (a ++ []) = content a ++ []
    rw [List.append_nil, List.append_nil]
  · have hfirst := hending.content_append [] text.toList
    rw [List.nil_append] at hfirst
    rw [String.toList_append, hending.content_append, hfirst]
    rfl

/-! ### Edits keep the content -/

private theorem IsComment.uncomment_append {comment : String} (h : IsComment comment) (line : String) :
    uncomment (line ++ comment).toList = uncomment line.toList := by
  obtain ⟨text, rfl, _⟩ := h
  have hlist : ("#" ++ text).toList = '#' :: text.toList := by simp
  rw [String.toList_append, hlist, uncomment_append_comment]

theorem LineEdit.words_eq {line line' : String} (h : LineEdit line line') :
    words (uncomment line.toList) = words (uncomment line'.toList) := by
  cases h with
  | @spacing x y gap gap' hx hgap hne hgap' hne' =>
    have hwords : ∀ g : String, IsSpacing g → g ≠ "" →
        words (uncomment (x ++ g ++ y).toList) = words x.toList ++ words (uncomment y.toList) := by
      intro g hg hgne
      have hcomment : '#' ∉ x.toList ++ g.toList := by
        simp [hx, hg.isGap.not_mem_comment]
      rw [String.toList_append, String.toList_append, uncomment_append_of_not_mem hcomment,
        words_append_gap_append hg.isGap (by simpa using hgne)]
    rw [hwords gap hgap hne, hwords gap' hgap' hne']
  | @indent _ gap hgap =>
    rw [String.toList_append, uncomment_append_of_not_mem hgap.isGap.not_mem_comment, words_gap_append hgap.isGap]
  | trail hgap => rw [String.toList_append, words_uncomment_append_gap hgap.isGap]
  | comment h => rw [h.uncomment_append]
  | recomment h h' => rw [h.uncomment_append, h'.uncomment_append]

private theorem IsBlankLine.content_eq {blank : String} (h : IsBlankLine blank) : content blank.toList = [] := by
  obtain ⟨gap, comment, hgap, hcomment, rfl⟩ := h
  -- such a line is what edits make of the empty one
  have htrail : LineEdit "" ("" ++ gap) := .trail hgap
  have hspacing := htrail.words_eq
  rw [String.empty_append] at hspacing
  have hwords : words (uncomment (gap ++ comment).toList) = [] ∧ '\n' ∉ (gap ++ comment).toList := by
    rcases hcomment with rfl | hcomment
    · rw [String.append_empty]
      exact ⟨hspacing.symm, hgap.not_mem_lf⟩
    · rw [← (LineEdit.comment hcomment).words_eq, ← hspacing]
      obtain ⟨text, rfl, htext⟩ := hcomment
      refine ⟨rfl, ?_⟩
      simp [hgap.not_mem_lf, htext]
  have hempty : lineContent (gap ++ comment).toList = lineContent [] := lineContent_congr hwords.1
  rw [content_of_not_mem hwords.2, hempty]
  rfl

theorem Edit.content_eq {s t : String} (h : Edit s t) : content s.toList = content t.toList := by
  cases h with
  | @line before line line' after hbefore hafter hline hline' h =>
    simp only [String.toList_append, List.append_assoc]
    rw [hbefore.content_append, hbefore.content_append, hafter.content_append, hafter.content_append,
      content_of_not_mem hline, content_of_not_mem hline', lineContent_congr h.words_eq]
  | @insert before blank ending after hbefore hblank hending =>
    simp only [String.toList_append, List.append_assoc]
    rw [hbefore.content_append, hbefore.content_append, hending.content_append, hblank.content_eq, List.nil_append]
  | @append _ blank ending hblank hending =>
    rw [String.toList_append, String.toList_append, hending.content_append, hblank.content_eq, List.append_nil]
  | @lineEnd before after =>
    have hlf : IsLineEnd "\n" := Or.inl rfl
    have hcrlf : IsLineEnd "\r\n" := Or.inr rfl
    simp only [String.toList_append, List.append_assoc]
    rw [hlf.content_append, hcrlf.content_append]

/-! ### Content decides -/

/-- The words of a statement. -/
def Statement.words (s : Statement) : List Token :=
  s.head :: s.tail

private theorem map_words_statements (n : Nat) (lines : List String) :
    (statements n lines).map Statement.words = (lines.map tokenize).filter fun tokens => !tokens.isEmpty := by
  induction lines generalizing n with
  | nil => rfl
  | cons line lines ih =>
    rw [statements, List.map_cons]
    cases tokenize line with
    | nil => exact ih (n + 1)
    | cons head tail => exact congrArg ((head :: tail) :: ·) (ih (n + 1))

private theorem map_words_statements_lines (n : Nat) (text : String) :
    (statements n (Text.lines text)).map Statement.words = content text.toList := by
  rw [map_words_statements, Text.lines, List.map_map]
  rfl

private theorem SameButLine.map {α β : Type} {x y : Except LoadError α} (h : SameButLine x y) (f : α → β) :
    SameButLine (f <$> x) (f <$> y) := by
  cases h with
  | ok a => exact .ok (f a)
  | error n k cause => exact .error n k cause

private theorem SameButLine.eq_ok {α : Type} {x y : Except LoadError α} {a : α} (h : SameButLine x y) (hx : x = .ok a) :
    y = .ok a := by
  cases h with
  | ok => exact hx
  | error => cases hx

private theorem sameButLine_instructions {ss ts : List Statement}
    (h : ss.map Statement.words = ts.map Statement.words) : SameButLine (instructions ss) (instructions ts) := by
  induction ss generalizing ts with
  | nil =>
    obtain rfl := List.map_eq_nil_iff.1 h.symm
    exact .ok []
  | cons s ss ih =>
    cases ts with
    | nil => cases h
    | cons t ts =>
      obtain ⟨hwords, hrest⟩ := List.cons.inj h
      obtain ⟨hhead, htail⟩ := List.cons.inj hwords
      rw [instructions, instructions, hhead, htail]
      cases instruction t.head t.tail with
      | error cause => exact .error s.line t.line cause
      | ok i => exact (ih hrest).map (i :: ·)

private theorem isHeader_iff {s : Statement} :
    s.isHeader = true ↔ ∃ text, s.words = [.directive text] ∧ Text.equalFold text header = true := by
  obtain ⟨n, head, tail⟩ := s
  cases head <;> cases tail <;> simp [Statement.isHeader, Statement.words]

private theorem isHeader_of_words {s t : Statement} (h : s.words = t.words) : s.isHeader = t.isHeader := by
  rw [Bool.eq_iff_iff, isHeader_iff, isHeader_iff, h]

/-- Texts of the same content assemble to the same, but for the line of a fault. -/
theorem sameButLine_of_content {s t : String} (h : content s.toList = content t.toList) :
    SameButLine (assemble s) (assemble t) := by
  rw [← map_words_statements_lines 1, ← map_words_statements_lines 1] at h
  unfold assemble
  generalize statements 1 (Text.lines s) = ss at h ⊢
  generalize statements 1 (Text.lines t) = ts at h ⊢
  cases ss with
  | nil =>
    obtain rfl := List.map_eq_nil_iff.1 h.symm
    exact .error 1 1 .missingHeader
  | cons s ss =>
    cases ts with
    | nil => cases h
    | cons t ts =>
      obtain ⟨hwords, hrest⟩ := List.cons.inj h
      rw [programOf, programOf, isHeader_of_words hwords]
      by_cases hheader : t.isHeader = true
      · rw [if_pos hheader, if_pos hheader]
        exact (sameButLine_instructions hrest).map List.toArray
      · rw [if_neg hheader, if_neg hheader]
        exact .error s.line t.line .missingHeader

/-! ### Upper and lower case -/

section

variable {w w' : String}

private theorem isWord_of_equalFold (h : Text.equalFold w w' = true) (hw : IsWord w.toList) : IsWord w'.toList where
  ne_nil hnil := by
    have hfold : Text.fold w = Text.fold w' := Text.equalFold_iff.1 h
    simp only [Text.fold, hnil, List.map_nil, List.map_eq_nil_iff] at hfold
    exact hw.ne_nil hfold
  separator c hc := by
    by_contra hseparator
    rw [Bool.not_eq_false] at hseparator
    have halpha : c.isAlpha = false := by
      simp only [isSeparator_iff, separators, List.mem_cons, List.not_mem_nil, or_false] at hseparator
      rcases hseparator with (rfl | rfl | rfl | rfl) | rfl <;> rfl
    rw [hw.separator c ((Text.mem_iff_of_equalFold h halpha).2 hc)] at hseparator
    cases hseparator
  comment hc := hw.comment ((Text.mem_iff_of_equalFold h rfl).2 hc)

/-- The case of letters makes no difference to the kind of a word. -/
theorem ofWord_of_equalFold (h : Text.equalFold w w' = true) :
    (Token.ofWord w = .directive w ∧ Token.ofWord w' = .directive w') ∨
      (Token.ofWord w = .bare w ∧ Token.ofWord w' = .bare w') ∨
      ∃ mark body, Token.ofWord w = .qualified w mark body := by
  have hdot : w.toList.head? = some '.' ↔ w'.toList.head? = some '.' := Text.head?_iff_of_equalFold h rfl
  have hat : '@' ∈ w.toList ↔ '@' ∈ w'.toList := Text.mem_iff_of_equalFold h rfl
  rcases Token.ofWord_cases w with ⟨hw, hdirective⟩ | ⟨mark, body, _, _, _, hqualified⟩ | ⟨hnone, hw, hbare⟩
  · left
    exact ⟨hdirective, by rw [Token.ofWord, if_pos (hdot.1 hw)]⟩
  · exact Or.inr (Or.inr ⟨mark, body, hqualified⟩)
  · right; left
    exact ⟨hbare, Token.ofWord_bare (fun hc => hnone (hat.2 hc)) (fun hc => hw (hdot.2 hc))⟩

theorem ofMnemonic?_of_equalFold (h : Text.equalFold w w' = true) :
    Opcode.ofMnemonic? w = Opcode.ofMnemonic? w' := by
  unfold Opcode.ofMnemonic? Text.equalFold
  rw [Text.equalFold_iff.1 h]

end

/-- Two lines of the same words but for the case of the first one. -/
def RecasedLine (tokens tokens' : List Token) : Prop :=
  tokens = tokens' ∨ ∃ w w' tail, Text.equalFold w w' = true ∧ tokens = Token.ofWord w :: tail ∧
    tokens' = Token.ofWord w' :: tail

private theorem RecasedLine.instruction {s t : Statement} {i : Instruction} (h : RecasedLine s.words t.words)
    (hi : instruction s.head s.tail = .ok i) : instruction t.head t.tail = .ok i := by
  rcases h with h | ⟨w, w', tail, hfold, hwords, hwords'⟩
  · obtain ⟨hhead, htail⟩ := List.cons.inj h
    rwa [hhead, htail] at hi
  · obtain ⟨hhead, htail⟩ := List.cons.inj hwords
    obtain ⟨hhead', htail'⟩ := List.cons.inj hwords'
    have hopcode : Opcode.ofMnemonic? w = Opcode.ofMnemonic? w' := ofMnemonic?_of_equalFold hfold
    rw [hhead, htail] at hi
    rw [hhead', htail']
    -- a line that begins with a directive or a qualified word is no instruction
    rcases ofWord_of_equalFold hfold with ⟨hw, _⟩ | ⟨hw, hw'⟩ | ⟨mark, body, hw⟩
    · rw [hw] at hi
      cases hi
    · rw [hw, Assembly.instruction, Opcode.parse, hopcode] at hi
      rw [hw', Assembly.instruction, Opcode.parse]
      cases hop : Opcode.ofMnemonic? w' with
      | none => rw [hop] at hi; cases hi
      | some op => rw [hop] at hi; exact hi
    · rw [hw] at hi
      cases hi

private theorem RecasedLine.isHeader {s t : Statement} (h : RecasedLine s.words t.words) (hs : s.isHeader = true) :
    t.isHeader = true := by
  rcases h with h | ⟨w, w', tail, hfold, hwords, hwords'⟩
  · rwa [← isHeader_of_words h]
  · obtain ⟨text, htext, hheader⟩ := isHeader_iff.1 hs
    obtain ⟨hhead, rfl⟩ := List.cons.inj (hwords.symm.trans htext)
    rcases ofWord_of_equalFold hfold with ⟨hw, hw'⟩ | ⟨hw, _⟩ | ⟨mark, body, hw⟩
    · obtain rfl : w = text := Token.directive.inj (hw.symm.trans hhead)
      refine isHeader_iff.2 ⟨w', by rw [hwords', hw'], ?_⟩
      rw [Text.equalFold_iff] at hfold hheader ⊢
      rw [← hfold, hheader]
    · cases hw.symm.trans hhead
    · cases hw.symm.trans hhead

private theorem instructions_of_recased {ss ts : List Statement} {is : List Instruction}
    (h : List.Forall₂ (fun s t => RecasedLine s.words t.words) ss ts) (hss : instructions ss = .ok is) :
    instructions ts = .ok is := by
  induction h generalizing is with
  | nil => exact hss
  | @cons s t ss ts hline _ ih =>
    rw [instructions] at hss
    cases hi : instruction s.head s.tail with
    | error cause => rw [hi] at hss; cases hss
    | ok i =>
      rw [hi] at hss
      obtain ⟨is', his, rfl⟩ := map_eq_ok.1 hss
      rw [instructions, hline.instruction hi, ih his]
      rfl

/-- Lines whose first words differ in case only assemble to the same program, if they do to any. -/
theorem assemble_of_recased {s t : String} {p : Program}
    (h : List.Forall₂ RecasedLine (content s.toList) (content t.toList)) (hs : assemble s = .ok p) :
    assemble t = .ok p := by
  rw [← map_words_statements_lines 1, ← map_words_statements_lines 1, List.forall₂_map_left_iff,
    List.forall₂_map_right_iff] at h
  unfold assemble at hs ⊢
  generalize statements 1 (Text.lines s) = ss at h hs
  generalize statements 1 (Text.lines t) = ts at h ⊢
  cases h with
  | nil => exact hs
  | @cons s t ss ts hline hrest =>
    rw [programOf] at hs ⊢
    by_cases hheader : s.isHeader = true
    · rw [if_pos hheader] at hs
      obtain ⟨is, his, rfl⟩ := map_eq_ok.1 hs
      rw [if_pos (hline.isHeader hheader), instructions_of_recased hrest his]
      rfl
    · rw [if_neg hheader] at hs
      cases hs

/-! ### A word in its place -/

section

variable {before x word y after : String}

private theorem tokenize_word (hx : BeginsWord x) (hword : IsWord word.toList) (hy : EndsWord y) :
    tokenize (x ++ word ++ y) = tokenize x ++ Token.ofWord word :: tokenize y := by
  obtain ⟨_, hcomment, hlast⟩ := hx
  have hlast' : ∀ c, x.toList.getLast? = some c → isSeparator c = true :=
    fun c hc => isSeparator_iff.2 (Or.inl (hlast c hc))
  have hhead : ∀ c, y.toList.head? = some c → isSeparator c = true ∨ c = '#' :=
    fun c hc => (hy.2 c hc).imp_left fun h => isSeparator_iff.2 (Or.inl h)
  unfold tokenize
  rw [String.toList_append, String.toList_append, List.append_assoc, words_uncomment_append hcomment hlast',
    words_uncomment_word_append hword hhead, List.map_append, List.map_cons, String.ofList_toList]

/-- Where a word begins and ends, it is one of the words of its line. -/
private theorem content_word (hbefore : BeginsLine before) (hx : BeginsWord x) (hword : IsWord word.toList)
    (hy : EndsWord y) (hafter : EndsLine after) :
    content (before ++ (x ++ word ++ y) ++ after).toList =
      content before.toList ++ (tokenize x ++ Token.ofWord word :: tokenize y) :: content after.toList := by
  have hline : '\n' ∉ (x ++ word ++ y).toList := by
    have hlf : '\n' ∉ word.toList := fun hc => (hword.ne_lineEnd hc).1 rfl
    simp [hx.1, hlf, hy.1]
  have hwords : lineContent (x ++ word ++ y).toList = [tokenize x ++ Token.ofWord word :: tokenize y] := by
    rw [lineContent, String.ofList_toList, tokenize_word hx hword hy]
    simp
  rw [String.toList_append, String.toList_append, List.append_assoc, hbefore.content_append, hafter.content_append,
    content_of_not_mem hline, hwords, List.singleton_append]

end

private theorem Recased.content {s t : String} (h : Recased s t) :
    List.Forall₂ RecasedLine (content s.toList) (content t.toList) := by
  cases h with
  | @word before gap word word' tail after hbefore hgap hword hfold htail hafter =>
    rw [content_word hbefore hgap.beginsWord hword htail hafter,
      content_word hbefore hgap.beginsWord (isWord_of_equalFold hfold hword) htail hafter, hgap.tokenize_eq]
    have hsame : ∀ lines : List (List Token), List.Forall₂ RecasedLine lines lines :=
      fun lines => List.forall₂_same.2 fun _ _ => Or.inl rfl
    refine List.rel_append (hsame _) (.cons ?_ (hsame _))
    exact Or.inr ⟨word, word', tokenize tail, hfold, rfl, rfl⟩

private theorem wordsByLine_eq (text : String) :
    wordsByLine text = (content text.toList).map (List.map Token.text) := by
  rw [wordsByLine, ← map_words_statements_lines 1, List.map_map]
  rfl

/-! ### Edit after edit -/

private theorem content_eq_of_eqvGen {s t : String} (h : Relation.EqvGen Edit s t) :
    content s.toList = content t.toList := by
  induction h with
  | rel s t h => exact h.content_eq
  | refl s => rfl
  | symm s t _ ih => exact ih.symm
  | trans s t u _ _ ih ih' => exact ih.trans ih'

/-- A change that keeps the program, if there is one. -/
def Rewritten (s t : String) : Prop :=
  Edit s t ∨ Edit t s ∨ Recased s t

private theorem Rewritten.assemble {s t : String} {p : Program} (h : Rewritten s t) (hs : assemble s = .ok p) :
    assemble t = .ok p := by
  rcases h with h | h | h
  · exact (sameButLine_of_content h.content_eq).eq_ok hs
  · exact (sameButLine_of_content h.content_eq.symm).eq_ok hs
  · exact assemble_of_recased h.content hs

/-- Any number of changes to the layout of a text keep what it assembles to, but for the line of a fault, and changes to
the case of first words keep the program of a text that has one. Words are cut apart at the separators and nowhere
else. -/
theorem layout_does_not_matter :
    (∀ s t : String, Relation.EqvGen Edit s t → SameButLine (assemble s) (assemble t)) ∧
    (∀ (s t : String) (p : Program), Relation.ReflTransGen Rewritten s t → assemble s = .ok p → assemble t = .ok p) ∧
    (∀ before x word y after : String, BeginsLine before → BeginsWord x → EndsWord y → EndsLine after → word ≠ "" →
      (∀ c ∈ word.toList, c ∉ separators ∧ c ≠ '\n' ∧ c ≠ '#') →
      wordsByLine (before ++ (x ++ word ++ y) ++ after) =
        wordsByLine before ++ ((tokenize x).map Token.text ++ word :: (tokenize y).map Token.text) ::
          wordsByLine after) := by
  refine ⟨?_, ?_, ?_⟩
  · intro s t h
    exact sameButLine_of_content (content_eq_of_eqvGen h)
  · intro s t p h hs
    induction h with
    | refl => exact hs
    | tail _ h ih => exact h.assemble ih
  · intro before x word y after hbefore hx hy hafter hne h
    have hword : IsWord word.toList := isWord_toList_iff.2 ⟨hne, h⟩
    rw [wordsByLine_eq, wordsByLine_eq, wordsByLine_eq, content_word hbefore hx hword hy hafter]
    simp

/-- A comment line ahead of the header moves a fault by a line; a program stays what it is when its header and an opcode
are written in lower case, an end of a line is exchanged and separators are added; a vertical tab and a no-break space
are part of a word. -/
theorem layout_does_not_matter_unless_inside_words :
    SameButLine (assemble ".IPPcode23\nNOP\n") (assemble "\t# NOP\r\n.IPPcode23\nNOP\n") ∧
    assemble ".ippcode23\r\nwrite \t\x0cstring@#" = .ok #[⟨.write, [.const (.string "")]⟩] ∧
    wordsByLine ".IPPcode23\nWRITE string@a\x0bb\u00a0c #" =
      [[".IPPcode23"], ["WRITE", "string@a\x0bb\u00a0c"]] := by
  have hone : BeginsLine "" := Or.inl rfl
  have hend : EndsLine "" := Or.inl rfl
  refine ⟨?_, ?_, ?_⟩
  · have hblank : IsBlankLine "\t# NOP" := ⟨"\t", "# NOP", by decide, Or.inr ⟨" NOP", rfl, by decide⟩, rfl⟩
    have hinsert : Edit ("" ++ ".IPPcode23\nNOP\n") ("" ++ ("\t# NOP" ++ "\r\n") ++ ".IPPcode23\nNOP\n") :=
      .insert hone hblank (Or.inr rfl)
    exact layout_does_not_matter.1 _ _ (.rel _ _ hinsert)
  · have hrest : EndsLine "\nWRITE string@" := Or.inr ⟨"\n", "WRITE string@", Or.inl rfl, rfl⟩
    have hheader : Rewritten ("" ++ ("" ++ ".IPPcode23" ++ "") ++ "\nWRITE string@")
        ("" ++ ("" ++ ".ippcode23" ++ "") ++ "\nWRITE string@") :=
      Or.inr (Or.inr (.word hone (by decide) (by decide) rfl (by decide) hrest))
    have hending : Rewritten (".ippcode23" ++ "\n" ++ "WRITE string@") (".ippcode23" ++ "\r\n" ++ "WRITE string@") :=
      Or.inl .lineEnd
    have hbefore : BeginsLine ".ippcode23\r\n" := Or.inr ⟨".ippcode23\r", rfl⟩
    have hopcode : Rewritten (".ippcode23\r\n" ++ ("" ++ "WRITE" ++ " string@") ++ "")
        (".ippcode23\r\n" ++ ("" ++ "write" ++ " string@") ++ "") :=
      Or.inr (Or.inr (.word hbefore (by decide) (by decide) rfl (by decide) hend))
    have hspacing : Rewritten (".ippcode23\r\n" ++ ("write" ++ " " ++ "string@") ++ "")
        (".ippcode23\r\n" ++ ("write" ++ " \t\x0c" ++ "string@") ++ "") :=
      Or.inl (.line hbefore hend (by decide) (by decide)
        (.spacing (by decide) (by decide) (by decide) (by decide) (by decide)))
    have hcomment : Rewritten (".ippcode23\r\n" ++ "write \t\x0cstring@" ++ "")
        (".ippcode23\r\n" ++ ("write \t\x0cstring@" ++ "#") ++ "") :=
      Or.inl (.line hbefore hend (by decide) (by decide) (.comment ⟨"", rfl, by decide⟩))
    have hchanges : Relation.ReflTransGen Rewritten ".IPPcode23\nWRITE string@" ".ippcode23\r\nwrite \t\x0cstring@#" :=
      ((((Relation.ReflTransGen.single hheader).tail hending).tail hopcode).tail hspacing).tail hcomment
    exact layout_does_not_matter.2.1 _ _ _ hchanges rfl
  · have hword : IsWord "string@a\x0bb\u00a0c".toList := by decide
    obtain ⟨hne, hchars⟩ := isWord_toList_iff.1 hword
    exact layout_does_not_matter.2.2 ".IPPcode23\n" "WRITE " "string@a\x0bb\u00a0c" " #" ""
      (Or.inr ⟨".IPPcode23", rfl⟩) (by decide) (by decide) hend hne hchars

end IPPcode23.Assembly
