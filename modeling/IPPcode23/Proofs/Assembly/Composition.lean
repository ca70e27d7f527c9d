import IPPcode23.Assembly.Program
import IPPcode23.Proofs.Assembly.Token
import IPPcode23.Proofs.Except
import IPPcode23.Proofs.Text.Line

/-!
# Assembling line by line

A text of lines is read one line after another: what follows a line at fault does not matter, and what follows lines that
assemble is read as if it stood behind a header alone, but for the number of its lines (`assemble_line_by_line`). So the
line that an error names is the first one at fault.
-/

namespace IPPcode23.Assembly

/-- The text of lines, each ended by a line feed. -/
def textOf (lines : List String) : String :=
  String.join (lines.map (· ++ "\n"))

/-- Lines that hold no line feed. -/
def AreLines (lines : List String) : Prop :=
  ∀ line ∈ lines, '\n' ∉ line.toList

/-! ### Statements of lines -/

/-- A line up to a line feed has the words of what stands before it, carriage return or not. -/
theorem exists_splitLines_append {line : List Char} (h : '\n' ∉ line) (rest : List Char) :
    ∃ line', Text.splitLines '\n' '\r' (line ++ '\n' :: rest) = line' :: Text.splitLines '\n' '\r' rest ∧
      tokenize (String.ofList line') = tokenize (String.ofList line) := by
  by_cases hcr : line.getLast? = some '\r'
  · obtain ⟨line', rfl⟩ := List.getLast?_eq_some_iff.1 hcr
    have hline' : '\n' ∉ line' := fun hc => h (List.mem_append_left _ hc)
    refine ⟨line', ?_, ?_⟩
    · rw [List.append_assoc, List.singleton_append, Text.splitLines_append_cr_lf (by decide) hline']
    · unfold tokenize
      rw [String.toList_ofList, String.toList_ofList, words_uncomment_append_gap isGap_cr]
  · exact ⟨line, Text.splitLines_append_lf h hcr rest, rfl⟩

/-- The statements of a text of lines are those of the lines. -/
private theorem statements_textOf {lines : List String} (h : AreLines lines) (n : Nat) :
    statements n (Text.lines (textOf lines)) = statements n lines := by
  induction lines generalizing n with
  | nil => rfl
  | cons line lines ih =>
    have hlist : (textOf (line :: lines)).toList = line.toList ++ '\n' :: (textOf lines).toList := by simp [textOf]
    obtain ⟨line', hsplit, hwords⟩ := exists_splitLines_append (h line List.mem_cons_self) (textOf lines).toList
    have hrest := ih (fun l hl => h l (List.mem_cons_of_mem line hl)) (n + 1)
    unfold Text.lines at hrest ⊢
    rw [hlist, hsplit, List.map_cons, statements, statements, hwords, String.ofList_toList, hrest]

private theorem assemble_textOf {lines : List String} (h : AreLines lines) :
    assemble (textOf lines) = programOf (statements 1 lines) := by
  rw [assemble, statements_textOf h]

private theorem statements_append (n : Nat) (lines more : List String) :
    statements n (lines ++ more) = statements n lines ++ statements (n + lines.length) more := by
  induction lines generalizing n with
  | nil => rfl
  | cons line lines ih =>
    have hlength : n + (line :: lines).length = n + 1 + lines.length := by rw [List.length_cons]; omega
    rw [List.cons_append, statements, statements, hlength, ih]
    cases tokenize line <;> rfl

private theorem statements_eq_nil_iff {n : Nat} {lines : List String} :
    statements n lines = [] ↔ ∀ line ∈ lines, tokenize line = [] := by
  induction lines generalizing n with
  | nil => simp [statements]
  | cons line lines ih =>
    rw [statements, List.forall_mem_cons]
    cases tokenize line with
    | nil => simpa using ih
    | cons head tail => simp

private theorem statements_ne_nil {n : Nat} {lines : List String} (h : ∃ line ∈ lines, tokenize line ≠ []) :
    statements n lines ≠ [] := by
  intro hnil
  obtain ⟨line, hline, htokens⟩ := h
  exact htokens (statements_eq_nil_iff.1 hnil line hline)

private theorem line_of_mem_statements {n : Nat} {lines : List String} {s : Statement} (h : s ∈ statements n lines) :
    n ≤ s.line ∧ s.line < n + lines.length := by
  induction lines generalizing n with
  | nil => cases h
  | cons line lines ih =>
    rw [List.length_cons]
    rw [statements] at h
    cases htokens : tokenize line with
    | nil =>
      rw [htokens] at h
      have := ih h
      omega
    | cons head tail =>
      rw [htokens] at h
      rcases List.mem_cons.1 h with rfl | h
      · show n ≤ n ∧ n < _
        omega
      · have := ih h
        omega

/-! ### Line numbers -/

/-- A fault that is found `k` lines further down. -/
def shiftError (k : Nat) : LoadError → LoadError
  | .invalid (.line n) cause => .invalid (.line (n + k)) cause
  | e => e

private theorem instructions_shift (k n : Nat) (lines : List String) :
    instructions (statements (n + k) lines) = (instructions (statements n lines)).mapError (shiftError k) := by
  induction lines generalizing n with
  | nil => rfl
  | cons line lines ih =>
    have hnext : n + k + 1 = n + 1 + k := by omega
    rw [statements, statements, hnext]
    cases tokenize line with
    | nil => exact ih (n + 1)
    | cons head tail =>
      simp only [instructions]
      rw [ih (n + 1)]
      cases instruction head tail with
      | error cause => rfl
      | ok i => cases instructions (statements (n + 1) lines) <;> rfl

/-- Instructions fail at a line of one of them. -/
private theorem exists_of_instructions_eq_error {ss : List Statement} {e : LoadError} (h : instructions ss = .error e) :
    ∃ s ∈ ss, ∃ cause, e = .invalid (.line s.line) cause := by
  induction ss with
  | nil => cases h
  | cons s ss ih =>
    rw [instructions] at h
    split at h
    case h_1 cause _ =>
      cases h
      exact ⟨s, List.mem_cons_self, cause, rfl⟩
    case h_2 =>
      obtain ⟨s', hs', he⟩ := ih (map_eq_error.1 h)
      exact ⟨s', List.mem_cons_of_mem s hs', he⟩

private theorem exists_of_programOf_eq_error {ss : List Statement} {e : LoadError} (hne : ss ≠ [])
    (h : programOf ss = .error e) : ∃ s ∈ ss, ∃ cause, e = .invalid (.line s.line) cause := by
  obtain ⟨s, ss, rfl⟩ := List.exists_cons_of_ne_nil hne
  rw [programOf] at h
  split at h
  case isTrue =>
    obtain ⟨s', hs', he⟩ := exists_of_instructions_eq_error (map_eq_error.1 h)
    exact ⟨s', List.mem_cons_of_mem s hs', he⟩
  case isFalse =>
    cases h
    exact ⟨s, List.mem_cons_self, _, rfl⟩

/-! ### One part after another -/

private theorem instructions_append (ss ts : List Statement) :
    instructions (ss ++ ts) = do
      let is ← instructions ss
      let js ← instructions ts
      return is ++ js := by
  induction ss with
  | nil => cases h : instructions ts <;> simp [instructions, h] <;> rfl
  | cons s ss ih =>
    rw [List.cons_append, instructions, instructions]
    cases instruction s.head s.tail with
    | error cause => rfl
    | ok i =>
      simp only
      rw [ih]
      cases instructions ss with
      | error e => rfl
      | ok is => cases instructions ts <;> rfl

/-- Statements at fault stay at fault, whatever follows them. -/
private theorem programOf_append_of_error {ss : List Statement} {e : LoadError} (hne : ss ≠ [])
    (h : programOf ss = .error e) (ts : List Statement) : programOf (ss ++ ts) = .error e := by
  obtain ⟨s, ss, rfl⟩ := List.exists_cons_of_ne_nil hne
  rw [List.cons_append, programOf]
  rw [programOf] at h
  split
  case isTrue hheader =>
    rw [if_pos hheader] at h
    rw [instructions_append, map_eq_error.1 h]
    rfl
  case isFalse hheader => rwa [if_neg hheader] at h

/-- What follows statements of a program is added to it. -/
private theorem programOf_append_of_ok {ss : List Statement} {p : Program} (h : programOf ss = .ok p)
    (ts : List Statement) : programOf (ss ++ ts) = (fun js => p ++ js.toArray) <$> instructions ts := by
  cases ss with
  | nil => cases h
  | cons s ss =>
    rw [programOf] at h
    split at h
    case isTrue hheader =>
      obtain ⟨is, his, rfl⟩ := map_eq_ok.1 h
      rw [List.cons_append, programOf, if_pos hheader, instructions_append, his]
      cases instructions ts with
      | error e => rfl
      | ok js =>
        show Except.ok (is ++ js).toArray = Except.ok (is.toArray ++ js.toArray)
        rw [List.append_toArray]
    case isFalse => cases h

private theorem assemble_header_cons {lines : List String} (h : AreLines lines) :
    assemble (textOf (header :: lines)) = List.toArray <$> instructions (statements 2 lines) := by
  have hheader : tokenize header = [.directive header] := by decide
  have hlines : AreLines (header :: lines) := List.forall_mem_cons.2 ⟨by decide, h⟩
  rw [assemble_textOf hlines, statements, hheader]
  rfl

private theorem AreLines.append {lines more : List String} (h : AreLines lines) (hmore : AreLines more) :
    AreLines (lines ++ more) :=
  List.forall_mem_append.2 ⟨h, hmore⟩

private theorem AreLines.take {lines : List String} (h : AreLines lines) (k : Nat) : AreLines (lines.take k) :=
  fun line hline => h line (List.mem_of_mem_take hline)

private theorem AreLines.drop {lines : List String} (h : AreLines lines) (k : Nat) : AreLines (lines.drop k) :=
  fun line hline => h line (List.mem_of_mem_drop hline)

private theorem assemble_append_of_error {lines more : List String} {e : LoadError} (h : AreLines lines)
    (hmore : AreLines more) (hwords : ∃ line ∈ lines, tokenize line ≠ []) (he : assemble (textOf lines) = .error e) :
    assemble (textOf (lines ++ more)) = .error e := by
  rw [assemble_textOf h] at he
  rw [assemble_textOf (h.append hmore), statements_append]
  exact programOf_append_of_error (statements_ne_nil hwords) he _

/-- What follows lines that assemble is read as it is behind a header, further down. -/
private theorem assemble_append_of_ok {lines more : List String} {p : Program} (h : AreLines lines)
    (hmore : AreLines more) (hp : assemble (textOf lines) = .ok p) :
    assemble (textOf (lines ++ more)) =
      ((p ++ ·) <$> assemble (textOf (header :: more))).mapError (shiftError (lines.length - 1)) := by
  rw [assemble_textOf h] at hp
  have hpos : 0 < lines.length := by
    cases lines with
    | nil => cases hp
    | cons line lines => simp
  have hfirst : 1 + lines.length = 2 + (lines.length - 1) := by omega
  rw [assemble_textOf (h.append hmore), statements_append, programOf_append_of_ok hp, assemble_header_cons hmore,
    hfirst, instructions_shift]
  cases instructions (statements 2 more) <;> rfl

/-! ### The first line at fault -/

private theorem line_of_assemble_eq_error {lines : List String} {e : LoadError} (h : AreLines lines)
    (hwords : ∃ line ∈ lines, tokenize line ≠ []) (he : assemble (textOf lines) = .error e) :
    ∃ m cause, e = .invalid (.line m) cause ∧ ∃ s ∈ statements 1 lines, s.line = m := by
  rw [assemble_textOf h] at he
  obtain ⟨s, hs, cause, rfl⟩ := exists_of_programOf_eq_error (statements_ne_nil hwords) he
  exact ⟨s.line, cause, rfl, s, hs, rfl⟩

private theorem line_of_assemble_header_eq_error {lines : List String} {e : LoadError} (h : AreLines lines)
    (he : assemble (textOf (header :: lines)) = .error e) : ∃ m cause, e = .invalid (.line m) cause ∧ 2 ≤ m := by
  rw [assemble_header_cons h] at he
  obtain ⟨s, hs, cause, rfl⟩ := exists_of_instructions_eq_error (map_eq_error.1 he)
  exact ⟨s.line, cause, rfl, (line_of_mem_statements hs).1⟩

/-- The line that an error names is the first one at fault: the lines up to it are at fault whatever follows them, and
those before it assemble, or they have no words. -/
private theorem first_line_at_fault {lines : List String} {e : LoadError} (h : AreLines lines)
    (hwords : ∃ line ∈ lines, tokenize line ≠ []) (he : assemble (textOf lines) = .error e) :
    ∃ m cause, e = .invalid (.line m) cause ∧ 1 ≤ m ∧ m ≤ lines.length ∧
      (∀ rest, AreLines rest → assemble (textOf (lines.take m ++ rest)) = .error e) ∧
      ∀ k < m, (∀ line ∈ lines.take k, tokenize line = []) ∨ ∃ p, assemble (textOf (lines.take k)) = .ok p := by
  obtain ⟨m, cause, rfl, s, hs, hm⟩ := line_of_assemble_eq_error h hwords he
  obtain ⟨hpos, hle⟩ := line_of_mem_statements hs
  -- an error in some of the lines is the error of all of them, so it names the line `m`
  have hearlier : ∀ k e', (∃ line ∈ lines.take k, tokenize line ≠ []) → assemble (textOf (lines.take k)) = .error e' →
      e' = .invalid (.line m) cause ∧ m ≤ k := by
    intro k e' hk he'
    have hall := assemble_append_of_error (h.take k) (h.drop k) hk he'
    rw [List.take_append_drop, he] at hall
    cases hall
    obtain ⟨m', cause', hm', s', hs', rfl⟩ := line_of_assemble_eq_error (h.take k) hk he'
    cases hm'
    have := (line_of_mem_statements hs').2
    have := List.length_take_le k lines
    exact ⟨rfl, by omega⟩
  refine ⟨m, cause, rfl, by omega, by omega, ?_, ?_⟩
  · have hmwords : ∃ line ∈ lines.take m, tokenize line ≠ [] := by
      by_contra hnone
      push Not at hnone
      rw [← List.take_append_drop m lines, statements_append, statements_eq_nil_iff.2 hnone, List.nil_append,
        List.length_take] at hs
      have := (line_of_mem_statements hs).1
      omega
    intro rest hrest
    cases hmth : assemble (textOf (lines.take m)) with
    | error e' =>
      obtain ⟨rfl, _⟩ := hearlier m e' hmwords hmth
      exact assemble_append_of_error (h.take m) hrest hmwords hmth
    | ok p =>
      -- then the error would be one of the lines behind
      have hall := assemble_append_of_ok (h.take m) (h.drop m) hmth
      rw [List.take_append_drop, he] at hall
      cases hbehind : assemble (textOf (header :: lines.drop m)) with
      | ok q => rw [hbehind] at hall; cases hall
      | error e' =>
        rw [hbehind] at hall
        obtain ⟨m', cause', rfl, hm'⟩ := line_of_assemble_header_eq_error (h.drop m) hbehind
        obtain ⟨hline, _⟩ : m = m' + ((lines.take m).length - 1) ∧ cause = cause' := by
          simpa [Except.mapError, shiftError] using hall
        rw [List.length_take] at hline
        omega
  · intro k hk
    by_cases hkwords : ∃ line ∈ lines.take k, tokenize line ≠ []
    · right
      cases hkth : assemble (textOf (lines.take k)) with
      | ok p => exact ⟨p, rfl⟩
      | error e' =>
        have := (hearlier k e' hkwords hkth).2
        omega
    · left
      push Not at hkwords
      exact hkwords

/-- Lines of which at least one has a word, and more lines behind them. An error in the first lines is the error of all of
them: it names the first line at fault, and what stands behind that line does not matter. If the first lines assemble,
the lines behind are read as they are behind a header line: to instructions that are added, or to the same error, as many
lines further down as there are first lines less the header. -/
theorem assemble_line_by_line {lines more : List String} (h : ∀ line ∈ lines, '\n' ∉ line.toList)
    (hmore : ∀ line ∈ more, '\n' ∉ line.toList) (hwords : ∃ line ∈ lines, tokenize line ≠ []) :
    (∀ e, assemble (textOf lines) = .error e →
      assemble (textOf (lines ++ more)) = .error e ∧
      ∃ m cause, e = .invalid (.line m) cause ∧ 1 ≤ m ∧ m ≤ lines.length ∧
        (∀ rest, (∀ line ∈ rest, '\n' ∉ line.toList) → assemble (textOf (lines.take m ++ rest)) = .error e) ∧
        ∀ k < m, (∀ line ∈ lines.take k, tokenize line = []) ∨ ∃ p, assemble (textOf (lines.take k)) = .ok p) ∧
    ∀ p, assemble (textOf lines) = .ok p →
      (∀ q, assemble (textOf (header :: more)) = .ok q → assemble (textOf (lines ++ more)) = .ok (p ++ q)) ∧
      ∀ e, assemble (textOf (header :: more)) = .error e →
        ∃ m cause, e = .invalid (.line m) cause ∧
          assemble (textOf (lines ++ more)) = .error (.invalid (.line (lines.length + m - 1)) cause) := by
  refine ⟨fun e he => ⟨assemble_append_of_error h hmore hwords he, first_line_at_fault h hwords he⟩, ?_⟩
  intro p hp
  have hall := assemble_append_of_ok h hmore hp
  constructor
  · intro q hq
    rw [hall, hq]
    rfl
  · intro e he
    obtain ⟨m, cause, rfl, hm⟩ := line_of_assemble_header_eq_error hmore he
    refine ⟨m, cause, rfl, ?_⟩
    obtain ⟨line, hline, _⟩ := hwords
    have hpos := List.length_pos_of_mem hline
    have hnumber : lines.length + m - 1 = m + (lines.length - 1) := by omega
    rw [hall, he, hnumber]
    rfl

/-- A header behind a blank line and before a carriage return, and an unknown opcode behind another blank line. -/
theorem assemble_line_by_line_behind_blanks :
    let lines := ["", ".ippcode23\r", "BREAK # dump"]
    let more := ["\t", "FOO"]
    let e : LoadError := .invalid (.line 5) (.operand (.unknownOpcode "FOO"))
    (∃ line ∈ lines, tokenize line ≠ []) ∧ assemble (textOf lines) = .ok #[⟨.dump, []⟩] ∧
      assemble (textOf (header :: more)) = .error (.invalid (.line 3) (.operand (.unknownOpcode "FOO"))) ∧
      assemble (textOf (lines ++ more)) = .error e ∧ assemble (textOf ((lines ++ more) ++ ["BAR"])) = .error e := by
  intro lines more e
  have hlines : ∀ line ∈ lines, '\n' ∉ line.toList := by simp [lines]
  have hmore : ∀ line ∈ more, '\n' ∉ line.toList := by simp [more]
  have hwords : ∃ line ∈ lines, tokenize line ≠ [] := ⟨"BREAK # dump", by simp [lines], by decide⟩
  have hfirst : assemble (textOf lines) = .ok #[⟨.dump, []⟩] := by decide
  have hbehind : assemble (textOf (header :: more)) = .error (.invalid (.line 3) (.operand (.unknownOpcode "FOO"))) := by
    decide
  obtain ⟨m, cause, hm, hall⟩ := ((assemble_line_by_line hlines hmore hwords).2 _ hfirst).2 _ hbehind
  cases hm
  refine ⟨hwords, hfirst, hbehind, hall, ?_⟩
  have hboth : ∀ line ∈ lines ++ more, '\n' ∉ line.toList := List.forall_mem_append.2 ⟨hlines, hmore⟩
  have hrest : ∀ line ∈ ["BAR"], '\n' ∉ line.toList := by simp
  obtain ⟨line, hline, htokens⟩ := hwords
  exact ((assemble_line_by_line hboth hrest ⟨line, List.mem_append_left _ hline, htokens⟩).1 e hall).1

end IPPcode23.Assembly
