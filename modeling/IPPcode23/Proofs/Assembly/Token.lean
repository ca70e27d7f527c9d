import IPPcode23.Assembly.Token
import Mathlib.Data.List.TakeWhile

/-!
# Words put together and cut apart

Cutting at a separator cuts both sides apart (`words_append_separator`), so words written with single spaces between
them are the words of the line that they make up, and so are words with any other gaps between them. A comment has no
words. A word with an `@` in it is qualified by what stands before the first one.
-/

namespace IPPcode23.Assembly

private theorem words_cons_separator {c : Char} (hc : isSeparator c = true) (cs : List Char) :
    words (c :: cs) = words cs := by
  rw [words, if_pos hc]

private theorem words_ne_nil {c : Char} (hc : isSeparator c = false) (cs : List Char) : words (c :: cs) ≠ [] := by
  unfold words
  rw [if_neg (by simp [hc])]
  split
  · simp
  · cases words cs <;> simp [Text.consFirst]

theorem words_append_separator {c : Char} (hc : isSeparator c = true) (x y : List Char) :
    words (x ++ c :: y) = words x ++ words y := by
  induction x with
  | nil => rw [List.nil_append, words_cons_separator hc]; rfl
  | cons a x ih =>
    rw [List.cons_append]
    by_cases ha : isSeparator a = true
    · rw [words_cons_separator ha, words_cons_separator ha, ih]
    · rw [words, if_neg ha, words, if_neg ha, ih]
      cases x with
      | nil => simp [hc]
      | cons b x =>
        by_cases hb : isSeparator b = true
        · simp [hb]
        · have hne : words (b :: x) ≠ [] := words_ne_nil (by simpa using hb) x
          obtain ⟨w, ws, heq⟩ := List.exists_cons_of_ne_nil hne
          simp [hb, heq, Text.consFirst]

private theorem words_of_not_separator {w : List Char} (hne : w ≠ []) (h : ∀ c ∈ w, isSeparator c = false) :
    words w = [w] := by
  induction w with
  | nil => exact absurd rfl hne
  | cons c w ih =>
    have hc := h c List.mem_cons_self
    unfold words
    cases w with
    | nil => simp [hc]; rfl
    | cons d w =>
      have hd := h d (List.mem_cons_of_mem c List.mem_cons_self)
      rw [ih (by simp) (fun e he => h e (List.mem_cons_of_mem c he))]
      simp [hc, hd, Text.consFirst]

/-- What can be a word of a line: characters, none of which separates words or begins a comment. -/
structure IsWord (w : List Char) : Prop where
  ne_nil : w ≠ []
  separator : ∀ c ∈ w, isSeparator c = false
  comment : '#' ∉ w

private theorem isWord_iff {w : List Char} :
    IsWord w ↔ w ≠ [] ∧ (w.all fun c => !isSeparator c) = true ∧ w.contains '#' = false := by
  constructor
  · intro h
    exact ⟨h.ne_nil, by simpa using h.separator, by simpa using h.comment⟩
  · rintro ⟨hne, hseparator, hcomment⟩
    exact ⟨hne, by simpa using hseparator, by simpa using hcomment⟩

instance : DecidablePred IsWord := fun _ => decidable_of_iff _ isWord_iff.symm

/-- The end of a line does not occur in a word. -/
theorem IsWord.ne_lineEnd {w : List Char} (h : IsWord w) {c : Char} (hc : c ∈ w) : c ≠ '\n' ∧ c ≠ '\r' := by
  have hseparator := h.separator c hc
  constructor
  · rintro rfl; cases hseparator
  · rintro rfl; cases hseparator

/-- Words with a space before each but the first are the words of the line that they make up. -/
private theorem words_spaced {w : List Char} {ws : List (List Char)} (hw : IsWord w) (hws : ∀ v ∈ ws, IsWord v) :
    words (w ++ ws.flatMap fun v => ' ' :: v) = w :: ws := by
  induction ws generalizing w with
  | nil => rw [List.flatMap_nil, List.append_nil, words_of_not_separator hw.ne_nil hw.separator]
  | cons v ws ih =>
    have hrest := ih (hws v List.mem_cons_self) (fun u hu => hws u (List.mem_cons_of_mem v hu))
    rw [List.flatMap_cons, List.cons_append, words_append_separator (by decide), hrest,
      words_of_not_separator hw.ne_nil hw.separator]
    rfl

theorem uncomment_of_not_mem {line : List Char} (h : '#' ∉ line) : uncomment line = line := by
  unfold uncomment
  rw [List.takeWhile_eq_self_iff]
  intro c hc
  have hne : c ≠ '#' := fun heq => h (heq ▸ hc)
  simp [hne]

theorem uncomment_append_of_not_mem {x : List Char} (h : '#' ∉ x) (y : List Char) :
    uncomment (x ++ y) = x ++ uncomment y := by
  unfold uncomment
  rw [List.takeWhile_append_of_pos]
  intro c hc
  have hne : c ≠ '#' := fun heq => h (heq ▸ hc)
  simp [hne]

private theorem uncomment_append_of_mem {x : List Char} (h : '#' ∈ x) (y : List Char) :
    uncomment (x ++ y) = uncomment x := by
  obtain ⟨before, after, rfl, hbefore⟩ := List.eq_append_cons_of_mem h
  rw [List.append_assoc, uncomment_append_of_not_mem hbefore, uncomment_append_of_not_mem hbefore]
  rfl

/-- What follows the beginning of a comment is part of it. -/
theorem uncomment_append_comment (x c : List Char) : uncomment (x ++ '#' :: c) = uncomment x := by
  by_cases h : '#' ∈ x
  · exact uncomment_append_of_mem h _
  · rw [uncomment_append_of_not_mem h, uncomment_of_not_mem h]
    simp [uncomment]

/-! ### Gaps -/

/-- A run of separators. -/
def IsGap (gap : List Char) : Prop :=
  ∀ c ∈ gap, isSeparator c = true

theorem IsGap.not_mem_comment {gap : List Char} (h : IsGap gap) : '#' ∉ gap := by
  intro hc
  exact absurd (h '#' hc) (by decide)

theorem isGap_cr : IsGap ['\r'] := by
  intro c hc
  rw [List.mem_singleton.1 hc]
  rfl

theorem words_gap_append {gap : List Char} (h : IsGap gap) (y : List Char) : words (gap ++ y) = words y := by
  induction gap with
  | nil => rfl
  | cons c gap ih =>
    rw [List.cons_append, words_cons_separator (h c List.mem_cons_self)]
    exact ih fun d hd => h d (List.mem_cons_of_mem c hd)

private theorem words_append_gap {gap : List Char} (h : IsGap gap) (x : List Char) : words (x ++ gap) = words x := by
  cases gap with
  | nil => rw [List.append_nil]
  | cons c gap =>
    have hrest : words gap = [] := by
      have hgap : IsGap gap := fun d hd => h d (List.mem_cons_of_mem c hd)
      rw [← List.append_nil gap, words_gap_append hgap]
      rfl
    rw [words_append_separator (h c List.mem_cons_self), hrest, List.append_nil]

/-- Separators between two parts of a line cut them apart, whatever and however many they are. -/
theorem words_append_gap_append {gap : List Char} (h : IsGap gap) (hne : gap ≠ []) (x y : List Char) :
    words (x ++ gap ++ y) = words x ++ words y := by
  obtain ⟨c, gap, rfl⟩ := List.exists_cons_of_ne_nil hne
  rw [List.append_assoc, List.cons_append, words_append_separator (h c List.mem_cons_self),
    words_gap_append fun d hd => h d (List.mem_cons_of_mem c hd)]

/-- Separators at the end of a line make no difference, be they part of a comment or not. -/
theorem words_uncomment_append_gap {gap : List Char} (h : IsGap gap) (x : List Char) :
    words (uncomment (x ++ gap)) = words (uncomment x) := by
  by_cases hx : '#' ∈ x
  · rw [uncomment_append_of_mem hx]
  · rw [uncomment_append_of_not_mem hx, uncomment_of_not_mem h.not_mem_comment, uncomment_of_not_mem hx,
      words_append_gap h]

/-! ### Words of a line -/

/-- A word ends where a separator, a comment or nothing follows. -/
theorem words_uncomment_word_append {w y : List Char} (hw : IsWord w)
    (hy : ∀ c, y.head? = some c → isSeparator c = true ∨ c = '#') :
    words (uncomment (w ++ y)) = w :: words (uncomment y) := by
  have hword : words w = [w] := words_of_not_separator hw.ne_nil hw.separator
  have hlast : words (w ++ []) = [w] ++ words [] := by
    rw [List.append_nil, hword]
    rfl
  rw [uncomment_append_of_not_mem hw.comment]
  cases y with
  | nil => exact hlast
  | cons c y =>
    by_cases hc : c = '#'
    · subst hc
      exact hlast
    · have hseparator : isSeparator c = true := (hy c rfl).resolve_right hc
      have huncomment : uncomment (c :: y) = c :: uncomment y := by simp [uncomment, hc]
      rw [huncomment, words_append_separator hseparator, hword, words_cons_separator hseparator]
      rfl

/-- A part of a line that ends in a separator, or is empty, is cut off. -/
theorem words_uncomment_append {x : List Char} (hx : '#' ∉ x) (hlast : ∀ c, x.getLast? = some c → isSeparator c = true)
    (y : List Char) : words (uncomment (x ++ y)) = words (uncomment x) ++ words (uncomment y) := by
  rw [uncomment_append_of_not_mem hx, uncomment_of_not_mem hx]
  cases hend : x.getLast? with
  | none =>
    rw [List.getLast?_eq_none_iff.1 hend]
    rfl
  | some c =>
    obtain ⟨x, rfl⟩ := List.getLast?_eq_some_iff.1 hend
    have hc := hlast c hend
    rw [List.append_assoc, List.singleton_append, words_append_separator hc, words_append_separator hc]
    simp [words]

theorem tokenize_spaced {w : List Char} {ws : List (List Char)} (hw : IsWord w) (hws : ∀ v ∈ ws, IsWord v) :
    tokenize (String.ofList (w ++ ws.flatMap fun v => ' ' :: v)) =
      (w :: ws).map fun v => Token.ofWord (String.ofList v) := by
  have hcomment : '#' ∉ w ++ ws.flatMap fun v => ' ' :: v := by
    simp only [List.mem_append, List.mem_flatMap, List.mem_cons, not_or, not_exists, not_and]
    exact ⟨hw.comment, fun v hv => ⟨by decide, (hws v hv).comment⟩⟩
  unfold tokenize
  rw [String.toList_ofList, uncomment_of_not_mem hcomment, words_spaced hw hws]

end IPPcode23.Assembly

namespace IPPcode23

theorem splitAtSign?_append {mark : String} (h : '@' ∉ mark.toList) (body : String) :
    splitAtSign? (mark ++ "@" ++ body) = some (mark, body) := by
  have hpass : ∀ c ∈ mark.toList, (c != '@') = true := by
    intro c hc
    have hne : c ≠ '@' := fun heq => h (heq ▸ hc)
    simp [hne]
  have hlist : (mark ++ "@" ++ body).toList = mark.toList ++ '@' :: body.toList := by simp
  unfold splitAtSign?
  rw [hlist, List.dropWhile_append_of_pos hpass, List.takeWhile_append_of_pos hpass]
  simp

private theorem splitAtSign?_of_not_mem {s : String} (h : '@' ∉ s.toList) : splitAtSign? s = none := by
  have hdrop : s.toList.dropWhile (· != '@') = [] := by
    rw [List.dropWhile_eq_nil_iff]
    intro c hc
    have hne : c ≠ '@' := fun heq => h (heq ▸ hc)
    simp [hne]
  unfold splitAtSign?
  rw [hdrop]

/-- A text is cut at its first `@`, or it has none. -/
theorem splitAtSign?_cases (s : String) :
    (∃ mark body, '@' ∉ mark.toList ∧ s = mark ++ "@" ++ body ∧ splitAtSign? s = some (mark, body)) ∨
      ('@' ∉ s.toList ∧ splitAtSign? s = none) := by
  by_cases hat : '@' ∈ s.toList
  · left
    obtain ⟨before, after, hsplit, hbefore⟩ := List.eq_append_cons_of_mem hat
    have hs : s = String.ofList before ++ "@" ++ String.ofList after := by
      apply String.toList_injective
      simp [hsplit]
    have hmark : '@' ∉ (String.ofList before).toList := by rwa [String.toList_ofList]
    refine ⟨String.ofList before, String.ofList after, hmark, hs, ?_⟩
    rw [hs]
    exact splitAtSign?_append hmark _
  · right
    exact ⟨hat, splitAtSign?_of_not_mem hat⟩

namespace Assembly.Token

theorem ofWord_qualified {mark : String} (hat : '@' ∉ mark.toList) (hdot : mark.toList.head? ≠ some '.')
    (body : String) : ofWord (mark ++ "@" ++ body) = .qualified (mark ++ "@" ++ body) mark body := by
  have hhead : (mark ++ "@" ++ body).toList.head? ≠ some '.' := by
    simp only [String.toList_append, List.append_assoc]
    cases hm : mark.toList with
    | nil => simp
    | cons c cs => simpa [hm] using hdot
  unfold ofWord
  rw [if_neg hhead, splitAtSign?_append hat]

theorem ofWord_bare {w : String} (hat : '@' ∉ w.toList) (hdot : w.toList.head? ≠ some '.') :
    ofWord w = .bare w := by
  unfold ofWord
  rw [if_neg hdot, splitAtSign?_of_not_mem hat]

/-- What a word is by its first character and its first `@`. -/
theorem ofWord_cases (w : String) :
    (w.toList.head? = some '.' ∧ ofWord w = .directive w) ∨
      (∃ mark body, '@' ∉ mark.toList ∧ mark.toList.head? ≠ some '.' ∧ w = mark ++ "@" ++ body ∧
        ofWord w = .qualified w mark body) ∨
      ('@' ∉ w.toList ∧ w.toList.head? ≠ some '.' ∧ ofWord w = .bare w) := by
  by_cases hdot : w.toList.head? = some '.'
  · left
    exact ⟨hdot, by rw [ofWord, if_pos hdot]⟩
  · right
    rcases splitAtSign?_cases w with ⟨mark, body, hmark, rfl, _⟩ | ⟨hat, _⟩
    · left
      have hhead : mark.toList.head? ≠ some '.' := by
        intro hhead
        apply hdot
        rw [String.toList_append, String.toList_append, List.append_assoc, List.head?_append, hhead]
        rfl
      exact ⟨mark, body, hmark, hhead, rfl, ofWord_qualified hmark hhead body⟩
    · right
      exact ⟨hat, hdot, ofWord_bare hat hdot⟩

@[simp]
theorem text_ofWord (w : String) : (ofWord w).text = w := by
  rcases ofWord_cases w with ⟨_, h⟩ | ⟨_, _, _, _, _, h⟩ | ⟨_, _, h⟩ <;> rw [h] <;> rfl

end Assembly.Token

end IPPcode23
