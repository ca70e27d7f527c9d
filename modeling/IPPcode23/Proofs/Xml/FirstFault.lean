import IPPcode23.Proofs.Literal.Integer
import IPPcode23.Proofs.Xml.Reading

/-!
# The first fault of a document

The children of a root are read in document order, and reading stops at the first one that cannot be read by itself or
has the order of an earlier one (`FirstFaulty`). So the error of a document is that of this child, whatever stands behind
it (`entries_eq_error_iff`). The error names the order of the child once that has been read, unless the opcode is missing.
-/

namespace IPPcode23.Xml

/-- A root that says to be a program in the language. -/
def IsRoot (root : Element) : Prop :=
  root.name = "program" ∧ ∃ found, root.attribute? "language" = some found ∧ Text.equalFold found language = true

/-- The element at an index cannot be read by itself. -/
def Rejected (es : List Element) (k : Nat) (error : LoadError) : Prop :=
  ∃ e, es[k]? = some e ∧ entry e = .error error

/-- The element at an index has the order of an earlier one. -/
def Repeats (es : List Element) (k : Nat) (order : Nat) : Prop :=
  (∃ e, es[k]? = some e ∧ e.order? = some order) ∧ ∃ j < k, ∃ e, es[j]? = some e ∧ e.order? = some order

/-- What is wrong with the element at an index. That it cannot be read comes before a repeated order. -/
inductive Faulty (es : List Element) (k : Nat) : LoadError → Prop where
  | rejected {error : LoadError} (h : Rejected es k error) : Faulty es k error
  | repeats {order : Nat} (hread : ∀ error, ¬ Rejected es k error) (h : Repeats es k order) :
    Faulty es k (.invalid (.instruction order) .duplicateOrder)

/-- The first element that something is wrong with. -/
structure FirstFaulty (es : List Element) (k : Nat) (error : LoadError) : Prop where
  faulty : Faulty es k error
  least : ∀ j error', Faulty es j error' → k ≤ j

/-- A text without white space around it denotes an order: an optional plus sign and decimal digits. -/
def IsOrder (text : String) (n : Nat) : Prop :=
  ∃ sign ∈ [[], ['+']], ∃ digits, text.toList = sign ++ digits ∧ Literal.Writes 10 digits n ∧ 1 ≤ n ∧ n ≤ 2 ^ 64 - 1

/-! ### Faults -/

private theorem exists_faulty_iff {es : List Element} {k : Nat} :
    (∃ error, Faulty es k error) ↔ (∃ error, Rejected es k error) ∨ ∃ order, Repeats es k order := by
  constructor
  · rintro ⟨_, h | ⟨_, h⟩⟩
    · exact Or.inl ⟨_, h⟩
    · exact Or.inr ⟨_, h⟩
  · intro h
    by_cases hrejected : ∃ error, Rejected es k error
    · obtain ⟨error, herror⟩ := hrejected
      exact ⟨error, .rejected herror⟩
    · obtain ⟨order, horder⟩ := h.resolve_left hrejected
      exact ⟨_, .repeats (fun error herror => hrejected ⟨error, herror⟩) horder⟩

private theorem rejected_iff {es : List Element} {k : Nat} {e : Element} (he : es[k]? = some e) {error : LoadError} :
    Rejected es k error ↔ entry e = .error error := by
  simp [Rejected, he]

private theorem order?_of_entry {e : Element} {x : Entry} (h : entry e = .ok x) : e.order? = some x.order :=
  (entry_eq_ok_iff.1 h).2.1

private theorem Faulty.exists_element {es : List Element} {k : Nat} {error : LoadError} (h : Faulty es k error) :
    ∃ e, es[k]? = some e := by
  rcases h with ⟨e, he, _⟩ | ⟨_, ⟨e, he, _⟩, _⟩
  · exact ⟨e, he⟩
  · exact ⟨e, he⟩

/-- An element at fault has an error of its own, or is read and repeats an order. -/
private theorem Faulty.entry_eq {es : List Element} {k : Nat} {error : LoadError} (h : Faulty es k error) {e : Element}
    (he : es[k]? = some e) : entry e = .error error ∨
      ∃ x, entry e = .ok x ∧ error = .invalid (.instruction x.order) .duplicateOrder := by
  cases h with
  | rejected h => exact Or.inl ((rejected_iff he).1 h)
  | repeats hread h =>
    obtain ⟨⟨e', he', horder⟩, _⟩ := h
    obtain rfl : e = e' := Option.some.inj (he.symm.trans he')
    cases hentry : entry e with
    | error error => exact absurd ((rejected_iff he).2 hentry) (hread error)
    | ok x =>
      obtain rfl := Option.some.inj (horder.symm.trans (order?_of_entry hentry))
      exact Or.inr ⟨x, rfl, rfl⟩

private theorem Faulty.unique {es : List Element} {k : Nat} {error error' : LoadError} (h : Faulty es k error)
    (h' : Faulty es k error') : error = error' := by
  obtain ⟨e, he⟩ := h.exists_element
  rcases h.entry_eq he with hentry | ⟨x, hentry, rfl⟩
  · rcases h'.entry_eq he with hentry' | ⟨x', hentry', rfl⟩
    · exact Except.error.inj (hentry.symm.trans hentry')
    · cases hentry.symm.trans hentry'
  · rcases h'.entry_eq he with hentry' | ⟨x', hentry', rfl⟩
    · cases hentry.symm.trans hentry'
    · rw [Except.ok.inj (hentry.symm.trans hentry')]

private theorem FirstFaulty.unique {es : List Element} {k k' : Nat} {error error' : LoadError}
    (h : FirstFaulty es k error) (h' : FirstFaulty es k' error') : error = error' := by
  obtain rfl : k = k' := Nat.le_antisymm (h.least _ _ h'.faulty) (h'.least _ _ h.faulty)
  exact h.faulty.unique h'.faulty

/-- What is wrong with an element depends on it and the elements before it only. -/
private theorem Faulty.congr {es es' : List Element} {k : Nat} {error : LoadError} (heq : ∀ j ≤ k, es'[j]? = es[j]?)
    (h : Faulty es k error) : Faulty es' k error := by
  have hrejected : ∀ error, Rejected es' k error ↔ Rejected es k error := by
    intro error
    rw [Rejected, Rejected, heq k (Nat.le_refl k)]
  cases h with
  | rejected h => exact .rejected ((hrejected _).2 h)
  | repeats hread h =>
    obtain ⟨horder, j, hj, hearlier⟩ := h
    refine .repeats (fun error h => hread error ((hrejected error).1 h)) ⟨?_, j, hj, ?_⟩
    · rwa [heq k (Nat.le_refl k)]
    · rwa [heq j (Nat.le_of_lt hj)]

private theorem FirstFaulty.congr {es es' : List Element} {k : Nat} {error : LoadError}
    (heq : ∀ j ≤ k, es'[j]? = es[j]?) (h : FirstFaulty es k error) : FirstFaulty es' k error where
  faulty := h.faulty.congr heq
  least j error' h' := by
    by_contra hlt
    have hfaulty : Faulty es j error' := h'.congr fun i hi => (heq i (by omega)).symm
    exact hlt (h.least j error' hfaulty)

/-! ### Reading the children -/

private theorem entries_append (sorted : List Entry) (es es' : List Element) :
    entries sorted (es ++ es') = entries sorted es >>= fun sorted => entries sorted es' := by
  induction es generalizing sorted with
  | nil => rfl
  | cons e es ih =>
    simp only [List.cons_append, entries, bind_assoc]
    congr 1
    funext x
    cases insert? x sorted with
    | none => rfl
    | some sorted => exact ih sorted

/-- Nothing is wrong with elements that are read. -/
private theorem not_faulty_of_entries {es : List Element} {xs : List Entry} (h : entries [] es = .ok xs) (k : Nat)
    (error : LoadError) : ¬ Faulty es k error := by
  obtain ⟨hsorted, ys, hys, hperm⟩ := (entries_eq_ok_iff List.Pairwise.nil).1 h
  rw [List.append_nil] at hperm
  have hlength : es.length = ys.length := hys.length_eq
  have hread : ∀ {k : Nat} {e : Element}, es[k]? = some e → ∃ hk : k < ys.length, entry e = .ok ys[k] := by
    intro k e he
    obtain ⟨hk, rfl⟩ := List.getElem?_eq_some_iff.1 he
    exact ⟨hlength ▸ hk, hys.get hk (hlength ▸ hk)⟩
  have hdistinct : ys.Pairwise fun y y' => y.order ≠ y'.order := by
    refine (hperm.pairwise_iff fun h => Ne.symm h).1 (hsorted.imp ?_)
    intro y y' hlt
    omega
  rintro (⟨e, he, herror⟩ | ⟨_, ⟨e, he, horder⟩, j, hj, e', he', horder'⟩)
  · obtain ⟨_, hentry⟩ := hread he
    cases herror.symm.trans hentry
  · obtain ⟨hk, hentry⟩ := hread he
    obtain ⟨hj', hentry'⟩ := hread he'
    rw [order?_of_entry hentry] at horder
    rw [order?_of_entry hentry', ← horder] at horder'
    exact List.pairwise_iff_getElem.1 hdistinct j k hj' hk hj (Option.some.inj horder')

/-- The orders of what has been read are those of the elements. -/
private theorem exists_order?_of_mem {es : List Element} {xs : List Entry} (h : entries [] es = .ok xs) {x : Entry}
    (hx : x ∈ xs) : ∃ j < es.length, ∃ e, es[j]? = some e ∧ e.order? = some x.order := by
  obtain ⟨_, ys, hys, hperm⟩ := (entries_eq_ok_iff List.Pairwise.nil).1 h
  rw [List.append_nil] at hperm
  obtain ⟨j, hj, rfl⟩ := List.getElem_of_mem (hperm.mem_iff.1 hx)
  have hj' : j < es.length := hys.length_eq ▸ hj
  exact ⟨j, hj', _, List.getElem?_eq_getElem hj', order?_of_entry (hys.get hj' hj)⟩

/-- The element behind those that are read is the first one at fault, if it is at fault. -/
private theorem firstFaulty_of_faulty {before : List Element} {sorted : List Entry} (h : entries [] before = .ok sorted)
    {after : List Element} {error : LoadError} (hfaulty : Faulty (before ++ after) before.length error) :
    FirstFaulty (before ++ after) before.length error := by
  refine ⟨hfaulty, ?_⟩
  intro j error' h'
  by_contra hlt
  refine not_faulty_of_entries h j error' (h'.congr fun i hi => ?_)
  rw [List.getElem?_append_left (by omega)]

/-- Reading stops at the first element that is at fault. Induction over the elements that are left, with those that are
read already as `before`. -/
private theorem exists_firstFaulty {before : List Element} {sorted : List Entry} (h : entries [] before = .ok sorted)
    {es : List Element} {error : LoadError} (herror : entries sorted es = .error error) :
    ∃ k, FirstFaulty (before ++ es) k error := by
  induction es generalizing before sorted with
  | nil => cases herror
  | cons e es ih =>
    have hnext : (before ++ e :: es)[before.length]? = some e := by simp
    rw [entries] at herror
    rcases bind_eq_error.1 herror with hentry | ⟨x, hentry, herror⟩
    · exact ⟨_, firstFaulty_of_faulty h (.rejected ⟨e, hnext, hentry⟩)⟩
    · cases hinsert : insert? x sorted with
      | none =>
        rw [hinsert] at herror
        cases herror
        obtain ⟨y, hy, horder⟩ := exists_order_eq_of_insert? hinsert
        obtain ⟨j, hj, e', he', horder'⟩ := exists_order?_of_mem h hy
        refine ⟨_, firstFaulty_of_faulty h (.repeats ?_ ⟨⟨e, hnext, order?_of_entry hentry⟩, j, hj, e', ?_, ?_⟩)⟩
        · intro error hrejected
          cases ((rejected_iff hnext).1 hrejected).symm.trans hentry
        · rw [List.getElem?_append_left hj, he']
        · rw [horder', horder]
      | some sorted' =>
        rw [hinsert] at herror
        have hread : entries [] (before ++ [e]) = .ok sorted' := by
          rw [entries_append]
          refine bind_eq_ok.2 ⟨sorted, h, ?_⟩
          rw [entries]
          refine bind_eq_ok.2 ⟨x, hentry, ?_⟩
          rw [hinsert]
          rfl
        have hfirst := ih hread herror
        rwa [List.append_assoc] at hfirst

theorem entries_eq_error_iff {es : List Element} {error : LoadError} :
    entries [] es = .error error ↔ ∃ k, FirstFaulty es k error := by
  have hstart : entries [] [] = .ok [] := rfl
  constructor
  · intro h
    exact exists_firstFaulty hstart h
  · rintro ⟨k, hfirst⟩
    cases h : entries [] es with
    | ok xs => exact absurd hfirst.faulty (not_faulty_of_entries h k error)
    | error error' =>
      obtain ⟨k', hfirst'⟩ := exists_firstFaulty hstart h
      rw [FirstFaulty.unique hfirst' hfirst]

private theorem programOf_eq_error_iff {root : Element} (hroot : IsRoot root) {error : LoadError} :
    programOf root = .error error ↔ ∃ k, FirstFaulty root.children k error := by
  obtain ⟨hname, found, hfound, hlanguage⟩ := hroot
  rw [← entries_eq_error_iff]
  unfold programOf
  dsimp only
  rw [if_neg (not_not.2 hname), required_eq_ok_iff.2 hfound]
  change (if _ then _ else _) = _ ↔ _
  rw [if_pos hlanguage, bind_eq_error]
  simp [pure, Except.pure]

/-! ### Where a fault is located -/

/-- The ways in which an element cannot be read, in the order in which they are found. -/
inductive Fails (e : Element) : LoadError → Prop where
  | name (h : e.name ≠ "instruction") : Fails e (.invalid .document (.unexpectedElement e.name))
  | noOrder (hname : e.name = "instruction") (h : e.attribute? "order" = none) :
    Fails e (.invalid .document (.missingAttribute "instruction" "order"))
  | invalidOrder {text : String} (hname : e.name = "instruction") (htext : e.attribute? "order" = some text)
    (h : order? text = none) : Fails e (.invalid .document (.invalidOrder text))
  | noOpcode {order : Nat} (hname : e.name = "instruction") (horder : e.order? = some order)
    (h : e.attribute? "opcode" = none) : Fails e (.invalid .document (.missingAttribute "instruction" "opcode"))
  | instruction {order : Nat} {word : String} {cause : SourceFault} (hname : e.name = "instruction")
    (horder : e.order? = some order) (hword : e.attribute? "opcode" = some word) (h : instructionOf word e = .error cause) :
    Fails e (.invalid (.instruction order) cause)

private theorem required_eq_error_iff {location : Location} {e : Element} {element name : String} {error : LoadError} :
    required location e element name = .error error ↔
      e.attribute? name = none ∧ error = .invalid location (.missingAttribute element name) := by
  unfold required
  cases e.attribute? name <;> simp [eq_comm]

private theorem fails_of_entry {e : Element} {error : LoadError} (h : entry e = .error error) : Fails e error := by
  unfold entry at h
  dsimp only at h
  split at h
  case isTrue hname =>
    cases h
    exact .name hname
  case isFalse hname =>
    have hname := not_not.1 hname
    rcases bind_eq_error.1 h with hrequired | ⟨text, htext, h⟩
    · obtain ⟨hnone, rfl⟩ := required_eq_error_iff.1 hrequired
      exact .noOrder hname hnone
    · have htext := required_eq_ok_iff.1 htext
      split at h
      case h_1 hnone =>
        cases h
        exact .invalidOrder hname htext hnone
      case h_2 order horder =>
        have horder : e.order? = some order := by rw [Element.order?, htext, Option.bind_some, horder]
        rcases bind_eq_error.1 h with hrequired | ⟨word, hword, h⟩
        · obtain ⟨hnone, rfl⟩ := required_eq_error_iff.1 hrequired
          exact .noOpcode hname horder hnone
        · split at h
          case h_1 => cases h
          case h_2 cause hcause =>
            cases h
            exact .instruction hname horder (required_eq_ok_iff.1 hword) hcause

/-- Once its order is read, an element at fault is located at its order, unless it has no opcode. -/
private theorem Faulty.located_at_order {es : List Element} {k : Nat} {error : LoadError} (h : Faulty es k error)
    {e : Element} (he : es[k]? = some e) {order : Nat} (hname : e.name = "instruction")
    (horder : e.order? = some order) :
    (e.attribute? "opcode" = none → error = .invalid .document (.missingAttribute "instruction" "opcode")) ∧
      ∀ word, e.attribute? "opcode" = some word → ∃ cause, error = .invalid (.instruction order) cause := by
  rcases h.entry_eq he with hentry | ⟨x, hentry, rfl⟩
  · cases fails_of_entry hentry with
    | name hother => exact absurd hname hother
    | noOrder _ hnone => rw [Element.order?, hnone] at horder; cases horder
    | invalidOrder _ htext hnone => rw [Element.order?, htext, Option.bind_some, hnone] at horder; cases horder
    | noOpcode _ _ hnone => simp [hnone]
    | instruction _ horder' hword _ =>
      obtain rfl := Option.some.inj (horder.symm.trans horder')
      simp [hword]
  · obtain ⟨_, horder', word, hword, _⟩ := entry_eq_ok_iff.1 hentry
    obtain rfl := Option.some.inj (horder.symm.trans horder')
    simp [hword]

/-- Before its order is read, an element at fault is located at the document. -/
private theorem Faulty.located_at_document {es : List Element} {k : Nat} {error : LoadError} (h : Faulty es k error)
    {e : Element} (he : es[k]? = some e) (hnone : e.name ≠ "instruction" ∨ e.order? = none) :
    ∃ cause, error = .invalid .document cause := by
  have hunread : ∀ order, e.name = "instruction" → e.order? ≠ some order := by
    intro order hname horder
    rcases hnone with hother | hnone
    · exact hother hname
    · cases hnone.symm.trans horder
  rcases h.entry_eq he with hentry | ⟨x, hentry, rfl⟩
  · cases fails_of_entry hentry with
    | instruction hname horder _ _ => exact absurd horder (hunread _ hname)
    | _ => exact ⟨_, rfl⟩
  · obtain ⟨hname, horder, _⟩ := entry_eq_ok_iff.1 hentry
    exact absurd horder (hunread _ hname)

private theorem order?_eq_some_iff {text : String} {n : Nat} : order? text = some n ↔ IsOrder (Text.trim text) n := by
  have hsize : UInt64.size = 2 ^ 64 := rfl
  have hread : ∀ {digits : List Char}, ((Literal.numeral? 10 digits).filter fun n => 0 < n ∧ n < UInt64.size) = some n ↔
      Literal.Writes 10 digits n ∧ 1 ≤ n ∧ n ≤ 2 ^ 64 - 1 := by
    intro digits
    rw [Option.filter_eq_some_iff, Literal.numeral?_eq_some_iff (by decide), decide_eq_true_eq, hsize]
    refine and_congr_right fun _ => ?_
    omega
  unfold order? IsOrder
  rw [Text.trim, String.toList_ofList]
  constructor
  · intro h
    dsimp only at h
    split at h
    case h_1 digits htrim => exact ⟨['+'], by decide, digits, htrim, hread.1 h⟩
    case h_2 => exact ⟨[], by decide, _, rfl, hread.1 h⟩
  · rintro ⟨sign, hsign, digits, htrim, h⟩
    rw [htrim]
    simp only [List.mem_cons, List.not_mem_nil, or_false] at hsign
    rcases hsign with rfl | rfl
    · -- digits do not begin with a sign
      dsimp only
      split
      case h_1 ds heq =>
        obtain rfl : digits = '+' :: ds := heq
        obtain ⟨hwrites, _⟩ := h
        rw [← Literal.numeral?_eq_some_iff (by decide)] at hwrites
        cases hwrites
      case h_2 => exact hread.2 h
    · exact hread.2 h

/-- A document with the root of a program fails if and only if some child cannot be read by itself or repeats the order of
an earlier one. The error is that of the first such child, by itself if it has one, and does not depend on what stands
behind the child. Once the order of the child is read, the error is located at that order, unless the opcode is missing;
before that it is located at the document. An order is read if and only if, without white space around it, it is a number
from 1 to 2^64 - 1 in decimal digits with an optional plus sign. -/
theorem first_faulty_child_reported {root : Element} (hroot : IsRoot root) :
    ((∃ error, programOf root = .error error) ↔
      ∃ k, (∃ error, Rejected root.children k error) ∨ ∃ order, Repeats root.children k order) ∧
    (∀ error, programOf root = .error error ↔ ∃ k, FirstFaulty root.children k error) ∧
    (∀ k error, FirstFaulty root.children k error → ∀ root', IsRoot root' →
      root'.children.take (k + 1) = root.children.take (k + 1) → programOf root' = .error error) ∧
    (∀ k error e, FirstFaulty root.children k error → root.children[k]? = some e →
      (∀ order, e.name = "instruction" → e.order? = some order →
        (e.attribute? "opcode" = none → error = .invalid .document (.missingAttribute "instruction" "opcode")) ∧
        ∀ word, e.attribute? "opcode" = some word → ∃ cause, error = .invalid (.instruction order) cause) ∧
      (e.name ≠ "instruction" ∨ e.order? = none → ∃ cause, error = .invalid .document cause)) ∧
    ∀ text n, order? text = some n ↔ IsOrder (Text.trim text) n := by
  refine ⟨?_, fun error => programOf_eq_error_iff hroot, ?_, ?_, fun text n => order?_eq_some_iff⟩
  · simp only [programOf_eq_error_iff hroot, ← exists_faulty_iff]
    constructor
    · rintro ⟨error, k, hfirst⟩
      exact ⟨k, error, hfirst.faulty⟩
    · rintro ⟨k, error, hfaulty⟩
      cases hentries : entries [] root.children with
      | ok xs => exact absurd hfaulty (not_faulty_of_entries hentries k error)
      | error error' => exact ⟨error', entries_eq_error_iff.1 hentries⟩
  · intro k error hfirst root' hroot' hchildren
    refine (programOf_eq_error_iff hroot').2 ⟨k, hfirst.congr fun j hj => ?_⟩
    have hj : j < k + 1 := Nat.lt_succ_of_le hj
    rw [← List.getElem?_take_of_lt hj, hchildren, List.getElem?_take_of_lt hj]
  · intro k error e hfirst he
    exact ⟨fun order hname horder => hfirst.faulty.located_at_order he hname horder,
      fun hnone => hfirst.faulty.located_at_document he hnone⟩

/-- An order that is written in two ways, and behind it an opcode that does not exist and an element that is no
instruction. -/
theorem first_faulty_child_reported_of_three :
    let child (order opcode : String) : Node :=
      .element "instruction" [⟨none, "order", order⟩, ⟨none, "opcode", opcode⟩] []
    let root (content : List Node) : Element := ⟨"program", [⟨none, "language", "ippcode23"⟩], content⟩
    let content : List Node := [child "7" "BREAK", child " +07 " "BREAK", child "7" "NOPE", .element "instr" [] []]
    let error : LoadError := .invalid (.instruction 7) .duplicateOrder
    FirstFaulty (root content).children 1 error ∧ programOf (root content) = .error error ∧
      programOf (root (content.take 2)) = .error error ∧ IsOrder (Text.trim " +07 ") 7 := by
  intro child root content error
  have hroot : ∀ content, IsRoot (root content) := fun content => ⟨rfl, "ippcode23", rfl, by decide⟩
  have hread : entries [] (root (content.take 1)).children = .ok [⟨7, ⟨.dump, []⟩⟩] := rfl
  have hfirst : FirstFaulty (root content).children 1 error := by
    refine firstFaulty_of_faulty hread (.repeats ?_ ⟨⟨_, rfl, rfl⟩, 0, Nat.one_pos, _, rfl, rfl⟩)
    rintro error' ⟨e, he, herror⟩
    cases he
    cases herror
  obtain ⟨_, herror, hlater, _, horder⟩ := first_faulty_child_reported (hroot content)
  exact ⟨hfirst, (herror error).2 ⟨1, hfirst⟩, hlater 1 error hfirst _ (hroot _) rfl, (horder " +07 " 7).1 rfl⟩

end IPPcode23.Xml
