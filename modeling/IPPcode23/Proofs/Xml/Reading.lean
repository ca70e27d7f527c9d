import IPPcode23.Proofs.Except
import IPPcode23.Proofs.Load
import Mathlib.Data.List.Flatten
import Mathlib.Data.List.Forall2
import Mathlib.Data.List.Nodup
import Mathlib.Data.List.Perm.Basic

/-!
# What an XML document denotes

When the parts of a document can be read and what they give then, in words that do not depend on how they stand in the
document. The operands of an instruction are provided by its children, one for each of the names `arg1` to `arg3` in
turn (`operandsOf_eq_ok_iff`). A document is a program if all its entries can be read and no order is taken twice, and
the program has the instructions in the order of these (`programOf_eq_ok_iff`).
-/

namespace IPPcode23.Xml

/-! ### Arguments -/

private theorem checkArgument_eq_ok_iff {e : Element} :
    checkArgument e = .ok () ↔ e.name ∈ argumentNames ∧ e.children = [] := by
  unfold checkArgument
  split
  case isTrue h => cases e.children <;> simp [h]
  case isFalse h => simp [h]

private theorem checkArguments_eq_ok_iff {es : List Element} :
    checkArguments es = .ok () ↔ ∀ e ∈ es, checkArgument e = .ok () := by
  induction es with
  | nil => simp [checkArguments]
  | cons e es ih =>
    rw [checkArguments, List.forall_mem_cons]
    cases h : checkArgument e with
    | ok => simp [ih]
    | error => simp

private theorem operands_eq_ok_iff {es : List Element} {os : List Operand} :
    operands es = .ok os ↔ List.Forall₂ (fun e o => operand e = .ok o) es os := by
  induction es generalizing os with
  | nil =>
    constructor
    · intro h
      cases h
      exact .nil
    · intro h
      cases h
      rfl
  | cons e es ih =>
    rw [operands, bind_eq_ok, List.forall₂_cons_left_iff]
    constructor
    · rintro ⟨o, ho, h⟩
      obtain ⟨os', hos, h⟩ := bind_eq_ok.1 h
      exact ⟨o, os', ho, ih.1 hos, (pure_eq_ok.1 h).symm⟩
    · rintro ⟨o, os', ho, hos, rfl⟩
      exact ⟨o, ho, bind_eq_ok.2 ⟨os', ih.2 hos, rfl⟩⟩

/-- Elements in the order of their names, for any names. -/
private theorem perm_flatMap_filter {names : List String} (hnodup : names.Nodup) {es : List Element}
    (h : ∀ e ∈ es, e.name ∈ names) : (names.flatMap fun name => es.filter (·.name == name)).Perm es := by
  induction names generalizing es with
  | nil =>
    cases es with
    | nil => simp
    | cons e es => exact absurd (h e List.mem_cons_self) (by simp)
  | cons n names ih =>
    rw [List.nodup_cons] at hnodup
    -- the elements of the other names are those that are left when the first name is taken out
    have hothers : ∀ name ∈ names, es.filter (·.name == name) =
        (es.filter fun e => !(e.name == n)).filter (·.name == name) := by
      intro name hname
      rw [List.filter_filter]
      apply List.filter_congr
      intro e _
      by_cases he : e.name = name
      · have hne : name ≠ n := fun heq => hnodup.1 (heq ▸ hname)
        simp [he, hne]
      · simp [he]
    have hrest : ∀ e ∈ es.filter (fun e => !(e.name == n)), e.name ∈ names := by
      intro e he
      obtain ⟨he, hne⟩ := List.mem_filter.1 he
      rcases List.mem_cons.1 (h e he) with heq | hmem
      · simp [heq] at hne
      · exact hmem
    rw [List.flatMap_cons, List.flatMap_congr hothers]
    exact ((ih hnodup.2 hrest).append_left _).trans (List.filter_append_perm _ es)

/-- Elements that have the first of some names, each once, stand in that order already. -/
private theorem flatMap_filter_eq_self {names : List String} (hnodup : names.Nodup) {es : List Element}
    (h : es.map Element.name = names.take es.length) : (names.flatMap fun name => es.filter (·.name == name)) = es := by
  induction names generalizing es with
  | nil =>
    cases es with
    | nil => rfl
    | cons e es => simp at h
  | cons n names ih =>
    cases es with
    | nil => simp
    | cons e es =>
      rw [List.nodup_cons] at hnodup
      simp only [List.map_cons, List.length_cons, List.take_succ_cons, List.cons.injEq] at h
      obtain ⟨he, hes⟩ := h
      have hmem : ∀ e' ∈ es, e'.name ∈ names := by
        intro e' he'
        have hname : e'.name ∈ es.map Element.name := List.mem_map_of_mem he'
        rw [hes] at hname
        exact List.mem_of_mem_take hname
      have hfirst : es.filter (·.name == n) = [] := by
        rw [List.filter_eq_nil_iff]
        intro e' he' heq
        exact hnodup.1 (beq_iff_eq.1 heq ▸ hmem e' he')
      have hothers : ∀ name ∈ names, (e :: es).filter (·.name == name) = es.filter (·.name == name) := by
        intro name hname
        have hne : n ≠ name := fun heq => hnodup.1 (heq ▸ hname)
        simp [he, hne]
      rw [List.flatMap_cons, List.flatMap_congr hothers, ih hnodup.2 hes]
      simp [he, hfirst]

private theorem nodup_argumentNames : argumentNames.Nodup := by decide

private theorem perm_sortArguments {es : List Element} (h : ∀ e ∈ es, e.name ∈ argumentNames) :
    (sortArguments es).Perm es :=
  perm_flatMap_filter nodup_argumentNames h

/-- Arguments in sequence are found again in whatever order they stand. -/
private theorem sortArguments_eq_of_perm {args es : List Element} (hperm : args.Perm es)
    (h : args.map Element.name = argumentNames.take args.length) : sortArguments es = args := by
  have hnodup : (args.map Element.name).Nodup := by
    rw [h]
    exact nodup_argumentNames.sublist (List.take_sublist _ _)
  have hfilter : ∀ name ∈ argumentNames, es.filter (·.name == name) = args.filter (·.name == name) := by
    intro name _
    have hfound := hperm.filter (·.name == name)
    have hcount : (args.filter (·.name == name)).length ≤ 1 := by
      have hle := List.nodup_iff_count_le_one.1 hnodup name
      rwa [List.count, List.countP_map, List.countP_eq_length_filter] at hle
    -- of each name there is at most one, so that it makes no difference in which order they are
    match hargs : args.filter (·.name == name) with
    | [] =>
      rw [hargs] at hfound ⊢
      exact hfound.symm.eq_nil
    | [a] =>
      rw [hargs] at hfound ⊢
      exact List.perm_singleton.1 hfound.symm
    | a :: b :: _ =>
      rw [hargs] at hcount
      simp at hcount
  unfold sortArguments
  rw [List.flatMap_congr hfilter]
  exact flatMap_filter_eq_self nodup_argumentNames h

/-- The name of the argument at a position. -/
def argumentName (k : Nat) : String :=
  "arg" ++ (k + 1).repr

theorem take_argumentNames {n : Nat} (h : n ≤ argumentNames.length) :
    argumentNames.take n = (List.range n).map argumentName := by
  have hall : ∀ n < 4, argumentNames.take n = (List.range n).map argumentName := by decide
  exact hall n (Nat.lt_succ_of_le h)

/-- An argument of a given name that provides an operand. -/
structure Provides (a : Element) (named : String × Operand) : Prop where
  name : a.name = named.1
  children : a.children = []
  operand : operand a = .ok named.2

/-- Arguments provide operands in turn if they have the names in turn, hold no elements and denote the operands. -/
theorem provides_zip_iff {names : List String} {args : List Element} {os : List Operand} :
    os.length ≤ names.length ∧ List.Forall₂ Provides args (names.zip os) ↔
      args.map Element.name = names.take args.length ∧ (∀ a ∈ args, a.children = []) ∧
        List.Forall₂ (fun a o => operand a = .ok o) args os := by
  induction args generalizing names os with
  | nil =>
    cases os with
    | nil => simp
    | cons o os => cases names <;> simp
  | cons a args ih =>
    cases names with
    | nil => simp
    | cons name names =>
      cases os with
      | nil => simp
      | cons o os =>
        have hrest := @ih names os
        simp only [List.length_cons, Nat.add_le_add_iff_right, List.zip_cons_cons, List.forall₂_cons, List.map_cons,
          List.take_succ_cons, List.cons.injEq, List.forall_mem_cons]
        constructor
        · rintro ⟨hlength, ha, h⟩
          obtain ⟨hnames, hchildren, hos⟩ := hrest.1 ⟨hlength, h⟩
          exact ⟨⟨ha.name, hnames⟩, ⟨ha.children, hchildren⟩, ha.operand, hos⟩
        · rintro ⟨⟨hname, hnames⟩, ⟨hchild, hchildren⟩, ho, hos⟩
          obtain ⟨hlength, h⟩ := hrest.2 ⟨hnames, hchildren, hos⟩
          exact ⟨hlength, ⟨hname, hchild, ho⟩, h⟩

/-- The operands of an instruction element are those that its children provide, named in turn. -/
theorem operandsOf_eq_ok_iff {e : Element} {os : List Operand} :
    operandsOf e = .ok os ↔ os.length ≤ argumentNames.length ∧
      ∃ args, args.Perm e.children ∧ List.Forall₂ Provides args (argumentNames.zip os) := by
  unfold operandsOf
  rw [bind_eq_ok]
  constructor
  · rintro ⟨⟨⟩, hcheck, h⟩
    simp only [checkArguments_eq_ok_iff, checkArgument_eq_ok_iff] at hcheck
    dsimp only at h
    split at h
    case isFalse => cases h
    case isTrue hsequence =>
      have hperm := perm_sortArguments fun a ha => (hcheck a ha).1
      have hchildren : ∀ a ∈ sortArguments e.children, a.children = [] := by
        intro a ha
        exact (hcheck a (hperm.mem_iff.1 ha)).2
      obtain ⟨hlength, hprovides⟩ := provides_zip_iff.2 ⟨beq_iff_eq.1 hsequence, hchildren, operands_eq_ok_iff.1 h⟩
      exact ⟨hlength, _, hperm, hprovides⟩
  · rintro ⟨hlength, args, hperm, h⟩
    obtain ⟨hnames, hchildren, hos⟩ := provides_zip_iff.1 ⟨hlength, h⟩
    refine ⟨(), ?_, ?_⟩
    · simp only [checkArguments_eq_ok_iff, checkArgument_eq_ok_iff]
      intro a ha
      have ha : a ∈ args := hperm.mem_iff.2 ha
      have hname : a.name ∈ argumentNames.take args.length := hnames ▸ List.mem_map_of_mem ha
      exact ⟨List.mem_of_mem_take hname, hchildren a ha⟩
    · have hsequence : inSequence args = true := beq_iff_eq.2 hnames
      dsimp only
      rw [sortArguments_eq_of_perm hperm hnames, if_pos hsequence]
      exact operands_eq_ok_iff.2 hos

/-! ### Entries -/

theorem instructionOf_eq_ok_iff {word : String} {e : Element} {i : Instruction} :
    instructionOf word e = .ok i ↔ Opcode.parse (Text.trim word) = .ok i.opcode ∧ operandsOf e = .ok i.operands ∧
      i.checkSignature = .ok () := by
  unfold instructionOf
  cases hopcode : Opcode.parse (Text.trim word) with
  | error cause => simp
  | ok opcode =>
    simp only [bind_eq_ok, Except.ok.injEq]
    constructor
    · rintro ⟨os, hos, h⟩
      split at h
      case h_1 hcheck =>
        obtain rfl := pure_eq_ok.1 h
        exact ⟨rfl, hos, hcheck⟩
      case h_2 => cases h
    · rintro ⟨rfl, hos, hcheck⟩
      refine ⟨i.operands, hos, ?_⟩
      rw [hcheck]
      rfl

theorem required_eq_ok_iff {location : Location} {e : Element} {element name value : String} :
    required location e element name = .ok value ↔ e.attribute? name = some value := by
  unfold required
  cases e.attribute? name <;> simp

/-- The order that the attribute of an element gives. -/
def Element.order? (e : Element) : Option Nat :=
  (e.attribute? "order").bind Xml.order?

theorem entry_eq_ok_iff {e : Element} {x : Entry} :
    entry e = .ok x ↔ e.name = "instruction" ∧ e.order? = some x.order ∧
      ∃ word, e.attribute? "opcode" = some word ∧ instructionOf word e = .ok x.instruction := by
  unfold entry
  dsimp only
  by_cases hname : e.name = "instruction"
  · rw [if_neg (not_not.2 hname)]
    constructor
    · intro h
      obtain ⟨text, htext, h⟩ := bind_eq_ok.1 h
      split at h
      case h_1 => cases h
      case h_2 order horder =>
        obtain ⟨word, hword, h⟩ := bind_eq_ok.1 h
        split at h
        case h_1 i hi =>
          obtain rfl := pure_eq_ok.1 h
          refine ⟨hname, ?_, word, required_eq_ok_iff.1 hword, hi⟩
          rw [Element.order?, required_eq_ok_iff.1 htext, Option.bind_some, horder]
        case h_2 => cases h
    · rintro ⟨_, horder, word, hword, hi⟩
      obtain ⟨text, htext, horder⟩ := Option.bind_eq_some_iff.1 horder
      refine bind_eq_ok.2 ⟨text, required_eq_ok_iff.2 htext, ?_⟩
      rw [horder]
      refine bind_eq_ok.2 ⟨word, required_eq_ok_iff.2 hword, ?_⟩
      rw [hi]
      rfl
  · rw [if_pos hname]
    constructor
    · intro h
      cases h
    · intro h
      exact absurd h.1 hname

/-- Entries in strictly increasing order. -/
def Sorted (xs : List Entry) : Prop :=
  xs.Pairwise fun x y => x.order < y.order

private theorem Sorted.eq_of_perm {xs ys : List Entry} (hxs : Sorted xs) (hys : Sorted ys) (h : xs.Perm ys) :
    xs = ys := by
  refine h.eq_of_pairwise ?_ hxs hys
  intro x y _ _ hlt hgt
  omega

private theorem perm_insert? {x : Entry} {ys zs : List Entry} (h : insert? x ys = some zs) : zs.Perm (x :: ys) := by
  induction ys generalizing zs with
  | nil =>
    cases h
    exact .refl _
  | cons y ys ih =>
    unfold insert? at h
    split at h
    · cases h
      exact .refl _
    · split at h
      · cases h
      · obtain ⟨zs', hzs, rfl⟩ := Option.map_eq_some_iff.1 h
        exact ((ih hzs).cons y).trans (.swap x y ys)

private theorem sorted_insert? {x : Entry} {ys zs : List Entry} (hys : Sorted ys) (h : insert? x ys = some zs) :
    Sorted zs := by
  induction ys generalizing zs with
  | nil =>
    cases h
    exact List.pairwise_singleton _ _
  | cons y ys ih =>
    obtain ⟨hy, hys⟩ := List.pairwise_cons.1 hys
    unfold insert? at h
    split at h
    case isTrue hlt =>
      cases h
      refine List.pairwise_cons.2 ⟨?_, List.pairwise_cons.2 ⟨hy, hys⟩⟩
      intro z hz
      rcases List.mem_cons.1 hz with rfl | hz
      · exact hlt
      · have := hy z hz
        omega
    case isFalse hlt =>
      split at h
      case isTrue => cases h
      case isFalse hne =>
        obtain ⟨zs', hzs, rfl⟩ := Option.map_eq_some_iff.1 h
        refine List.pairwise_cons.2 ⟨?_, ih hys hzs⟩
        intro z hz
        rcases (mem_insert? hzs).1 hz with rfl | hz
        · omega
        · exact hy z hz

theorem exists_order_eq_of_insert? {x : Entry} {ys : List Entry} (h : insert? x ys = none) :
    ∃ y ∈ ys, y.order = x.order := by
  induction ys with
  | nil => cases h
  | cons y ys ih =>
    unfold insert? at h
    split at h
    · cases h
    · split at h
      case isTrue heq => exact ⟨y, List.mem_cons_self, heq.symm⟩
      case isFalse =>
        obtain ⟨z, hz, heq⟩ := ih (Option.map_eq_none_iff.1 h)
        exact ⟨z, List.mem_cons_of_mem y hz, heq⟩

/-- Reading elements adds their entries to those that are sorted already, and gives what is in order of all. -/
theorem entries_eq_ok_iff {sorted xs : List Entry} {es : List Element} (hsorted : Sorted sorted) :
    entries sorted es = .ok xs ↔
      Sorted xs ∧ ∃ ys, List.Forall₂ (fun e y => entry e = .ok y) es ys ∧ xs.Perm (ys ++ sorted) := by
  induction es generalizing sorted with
  | nil =>
    rw [entries]
    constructor
    · intro h
      cases h
      exact ⟨hsorted, [], .nil, .refl _⟩
    · rintro ⟨hxs, ys, hys, hperm⟩
      cases hys
      rw [hxs.eq_of_perm hsorted hperm]
  | cons e es ih =>
    rw [entries, bind_eq_ok]
    constructor
    · rintro ⟨x, hx, h⟩
      split at h
      case h_2 => cases h
      case h_1 sorted' hinsert =>
        obtain ⟨hxs, ys, hys, hperm⟩ := (ih (sorted_insert? hsorted hinsert)).1 h
        refine ⟨hxs, x :: ys, .cons hx hys, hperm.trans ?_⟩
        exact ((perm_insert? hinsert).append_left ys).trans List.perm_middle
    · rintro ⟨hxs, ys, hys, hperm⟩
      cases hys with
      | @cons _ x _ ys hx hys =>
        refine ⟨x, hx, ?_⟩
        cases hinsert : insert? x sorted with
        | some sorted' =>
          refine (ih (sorted_insert? hsorted hinsert)).2 ⟨hxs, ys, hys, hperm.trans ?_⟩
          exact (((perm_insert? hinsert).append_left ys).trans List.perm_middle).symm
        | none =>
          -- an order that is taken would occur twice among those in strictly increasing order
          obtain ⟨y, hy, heq⟩ := exists_order_eq_of_insert? hinsert
          have hne : (x :: (ys ++ sorted)).Pairwise fun a b => a.order ≠ b.order := by
            refine (hperm.pairwise_iff (fun h => Ne.symm h)).1 (hxs.imp ?_)
            intro a b hlt
            omega
          exact absurd heq.symm ((List.pairwise_cons.1 hne).1 y (List.mem_append_right ys hy))

/-- A document is a program if its root says so, all entries can be read and their orders differ; the program has the
instructions in increasing order. -/
theorem programOf_eq_ok_iff {root : Element} {p : Program} :
    programOf root = .ok p ↔ root.name = "program" ∧
      (∃ found, root.attribute? "language" = some found ∧ Text.equalFold found language = true) ∧
      ∃ es xs, es.Perm root.children ∧ List.Forall₂ (fun e x => entry e = .ok x) es xs ∧ Sorted xs ∧
        p = (xs.map Entry.instruction).toArray := by
  unfold programOf
  dsimp only
  by_cases hname : root.name = "program"
  · rw [if_neg (not_not.2 hname), bind_eq_ok]
    constructor
    · rintro ⟨found, hfound, h⟩
      split at h
      case isFalse => cases h
      case isTrue hlanguage =>
        obtain ⟨xs, hxs, h⟩ := bind_eq_ok.1 h
        obtain ⟨hsorted, ys, hys, hperm⟩ := (entries_eq_ok_iff List.Pairwise.nil).1 hxs
        rw [List.append_nil] at hperm
        obtain ⟨es, hes, hperm'⟩ := List.perm_comp_forall₂ hperm (hys.flip)
        exact ⟨hname, ⟨found, required_eq_ok_iff.1 hfound, hlanguage⟩, es, xs, hperm', hes.flip, hsorted,
          (pure_eq_ok.1 h).symm⟩
    · rintro ⟨_, ⟨found, hfound, hlanguage⟩, es, xs, hperm, hes, hsorted, rfl⟩
      refine ⟨found, required_eq_ok_iff.2 hfound, ?_⟩
      obtain ⟨ys, hys, hperm'⟩ := List.perm_comp_forall₂ hperm.symm hes
      have hxs : entries [] root.children = .ok xs := by
        refine (entries_eq_ok_iff List.Pairwise.nil).2 ⟨hsorted, ys, hys, ?_⟩
        rw [List.append_nil]
        exact hperm'.symm
      rw [if_pos hlanguage, hxs]
      rfl
  · rw [if_pos hname]
    constructor
    · intro h
      cases h
    · intro h
      exact absurd h.1 hname

end IPPcode23.Xml
