import IPPcode23.Proofs.Memory
import IPPcode23.Proofs.Rename.Instruction

/-!
# Renaming in memory

A renamed frame knows of a new name what the frame knows of the old one (`lookup_rename`), and of a name that is no new
one it knows nothing. That is all there is to a frame, so every access to a renamed variable of a renamed memory comes to
the same as before, or fails as before with the names renamed (`Agree`).
-/

namespace IPPcode23

/-- Two computations agree up to a renaming: their results are related, or both fail, the second one with the fault of
the first one renamed. -/
inductive Agree (r : Renaming) {α β : Type} (R : α → β → Prop) : Except Fault α → Except Fault β → Prop where
  | ok {a : α} {b : β} (h : R a b) : Agree r R (.ok a) (.ok b)
  | error {cause cause' : Fault} (h : cause' = cause.rename r) : Agree r R (.error cause) (.error cause')

theorem Agree.bind {r : Renaming} {α α' β β' : Type} {R : α → α' → Prop} {S : β → β' → Prop} {x : Except Fault α}
    {x' : Except Fault α'} {f : α → Except Fault β} {f' : α' → Except Fault β'} (hx : Agree r R x x')
    (hf : ∀ a a', R a a' → Agree r S (f a) (f' a')) : Agree r S (x >>= f) (x' >>= f') := by
  cases hx with
  | ok h => exact hf _ _ h
  | error h => exact .error h

namespace Frame

/-- A frame with its variables renamed. Their order may change. -/
def rename (r : Renaming) (f : Frame) : Frame where
  slots := (f.slots.map fun s => (r.var s.1, s.2)).mergeSort fun s t => !decide (t.1 < s.1)
  sorted := by
    have hperm := List.mergeSort_perm (f.slots.map fun s => (r.var s.1, s.2)) fun s t => !decide (t.1 < s.1)
    have hordered : (List.mergeSort (f.slots.map fun s => (r.var s.1, s.2)) fun s t => !decide (t.1 < s.1)).Pairwise
        fun s t => (!decide (t.1 < s.1)) = true := by
      apply List.pairwise_mergeSort
      · intro s t u hst htu
        simp only [Bool.not_eq_true', decide_eq_false_iff_not, String.not_lt] at hst htu ⊢
        exact String.le_trans hst htu
      · intro s t
        simp only [Bool.or_eq_true, Bool.not_eq_true', decide_eq_false_iff_not, String.not_lt]
        exact String.le_total _ _
    have hdistinct : (f.slots.map fun s => (r.var s.1, s.2)).Pairwise fun s t => s.1 ≠ t.1 := by
      rw [List.pairwise_map]
      refine f.sorted.imp ?_
      intro s t hlt heq
      rw [r.var.injective heq] at hlt
      exact String.lt_irrefl _ hlt
    have hdistinct := (hperm.pairwise_iff fun h => Ne.symm h).2 hdistinct
    refine (hordered.and hdistinct).imp ?_
    rintro s t ⟨hle, hne⟩
    simp only [Bool.not_eq_true', decide_eq_false_iff_not, String.not_lt] at hle
    exact String.not_le.1 fun hge => hne (String.le_antisymm hle hge)

variable {r : Renaming} {f : Frame}

private theorem mem_slots_rename {s : Slot} : s ∈ (f.rename r).slots ↔ ∃ t ∈ f.slots, (r.var t.1, t.2) = s := by
  rw [rename, List.mem_mergeSort, List.mem_map]

private theorem mem_names_rename {name : String} : name ∈ (f.rename r).names ↔ ∃ old ∈ f.names, r.var old = name := by
  simp only [names, List.mem_map, mem_slots_rename]
  constructor
  · rintro ⟨_, ⟨t, ht, rfl⟩, rfl⟩
    exact ⟨t.1, ⟨t, ht, rfl⟩, rfl⟩
  · rintro ⟨_, ⟨t, ht, rfl⟩, rfl⟩
    exact ⟨_, ⟨t, ht, rfl⟩, rfl⟩

private theorem mem_names_rename_iff {name : String} : r.var name ∈ (f.rename r).names ↔ name ∈ f.names := by
  rw [mem_names_rename]
  constructor
  · rintro ⟨old, hold, heq⟩
    rwa [← r.var.injective heq]
  · intro h
    exact ⟨name, h, rfl⟩

/-- What a frame knows of a name, the renamed frame knows of the new name. -/
theorem lookup_rename (name : String) : (f.rename r).lookup (r.var name) = f.lookup name := by
  have hlookup : (f.rename r).slots.lookup (r.var name) = f.slots.lookup name := by
    apply Option.ext
    intro x?
    rw [lookup_eq_some_iff_mem (f.rename r).sorted, lookup_eq_some_iff_mem f.sorted, mem_slots_rename]
    constructor
    · rintro ⟨⟨old, y?⟩, hmem, heq⟩
      obtain ⟨hname, rfl⟩ := Prod.mk.inj heq
      rwa [← r.var.injective hname]
    · intro hmem
      exact ⟨_, hmem, rfl⟩
  rw [lookup, hlookup, lookup]

private theorem lookup_rename_of_ne {name : String} (h : ∀ old, r.var old ≠ name) :
    (f.rename r).lookup name = .undeclared := by
  rw [lookup_eq_undeclared_iff, mem_names_rename]
  rintro ⟨old, _, heq⟩
  exact h old heq

@[simp]
theorem rename_empty : empty.rename r = empty := by
  apply eq_of_lookup
  intro name
  have hnone : ∀ name, empty.lookup name = .undeclared := fun _ => rfl
  by_cases h : ∃ old, r.var old = name
  · obtain ⟨old, rfl⟩ := h
    rw [lookup_rename, hnone, hnone]
  · rw [lookup_rename_of_ne fun old heq => h ⟨old, heq⟩, hnone]

private theorem rename_refl (f : Frame) : f.rename .refl = f := by
  apply eq_of_lookup
  intro name
  exact lookup_rename (r := .refl) name

/-- Updating a renamed variable is renaming after the update. -/
private theorem update?_rename (name : String) (u : Update) :
    (f.rename r).update? (r.var name) u = (f.update? name u).map (rename r) := by
  have hpossible : ((f.rename r).update? (r.var name) u).isSome = (f.update? name u).isSome := by
    cases u <;> simp only [update?, declare?, assign?, mem_names_rename_iff] <;> split <;> rfl
  cases hf' : f.update? name u with
  | none =>
    rw [hf', Option.isSome_none] at hpossible
    exact Option.isNone_iff_eq_none.1 (by simpa using hpossible)
  | some f' =>
    rw [hf', Option.isSome_some] at hpossible
    obtain ⟨g, hg⟩ := Option.isSome_iff_exists.1 hpossible
    rw [hg, Option.map_some, Option.some.injEq]
    apply eq_of_lookup
    intro other
    rw [lookup_of_update? hg]
    by_cases hold : ∃ old, r.var old = other
    · obtain ⟨old, rfl⟩ := hold
      rw [lookup_rename, lookup_rename, lookup_of_update? hf']
      by_cases heq : old = name
      · rw [if_pos heq, if_pos (congrArg r.var heq)]
      · rw [if_neg heq, if_neg fun hnew => heq (r.var.injective hnew)]
    · have hne : ∀ old, r.var old ≠ other := fun old heq => hold ⟨old, heq⟩
      rw [if_neg (Ne.symm (hne name)), lookup_rename_of_ne hne, lookup_rename_of_ne hne]

end Frame

namespace Memory

/-- A memory with the variables in all of its frames renamed. -/
def rename (r : Renaming) (m : Memory) : Memory :=
  ⟨m.global.rename r, m.locals.map (Frame.rename r), m.temporary.map (Frame.rename r)⟩

theorem rename_init (r : Renaming) : init.rename r = init := by
  rw [rename, init, Frame.rename_empty]
  rfl

theorem rename_refl (m : Memory) : m.rename .refl = m := by
  have hrefl : Frame.rename .refl = id := funext Frame.rename_refl
  simp [rename, hrefl]

variable {r : Renaming} {m : Memory}

private theorem frame?_rename (tag : FrameTag) : (m.rename r).frame? tag = (m.frame? tag).map (Frame.rename r) := by
  cases tag with
  | global | temporary => rfl
  | «local» => exact List.head?_map

private theorem setFrame_rename (tag : FrameTag) (f : Frame) :
    (m.rename r).setFrame tag (f.rename r) = (m.setFrame tag f).rename r := by
  cases tag with
  | global => rfl
  | «local» => simp [setFrame, rename, List.map_set]
  | temporary => cases h : m.temporary <;> simp [setFrame, rename, h]

private theorem agree_frame (tag : FrameTag) :
    Agree r (fun f f' => f' = f.rename r) (m.frame tag) ((m.rename r).frame tag) := by
  unfold frame
  rw [frame?_rename]
  cases m.frame? tag with
  | none => exact .error rfl
  | some f => exact .ok rfl

theorem agree_content (v : Variable) : Agree r Eq (m.content v) ((m.rename r).content (v.rename r)) := by
  refine (agree_frame v.frame).bind ?_
  rintro f _ rfl
  have hlookup : (f.rename r).lookup (v.rename r).name = f.lookup v.name := Frame.lookup_rename v.name
  rw [hlookup]
  cases f.lookup v.name with
  | undeclared => exact .error rfl
  | uninitialized | initialized => exact .ok rfl

private theorem agree_read (v : Variable) : Agree r Eq (m.read v) ((m.rename r).read (v.rename r)) := by
  refine (agree_content v).bind ?_
  rintro x? _ rfl
  cases x? with
  | none => exact .error rfl
  | some x => exact .ok rfl

theorem agree_value (source : Symb) : Agree r Eq (m.value source) ((m.rename r).value (source.rename r)) := by
  cases source with
  | var v => exact agree_read v
  | const x => exact .ok rfl

theorem agree_typeName (source : Symb) : Agree r Eq (m.typeName source) ((m.rename r).typeName (source.rename r)) := by
  cases source with
  | const x => exact .ok rfl
  | var v =>
    refine (agree_content v).bind ?_
    rintro x? _ rfl
    cases x? <;> exact .ok rfl

theorem agree_assign (v : Variable) (x : Value) :
    Agree r (fun m m' => m' = m.rename r) (m.assign v x) ((m.rename r).assign (v.rename r) x) := by
  refine (agree_frame v.frame).bind ?_
  rintro f _ rfl
  have hassign : (f.rename r).assign? (v.rename r).name x = (f.assign? v.name x).map (Frame.rename r) :=
    Frame.update?_rename v.name (.assign x)
  rw [hassign]
  cases f.assign? v.name x with
  | none => exact .error rfl
  | some f' => exact .ok (setFrame_rename v.frame f')

theorem agree_declare (v : Variable) :
    Agree r (fun m m' => m' = m.rename r) (m.declare v) ((m.rename r).declare (v.rename r)) := by
  refine (agree_frame v.frame).bind ?_
  rintro f _ rfl
  have hdeclare : (f.rename r).declare? (v.rename r).name = (f.declare? v.name).map (Frame.rename r) :=
    Frame.update?_rename v.name .declare
  rw [hdeclare]
  cases f.declare? v.name with
  | none => exact .error rfl
  | some f' => exact .ok (setFrame_rename v.frame f')

theorem create_rename : (m.rename r).create = m.create.rename r := by
  simp [create, rename]

theorem agree_push : Agree r (fun m m' => m' = m.rename r) m.push (m.rename r).push := by
  have htemporary : (m.rename r).temporary = m.temporary.map (Frame.rename r) := rfl
  unfold push
  rw [htemporary]
  cases m.temporary with
  | none => exact .error rfl
  | some f => exact .ok rfl

theorem agree_pop : Agree r (fun m m' => m' = m.rename r) m.pop (m.rename r).pop := by
  have hlocals : (m.rename r).locals = m.locals.map (Frame.rename r) := rfl
  unfold pop
  rw [hlocals]
  cases m.locals with
  | nil => exact .error rfl
  | cons f rest => exact .ok rfl

end Memory

end IPPcode23
