import IPPcode23.Frame

/-!
# Variables in a frame

What a frame knows of a name after another name, or the same one, has been declared or given a value. An update of a
frame is either of the two; it changes what the frame knows of its own name and of no other (`lookup_of_update?`), and
only a declaration adds a name (`mem_names_of_update?`).
-/

namespace IPPcode23

/-- What can be done to a variable: it is declared, or it is given a value. -/
inductive Update where
  | declare
  | assign (x : Value)
  deriving DecidableEq, Repr

/-- What a frame knows of a name that was updated. -/
def Update.result : Update → Lookup
  | declare => .uninitialized
  | assign x => .initialized x

namespace Frame

/-- Carries out an update of a name, if it is possible. -/
def update? (f : Frame) (name : String) : Update → Option Frame
  | .declare => f.declare? name
  | .assign x => f.assign? name x

/-! ### Slots -/

private theorem lookup_eq_none_iff_not_mem {slots : List Slot} {name : String} :
    slots.lookup name = none ↔ name ∉ slots.map Prod.fst := by
  rw [List.lookup_eq_none_iff]
  constructor
  · intro h hmem
    obtain ⟨s, hs, rfl⟩ := List.mem_map.1 hmem
    simpa using h s hs
  · intro h s hs
    have hne : name ≠ s.1 := fun heq => h (List.mem_map.2 ⟨s, hs, heq.symm⟩)
    simpa using hne

private theorem lookup_insertSlot (name other : String) {slots : List Slot} (hnew : name ∉ slots.map Prod.fst) :
    (insertSlot name slots).lookup other = if other = name then some none else slots.lookup other := by
  induction slots with
  | nil =>
    by_cases h : other = name
    · simp [insertSlot, h]
    · simp [insertSlot, h, List.lookup_cons, beq_eq_false_iff_ne.2 h]
  | cons s rest ih =>
    simp only [List.map_cons, List.mem_cons, not_or] at hnew
    unfold insertSlot
    split
    · by_cases h : other = name
      · simp [h]
      · simp [h, List.lookup_cons, beq_eq_false_iff_ne.2 h]
    · rw [List.lookup_cons, List.lookup_cons, ih hnew.2]
      by_cases h : other = s.1
      · -- the slot passed is not that of the new name
        have hne : s.1 ≠ name := Ne.symm hnew.1
        simp [h, hne]
      · simp [beq_eq_false_iff_ne.2 h]

private theorem lookup_setSlot (name other : String) (x : Value) (slots : List Slot) :
    (setSlot name x slots).lookup other = (slots.lookup other).map fun y? => if other = name then some x else y? := by
  induction slots with
  | nil => rfl
  | cons s rest ih =>
    have ih : (rest.map fun s => if s.1 = name then (s.1, some x) else s).lookup other = _ := ih
    obtain ⟨key, y?⟩ := s
    rw [setSlot, List.map_cons, List.lookup_cons, List.lookup_cons, ih]
    by_cases h : other = key
    · by_cases hname : key = name <;> simp [h, hname]
    · by_cases hname : key = name
      · subst hname
        simp [h, beq_eq_false_iff_ne.2 h]
      · simp [hname, beq_eq_false_iff_ne.2 h]

theorem lookup_eq_some_iff_mem {slots : List Slot} (h : SlotsSorted slots) {name : String} {x? : Option Value} :
    slots.lookup name = some x? ↔ (name, x?) ∈ slots := by
  induction slots with
  | nil => simp
  | cons s rest ih =>
    obtain ⟨key, y?⟩ := s
    obtain ⟨hfirst, hrest⟩ := List.pairwise_cons.1 h
    rw [List.lookup_cons, List.mem_cons]
    by_cases hname : name = key
    · subst hname
      -- the name does not come again
      have hlater : (name, x?) ∉ rest := fun hmem => String.lt_irrefl name (hfirst _ hmem)
      simp [hlater, eq_comm]
    · simp [beq_eq_false_iff_ne.2 hname, hname, ih hrest]

/-! ### Frames -/

/-- A frame is what it knows of all names. -/
theorem eq_of_lookup {f g : Frame} (h : ∀ name, f.lookup name = g.lookup name) : f = g := by
  have hlookup : ∀ name, f.slots.lookup name = g.slots.lookup name := by
    intro name
    have hname := h name
    unfold lookup at hname
    cases hf : f.slots.lookup name with
    | none =>
      cases hg : g.slots.lookup name with
      | none => rfl
      | some y? => cases y? <;> simp [hf, hg] at hname
    | some x? =>
      cases hg : g.slots.lookup name with
      | none => cases x? <;> simp [hf, hg] at hname
      | some y? => cases x? <;> cases y? <;> simp_all
  have hmem : ∀ s, s ∈ f.slots ↔ s ∈ g.slots := by
    rintro ⟨name, x?⟩
    rw [← lookup_eq_some_iff_mem f.sorted, ← lookup_eq_some_iff_mem g.sorted, hlookup]
  have hne : ∀ {s t : Slot}, s.1 < t.1 → s ≠ t := by
    rintro s _ hlt rfl
    exact String.lt_irrefl _ hlt
  have hperm := (List.perm_ext_iff_of_nodup (f.sorted.imp hne) (g.sorted.imp hne)).2 hmem
  have hslots := hperm.eq_of_pairwise (fun _ _ _ _ h₁ h₂ => absurd h₂ (String.lt_asymm h₁)) f.sorted g.sorted
  obtain ⟨slots, sorted⟩ := f
  obtain ⟨slots', sorted'⟩ := g
  cases hslots
  rfl

theorem lookup_eq_undeclared_iff {f : Frame} {name : String} : f.lookup name = .undeclared ↔ name ∉ f.names := by
  rw [names, ← lookup_eq_none_iff_not_mem, lookup]
  cases f.slots.lookup name with
  | none => simp
  | some value? => cases value? <;> simp

theorem mem_names_of_lookup {f : Frame} {name : String} {x : Value} (h : f.lookup name = .initialized x) :
    name ∈ f.names := by
  apply Decidable.byContradiction
  intro hmem
  rw [lookup_eq_undeclared_iff.2 hmem] at h
  cases h

private theorem declare?_eq_some_iff {f f' : Frame} {name : String} :
    f.declare? name = some f' ↔ name ∉ f.names ∧ f'.slots = insertSlot name f.slots := by
  obtain ⟨slots', hsorted⟩ := f'
  unfold declare?
  split
  case isTrue hmem => simp [hmem]
  case isFalse hmem => simp [hmem, eq_comm]

theorem assign?_eq_some_iff {f f' : Frame} {name : String} {x : Value} :
    f.assign? name x = some f' ↔ name ∈ f.names ∧ f'.slots = setSlot name x f.slots := by
  obtain ⟨slots', hsorted⟩ := f'
  unfold assign?
  split
  case isTrue hmem => simp [hmem, eq_comm]
  case isFalse hmem => simp [hmem]

/-- An update decides what the frame knows of its name, and leaves all other names as they are. -/
theorem lookup_of_update? {f f' : Frame} {name : String} {u : Update} (h : f.update? name u = some f')
    (other : String) : f'.lookup other = if other = name then u.result else f.lookup other := by
  cases u with
  | declare =>
    obtain ⟨hnew, hslots⟩ := declare?_eq_some_iff.1 h
    rw [lookup, hslots, lookup_insertSlot name other hnew]
    by_cases heq : other = name <;> simp [heq, Update.result, lookup]
  | assign x =>
    obtain ⟨hmem, hslots⟩ := assign?_eq_some_iff.1 h
    rw [lookup, hslots, lookup_setSlot]
    by_cases heq : other = name
    · subst heq
      have hdeclared : f.slots.lookup other ≠ none := fun hnone => lookup_eq_none_iff_not_mem.1 hnone hmem
      cases hlookup : f.slots.lookup other with
      | none => exact absurd hlookup hdeclared
      | some y? => simp [Update.result]
    · simp [heq, lookup]

/-- The value that a name has already changes nothing. -/
theorem assign?_self {f : Frame} {name : String} {x : Value} (h : f.lookup name = .initialized x) :
    f.assign? name x = some f := by
  obtain ⟨f', hf'⟩ : ∃ f', f.assign? name x = some f' := ⟨_, if_pos (mem_names_of_lookup h)⟩
  rw [hf', Option.some.injEq]
  apply eq_of_lookup
  intro other
  have hlookup := lookup_of_update? (u := .assign x) hf' other
  by_cases heq : other = name
  · rw [hlookup, if_pos heq, heq, h]
    rfl
  · rw [hlookup, if_neg heq]

/-- A later value takes the place of an earlier one. -/
theorem assign?_assign? {f f' : Frame} {name : String} {x : Value} (h : f.assign? name x = some f') (y : Value) :
    f'.assign? name y = f.assign? name y := by
  obtain ⟨hmem, hslots⟩ := assign?_eq_some_iff.1 h
  have hnames : f'.names = f.names := by
    rw [names, hslots, map_fst_setSlot, names]
  have hset : setSlot name y f'.slots = setSlot name y f.slots := by
    rw [hslots, setSlot, setSlot, setSlot, List.map_map]
    apply List.map_congr_left
    intro s _
    by_cases heq : s.1 = name <;> simp [heq]
  simp only [assign?, hnames, hset]

/-- The names after an update: those of before, and with a declaration the declared one. -/
theorem mem_names_of_update? {f f' : Frame} {name : String} {u : Update} (h : f.update? name u = some f')
    (other : String) : other ∈ f'.names ↔ other ∈ f.names ∨ u = .declare ∧ other = name := by
  cases u with
  | declare =>
    obtain ⟨_, hslots⟩ := declare?_eq_some_iff.1 h
    simp only [names, hslots, List.mem_map, mem_insertSlot]
    constructor
    · rintro ⟨s, rfl | hs, rfl⟩
      · exact Or.inr ⟨trivial, rfl⟩
      · exact Or.inl ⟨s, hs, rfl⟩
    · rintro (⟨s, hs, rfl⟩ | ⟨_, rfl⟩)
      · exact ⟨s, Or.inr hs, rfl⟩
      · exact ⟨_, Or.inl rfl, rfl⟩
  | assign x =>
    obtain ⟨_, hslots⟩ := assign?_eq_some_iff.1 h
    simp [names, hslots, map_fst_setSlot]

theorem lookup_of_declare? {f f' : Frame} {name : String} (h : f.update? name .declare = some f') :
    f.lookup name = .undeclared :=
  lookup_eq_undeclared_iff.2 (declare?_eq_some_iff.1 h).1

/-- The frame `f'` has all names of `f`, and a value for each name that has one in `f`. -/
structure Extends (f f' : Frame) : Prop where
  names : f.names ⊆ f'.names
  initialized : ∀ name x, f.lookup name = .initialized x → ∃ y, f'.lookup name = .initialized y

theorem Extends.refl (f : Frame) : f.Extends f :=
  ⟨fun _ h => h, fun _ x h => ⟨x, h⟩⟩

theorem Extends.trans {f g h : Frame} (hfg : f.Extends g) (hgh : g.Extends h) : f.Extends h := by
  refine ⟨fun _ hname => hgh.names (hfg.names hname), ?_⟩
  intro name x hx
  obtain ⟨y, hy⟩ := hfg.initialized name x hx
  exact hgh.initialized name y hy

/-- An update takes no name away, and no value either. -/
theorem extends_of_update? {f f' : Frame} {name : String} {u : Update} (h : f.update? name u = some f') :
    f.Extends f' := by
  refine ⟨fun other hother => (mem_names_of_update? h other).2 (Or.inl hother), ?_⟩
  intro other x hx
  have hlookup := lookup_of_update? h other
  by_cases heq : other = name
  · subst heq
    rw [if_pos rfl] at hlookup
    cases u with
    | declare =>
      -- a name that is declared now had no value before
      rw [lookup_of_declare? h] at hx
      cases hx
    | assign y => exact ⟨y, hlookup⟩
  · rw [if_neg heq] at hlookup
    exact ⟨x, by rw [hlookup, hx]⟩

end Frame

end IPPcode23
