import IPPcode23.Memory
import IPPcode23.Proofs.Except
import IPPcode23.Proofs.Frame

/-!
# Variables in memory

What one access to a variable tells of another one. Declaring a variable and giving it a value both update one slot of
one frame (`assign_eq_ok_iff`, `declare_eq_ok_iff`); `Updates` says so, and everything that an update leaves as it is
follows from it.
-/

namespace IPPcode23.Memory

/-- What a memory knows of a variable, if the variable's frame is there. -/
def slot? (m : Memory) (v : Variable) : Option Lookup :=
  (m.frame? v.frame).map fun f => f.lookup v.name

/-- The value of a constant or of an initialized variable. -/
def value? (m : Memory) : Symb → Option Value
  | .const x => some x
  | .var v =>
    match m.slot? v with
    | some (.initialized x) => some x
    | _ => none

/-- A variable is declared. -/
def HasVariable (m : Memory) (v : Variable) : Prop :=
  ∃ f, m.frame? v.frame = some f ∧ v.name ∈ f.names

/-- The memory `m'` is `m` after an update of a variable. -/
def Updates (m m' : Memory) (v : Variable) (u : Update) : Prop :=
  ∃ f f', m.frame? v.frame = some f ∧ f.update? v.name u = some f' ∧ m.setFrame v.frame f' = m'

/-! ### Access -/

private theorem frame_eq_ok_iff {m : Memory} {tag : FrameTag} {f : Frame} :
    m.frame tag = .ok f ↔ m.frame? tag = some f := by
  unfold frame
  cases m.frame? tag <;> simp

theorem slot?_of_frame {m : Memory} {v : Variable} {f : Frame} (h : m.frame v.frame = .ok f) :
    m.slot? v = some (f.lookup v.name) := by
  rw [slot?, frame_eq_ok_iff.1 h, Option.map_some]

/-- The content of a declared variable is its value, if it has one. -/
theorem value?_of_content {m : Memory} {v : Variable} {x? : Option Value} (h : m.content v = .ok x?) :
    m.value? (.var v) = x? := by
  obtain ⟨f, hf, h⟩ := bind_eq_ok.1 h
  rw [value?, slot?_of_frame hf]
  cases hlookup : f.lookup v.name with
  | undeclared => rw [hlookup] at h; cases h
  | uninitialized => rw [hlookup] at h; cases h; rfl
  | initialized x => rw [hlookup] at h; cases h; rfl

theorem value?_of_read {m : Memory} {v : Variable} {x : Value} (h : m.read v = .ok x) : m.value? (.var v) = some x := by
  obtain ⟨x?, hx, h⟩ := bind_eq_ok.1 h
  rw [value?_of_content hx]
  cases x? with
  | none => cases h
  | some y => cases h; rfl

theorem value?_of_value {m : Memory} {source : Symb} {x : Value} (h : m.value source = .ok x) :
    m.value? source = some x := by
  cases source with
  | const y => cases h; rfl
  | var v => exact value?_of_read h

private theorem slot?_of_read {m : Memory} {v : Variable} {x : Value} (h : m.read v = .ok x) :
    m.slot? v = some (.initialized x) := by
  have hvalue := value?_of_read h
  simp only [value?] at hvalue
  split at hvalue
  case h_1 y hslot => rw [hslot, Option.some.inj hvalue]
  case h_2 => cases hvalue

private theorem read_of_slot? {m : Memory} {v : Variable} {x : Value} (h : m.slot? v = some (.initialized x)) :
    m.read v = .ok x := by
  obtain ⟨f, hf, hlookup⟩ := Option.map_eq_some_iff.1 h
  have hcontent : m.content v = .ok (some x) := bind_eq_ok.2 ⟨f, frame_eq_ok_iff.2 hf, by rw [hlookup]⟩
  exact bind_eq_ok.2 ⟨some x, hcontent, rfl⟩

/-- A variable that can be given a value can be looked up. -/
theorem content_of_assign {m m' : Memory} {v : Variable} {x : Value} (h : m.assign v x = .ok m') :
    ∃ y?, m.content v = .ok y? := by
  obtain ⟨f, hf, h⟩ := bind_eq_ok.1 h
  have hmem : v.name ∈ f.names := by
    unfold Frame.assign? at h
    by_cases hmem : v.name ∈ f.names
    · exact hmem
    · rw [if_neg hmem] at h
      cases h
  have hlookup : f.lookup v.name ≠ .undeclared := fun hnone => Frame.lookup_eq_undeclared_iff.1 hnone hmem
  unfold content
  cases hcontent : f.lookup v.name with
  | undeclared => exact absurd hcontent hlookup
  | uninitialized => exact ⟨none, bind_eq_ok.2 ⟨f, hf, by rw [hcontent]⟩⟩
  | initialized y => exact ⟨some y, bind_eq_ok.2 ⟨f, hf, by rw [hcontent]⟩⟩

theorem assign_eq_ok_iff {m m' : Memory} {v : Variable} {x : Value} :
    m.assign v x = .ok m' ↔ m.Updates m' v (.assign x) := by
  simp only [assign, bind_eq_ok, frame_eq_ok_iff]
  constructor
  · rintro ⟨f, hf, h⟩
    split at h
    case h_1 f' hf' => exact ⟨f, f', hf, hf', Except.ok.inj h⟩
    case h_2 => cases h
  · rintro ⟨f, f', hf, hf', rfl⟩
    have hf' : f.assign? v.name x = some f' := hf'
    exact ⟨f, hf, by rw [hf']⟩

/-- Only a variable that is not declared cannot be given a value. -/
theorem not_hasVariable_of_assign {m : Memory} {v : Variable} {x : Value} {cause : Fault}
    (h : m.assign v x = .error cause) : ¬ m.HasVariable v := by
  rintro ⟨f, hf, hmem⟩
  have hassign : m.assign v x = .ok (m.setFrame v.frame ⟨Frame.setSlot v.name x f.slots, Frame.sorted_setSlot f.sorted⟩) :=
    assign_eq_ok_iff.2 ⟨f, _, hf, Frame.assign?_eq_some_iff.2 ⟨hmem, rfl⟩, rfl⟩
  rw [hassign] at h
  cases h

theorem exists_assign {m : Memory} {v : Variable} (h : m.HasVariable v) (x : Value) : ∃ m', m.assign v x = .ok m' := by
  cases hassign : m.assign v x with
  | ok m' => exact ⟨m', rfl⟩
  | error cause => exact absurd h (not_hasVariable_of_assign hassign)

theorem declare_eq_ok_iff {m m' : Memory} {v : Variable} : m.declare v = .ok m' ↔ m.Updates m' v .declare := by
  simp only [declare, bind_eq_ok, frame_eq_ok_iff]
  constructor
  · rintro ⟨f, hf, h⟩
    split at h
    case h_1 f' hf' => exact ⟨f, f', hf, hf', Except.ok.inj h⟩
    case h_2 => cases h
  · rintro ⟨f, f', hf, hf', rfl⟩
    have hf' : f.declare? v.name = some f' := hf'
    exact ⟨f, hf, by rw [hf']⟩

theorem push_eq_ok_iff {m m' : Memory} :
    m.push = .ok m' ↔ ∃ f, m.temporary = some f ∧ { m with locals := f :: m.locals, temporary := none } = m' := by
  unfold push
  cases m.temporary <;> simp

theorem pop_eq_ok_iff {m m' : Memory} :
    m.pop = .ok m' ↔ ∃ f rest, m.locals = f :: rest ∧ { m with locals := rest, temporary := some f } = m' := by
  unfold pop
  cases m.locals with
  | nil => simp
  | cons f rest =>
    simp only [Except.ok.injEq, List.cons.injEq]
    constructor
    · intro h
      exact ⟨f, rest, ⟨rfl, rfl⟩, h⟩
    · rintro ⟨_, _, ⟨rfl, rfl⟩, h⟩
      exact h

/-! ### Updates -/

/-- A frame that is replaced is the new one, and the frames of the other tags stay. -/
private theorem frame?_setFrame {m : Memory} {tag : FrameTag} {f : Frame} (h : m.frame? tag = some f) (f' : Frame)
    (other : FrameTag) : (m.setFrame tag f').frame? other = if other = tag then some f' else m.frame? other := by
  obtain ⟨global, locals, temporary⟩ := m
  cases tag with
  | global => cases other <;> rfl
  | «local» =>
    obtain ⟨top, rest, rfl⟩ : ∃ top rest, locals = top :: rest := by
      cases locals with
      | nil => cases h
      | cons top rest => exact ⟨top, rest, rfl⟩
    cases other <;> rfl
  | temporary =>
    obtain ⟨t, rfl⟩ : ∃ t, temporary = some t := ⟨f, h⟩
    cases other <;> rfl

namespace Updates

variable {m m' : Memory} {v : Variable} {u : Update}

/-- An update is seen at its own variable and at no other one. -/
theorem slot?_eq (h : m.Updates m' v u) (w : Variable) : m'.slot? w = if w = v then some u.result else m.slot? w := by
  obtain ⟨f, f', hf, hf', rfl⟩ := h
  obtain ⟨tag, name⟩ := v
  obtain ⟨tag', name'⟩ := w
  have hlookup := Frame.lookup_of_update? hf' name'
  simp only [slot?, frame?_setFrame hf f' tag', Variable.mk.injEq] at hf hlookup ⊢
  by_cases htag : tag' = tag
  · subst htag
    simp only [if_true, true_and, Option.map_some, hlookup, hf]
    split <;> rfl
  · simp [htag]

/-- The variables after an update: those of before, and with a declaration the declared one. -/
theorem hasVariable_iff (h : m.Updates m' v u) (w : Variable) :
    m'.HasVariable w ↔ m.HasVariable w ∨ u = .declare ∧ w = v := by
  obtain ⟨f, f', hf, hf', rfl⟩ := h
  obtain ⟨tag, name⟩ := v
  obtain ⟨tag', name'⟩ := w
  have hnames := Frame.mem_names_of_update? hf' name'
  simp only [HasVariable, frame?_setFrame hf f' tag', Variable.mk.injEq] at hf hnames ⊢
  by_cases htag : tag' = tag
  · subst htag
    simp [hf, hnames]
  · simp [htag]

theorem locals_of_ne (h : m.Updates m' v u) (hv : v.frame ≠ .local) : m'.locals = m.locals := by
  obtain ⟨f, f', _, _, rfl⟩ := h
  obtain ⟨tag, name⟩ := v
  cases tag with
  | «local» => exact absurd rfl hv
  | global | temporary => rfl

/-- An update through `LF` changes the innermost local frame. -/
theorem locals_of_eq (h : m.Updates m' v u) (hv : v.frame = .local) :
    ∃ f f' rest, m.locals = f :: rest ∧ f.update? v.name u = some f' ∧ m'.locals = f' :: rest := by
  obtain ⟨f, f', hf, hf', rfl⟩ := h
  rw [hv] at hf ⊢
  obtain ⟨rest, hlocals⟩ := List.head?_eq_some_iff.1 hf
  refine ⟨f, f', rest, hlocals, hf', ?_⟩
  simp [setFrame, hlocals]

theorem tail_locals (h : m.Updates m' v u) : m'.locals.tail = m.locals.tail := by
  by_cases hv : v.frame = .local
  · obtain ⟨f, f', rest, hlocals, _, hlocals'⟩ := h.locals_of_eq hv
    rw [hlocals, hlocals']
    rfl
  · rw [h.locals_of_ne hv]

theorem length_locals (h : m.Updates m' v u) : m'.locals.length = m.locals.length := by
  by_cases hv : v.frame = .local
  · obtain ⟨f, f', rest, hlocals, _, hlocals'⟩ := h.locals_of_eq hv
    rw [hlocals, hlocals']
    rfl
  · rw [h.locals_of_ne hv]

theorem isSome_temporary (h : m.Updates m' v u) : m'.temporary.isSome = m.temporary.isSome := by
  obtain ⟨f, f', _, _, rfl⟩ := h
  obtain ⟨tag, name⟩ := v
  cases tag with
  | temporary => simp [setFrame]
  | global | «local» => rfl

/-- The global frame after an update: itself, or itself after that update. -/
theorem global_eq (h : m.Updates m' v u) : m'.global = m.global ∨ m.global.update? v.name u = some m'.global := by
  obtain ⟨f, f', hf, hf', rfl⟩ := h
  obtain ⟨tag, name⟩ := v
  cases tag with
  | global =>
    right
    cases hf
    exact hf'
  | «local» | temporary => exact Or.inl rfl

end Updates

/-! ### Values that are read back -/

variable {m m' : Memory} {v : Variable} {x y : Value}

/-- A variable tells which value it was given. -/
theorem assign_inj (hx : m.assign v x = .ok m') (hy : m.assign v y = .ok m') : x = y := by
  have hslot := (assign_eq_ok_iff.1 hx).slot?_eq v
  rw [(assign_eq_ok_iff.1 hy).slot?_eq v, if_pos rfl, if_pos rfl] at hslot
  cases hslot
  rfl

theorem read_of_assign (h : m.assign v x = .ok m') : m'.read v = .ok x := by
  apply read_of_slot?
  rw [(assign_eq_ok_iff.1 h).slot?_eq, if_pos rfl]
  rfl

/-- A source other than a variable that is given a value keeps its own. -/
theorem value_of_assign (h : m.assign v x = .ok m') {source : Symb} (hne : source ≠ .var v)
    (hy : m.value source = .ok y) : m'.value source = .ok y := by
  cases source with
  | const z => exact hy
  | var w =>
    have hslot : m'.slot? w = m.slot? w := by
      rw [(assign_eq_ok_iff.1 h).slot?_eq, if_neg fun hw => hne (congrArg Symb.var hw)]
    apply read_of_slot?
    rw [hslot]
    exact slot?_of_read hy

theorem hasVariable_of_read (h : m.read v = .ok x) : m.HasVariable v := by
  obtain ⟨f, hf, hlookup⟩ := Option.map_eq_some_iff.1 (slot?_of_read h)
  exact ⟨f, hf, Frame.mem_names_of_lookup hlookup⟩

private theorem setFrame_self {tag : FrameTag} {f : Frame} (h : m.frame? tag = some f) : m.setFrame tag f = m := by
  obtain ⟨global, locals, temporary⟩ := m
  cases tag with
  | global => cases h; rfl
  | «local» =>
    obtain ⟨rest, rfl⟩ := List.head?_eq_some_iff.1 h
    rfl
  | temporary =>
    obtain rfl : temporary = some f := h
    rfl

private theorem setFrame_setFrame (tag : FrameTag) (f g : Frame) :
    (m.setFrame tag f).setFrame tag g = m.setFrame tag g := by
  obtain ⟨global, locals, temporary⟩ := m
  cases tag with
  | global => rfl
  | «local» => cases locals <;> rfl
  | temporary => cases temporary <;> rfl

/-- The value that a variable has already changes nothing. -/
theorem assign_self (h : m.read v = .ok x) : m.assign v x = .ok m := by
  obtain ⟨f, hf, hlookup⟩ := Option.map_eq_some_iff.1 (slot?_of_read h)
  exact assign_eq_ok_iff.2 ⟨f, f, hf, Frame.assign?_self hlookup, setFrame_self hf⟩

/-- A later value takes the place of an earlier one. -/
theorem assign_assign (h : m.assign v x = .ok m') (y : Value) : m'.assign v y = m.assign v y := by
  obtain ⟨f, f', hf, hf', rfl⟩ := assign_eq_ok_iff.1 h
  have hframe : (m.setFrame v.frame f').frame? v.frame = some f' := by
    rw [frame?_setFrame hf, if_pos rfl]
  simp only [assign, frame_eq_ok_iff.2 hf, frame_eq_ok_iff.2 hframe, bind, Except.bind, Frame.assign?_assign? hf' y,
    setFrame_setFrame]

end IPPcode23.Memory
