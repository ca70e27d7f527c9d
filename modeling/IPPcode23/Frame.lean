import IPPcode23.Value

/-!
# Frames

A frame holds the variables declared in it, each with its value once it has one. The slots stand in the order of
their names, so that equal contents make equal frames.
-/

namespace IPPcode23

/-- The slot of a variable: its name, and its value unless it is uninitialized. -/
abbrev Slot := String × Option Value

/-- Slots in strictly increasing order of their names. -/
def SlotsSorted (slots : List Slot) : Prop :=
  slots.Pairwise fun s t => s.1 < t.1

/-- A frame: slots, sorted by name, each name at most once. -/
structure Frame where
  slots : List Slot
  sorted : SlotsSorted slots
  deriving DecidableEq, Repr

/-- What a frame knows of a name. -/
inductive Lookup where
  | undeclared
  | uninitialized
  | initialized (v : Value)
  deriving DecidableEq, Repr

namespace Frame

/-- The frame without variables. -/
def empty : Frame :=
  ⟨[], .nil⟩

/-- The declared names, in increasing order. -/
def names (f : Frame) : List String :=
  f.slots.map Prod.fst

/-- The number of declared names. -/
def size (f : Frame) : Nat :=
  f.slots.length

/-- Whether no name is declared. -/
def isEmpty (f : Frame) : Bool :=
  f.slots.isEmpty

/-- Looks a name up. -/
def lookup (f : Frame) (name : String) : Lookup :=
  match f.slots.lookup name with
  | none => .undeclared
  | some none => .uninitialized
  | some (some v) => .initialized v

/-- Puts an uninitialized slot at its place among sorted ones. -/
def insertSlot (name : String) : List Slot → List Slot
  | [] => [(name, none)]
  | s :: rest => if name < s.1 then (name, none) :: s :: rest else s :: insertSlot name rest

/-- Gives the slot of a name a value. -/
def setSlot (name : String) (v : Value) (slots : List Slot) : List Slot :=
  slots.map fun s => if s.1 = name then (s.1, some v) else s

theorem map_fst_setSlot (name : String) (v : Value) (slots : List Slot) :
    (setSlot name v slots).map Prod.fst = slots.map Prod.fst := by
  unfold setSlot
  rw [List.map_map]
  apply List.map_congr_left
  intro s _
  by_cases h : s.1 = name <;> simp [h]

theorem mem_insertSlot {name : String} {s : Slot} {slots : List Slot} :
    s ∈ insertSlot name slots ↔ s = (name, none) ∨ s ∈ slots := by
  induction slots with
  | nil => simp [insertSlot]
  | cons t rest ih =>
    unfold insertSlot
    split
    · simp
    · simp only [List.mem_cons, ih]
      exact or_left_comm

private theorem lt_of_not_lt_of_ne {s t : String} (h : ¬ s < t) (hne : t ≠ s) : t < s := by
  apply String.not_le.1
  intro hle
  exact hne (String.le_antisymm (String.not_lt.1 h) hle)

/-- A new name keeps the slots sorted. -/
private theorem sorted_insertSlot {name : String} {slots : List Slot} (h : SlotsSorted slots)
    (hnew : name ∉ slots.map Prod.fst) : SlotsSorted (insertSlot name slots) := by
  unfold SlotsSorted at h ⊢
  induction slots with
  | nil => simp [insertSlot]
  | cons t rest ih =>
    rw [List.pairwise_cons] at h
    simp only [List.map_cons, List.mem_cons, not_or] at hnew
    unfold insertSlot
    split
    case isTrue hlt =>
      rw [List.pairwise_cons, List.pairwise_cons]
      refine ⟨?_, h.1, h.2⟩
      intro s hs
      simp only [List.mem_cons] at hs
      rcases hs with rfl | hs
      · exact hlt
      · exact String.lt_trans hlt (h.1 s hs)
    case isFalse hlt =>
      rw [List.pairwise_cons]
      refine ⟨?_, ih h.2 hnew.2⟩
      intro s hs
      rw [mem_insertSlot] at hs
      rcases hs with rfl | hs
      · exact lt_of_not_lt_of_ne hlt (Ne.symm hnew.1)
      · exact h.1 s hs

/-- A new value keeps the slots sorted. -/
theorem sorted_setSlot {name : String} {v : Value} {slots : List Slot} (h : SlotsSorted slots) :
    SlotsSorted (setSlot name v slots) := by
  unfold SlotsSorted at h ⊢
  rw [← List.pairwise_map (f := Prod.fst) (R := (· < ·))] at h ⊢
  rw [map_fst_setSlot]
  exact h

/-- Declares a name that is not declared yet. -/
def declare? (f : Frame) (name : String) : Option Frame :=
  if h : name ∈ f.names then none
  else some ⟨insertSlot name f.slots, sorted_insertSlot f.sorted h⟩

/-- Gives a declared name a value. -/
def assign? (f : Frame) (name : String) (v : Value) : Option Frame :=
  if name ∈ f.names then some ⟨setSlot name v f.slots, sorted_setSlot f.sorted⟩ else none

end Frame

end IPPcode23
