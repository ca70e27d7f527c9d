import IPPcode23.Fault
import IPPcode23.Frame

/-!
# Memory

The global frame, the stack of local frames and the temporary frame, with the variables in them. Every access first
asks for the frame, then for the declaration, then for the value, and fails at the first that is missing.
-/

namespace IPPcode23

/-- The frames of a machine. The innermost local frame comes first. -/
structure Memory where
  global : Frame
  locals : List Frame
  temporary : Option Frame
  deriving DecidableEq, Repr

namespace Memory

/-- The memory of a machine that has not run yet. -/
def init : Memory :=
  ⟨Frame.empty, [], none⟩

/-- The frame that a tag addresses, if there is one. -/
def frame? (m : Memory) : FrameTag → Option Frame
  | .global => some m.global
  | .local => m.locals.head?
  | .temporary => m.temporary

/-- Replaces the frame that a tag addresses, if there is one. -/
def setFrame (m : Memory) (tag : FrameTag) (f : Frame) : Memory :=
  match tag with
  | .global => { m with global := f }
  | .local => { m with locals := m.locals.set 0 f }
  | .temporary => { m with temporary := m.temporary.map fun _ => f }

/-- The frame that a tag addresses. -/
def frame (m : Memory) (tag : FrameTag) : Except Fault Frame :=
  match m.frame? tag with
  | some f => .ok f
  | none => .error (.missingFrame tag)

/-- The content of a declared variable. -/
def content (m : Memory) (v : Variable) : Except Fault (Option Value) := do
  match (← m.frame v.frame).lookup v.name with
  | .undeclared => .error (.undefinedVariable v)
  | .uninitialized => .ok none
  | .initialized x => .ok (some x)

/-- The value of an initialized variable. -/
def read (m : Memory) (v : Variable) : Except Fault Value := do
  match ← m.content v with
  | some x => .ok x
  | none => .error (.missingValue v)

/-- The value of a variable or constant. -/
def value (m : Memory) : Symb → Except Fault Value
  | .var v => m.read v
  | .const x => .ok x

/-- The name of the type of a variable or constant, empty for an uninitialized variable. -/
def typeName (m : Memory) : Symb → Except Fault String
  | .var v => do
    match ← m.content v with
    | some x => .ok x.typeName
    | none => .ok ""
  | .const x => .ok x.typeName

/-- Gives a declared variable a value. -/
def assign (m : Memory) (v : Variable) (x : Value) : Except Fault Memory := do
  match (← m.frame v.frame).assign? v.name x with
  | some f => .ok (m.setFrame v.frame f)
  | none => .error (.undefinedVariable v)

/-- Declares a variable. -/
def declare (m : Memory) (v : Variable) : Except Fault Memory := do
  match (← m.frame v.frame).declare? v.name with
  | some f => .ok (m.setFrame v.frame f)
  | none => .error (.redefinition v)

/-- Makes a new temporary frame in place of the old one. -/
def create (m : Memory) : Memory :=
  { m with temporary := some Frame.empty }

/-- Makes the temporary frame the innermost local one. -/
def push (m : Memory) : Except Fault Memory :=
  match m.temporary with
  | some f => .ok { m with locals := f :: m.locals, temporary := none }
  | none => .error (.missingFrame .temporary)

/-- Makes the innermost local frame the temporary one. -/
def pop (m : Memory) : Except Fault Memory :=
  match m.locals with
  | f :: rest => .ok { m with locals := rest, temporary := some f }
  | [] => .error (.missingFrame .local)

end Memory

end IPPcode23
