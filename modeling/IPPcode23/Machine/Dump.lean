import IPPcode23.Machine.Basic

/-!
# The dump of a machine

The text that `BREAK` writes to the diagnostics.
-/

namespace IPPcode23

/-- A value with its type, as in `int@5`. -/
def Value.describe (v : Value) : String :=
  v.typeName ++ "@" ++ v.text

/-- A slot as in `x=int@5`. -/
def Slot.describe (s : Slot) : String :=
  s.1 ++ "=" ++ match s.2 with
    | some v => v.describe
    | none => "<uninitialized>"

/-- A frame's slots in braces. -/
def Frame.describe (f : Frame) : String :=
  "\x7b" ++ ", ".intercalate (f.slots.map Slot.describe) ++ "\x7d"

namespace Machine

variable {σ : Type}

/-- The lines for the local frames, the innermost at depth 0. -/
def describeLocals (frames : List Frame) : List String :=
  frames.zipIdx.map fun (f, depth) => s!"LF[{depth}]: {f.describe}"

/-- The line for the temporary frame. -/
def describeTemporary : Option Frame → String
  | some f => s!"TF: {f.describe}"
  | none => "TF: <undefined>"

/-- The dump: what is executing, the frames from the innermost out, and both stacks, bottom first. -/
def dump (m : Machine σ) : String :=
  let lines :=
    [s!"BREAK at instruction {m.current} ({m.executed} executed)",
      s!"GF: {m.memory.global.describe}"] ++
    describeLocals m.memory.locals ++
    [describeTemporary m.memory.temporary,
      "data stack: [" ++ ", ".intercalate (m.data.reverse.map Value.describe) ++ "]",
      "call stack: [" ++ ", ".intercalate (m.calls.reverse.map Nat.repr) ++ "]"]
  String.join (lines.map (· ++ "\n"))

end Machine

end IPPcode23
