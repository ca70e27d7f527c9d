import IPPcode23.Channel
import IPPcode23.Memory

/-!
# Machines

The state that a program runs on, with an input of any kind. Everything but the label table and the program counter lasts from one execution to
the next.
-/

namespace IPPcode23

/-- Where the labels of a program are declared, the last one first. -/
abbrev LabelTable := List (String × Nat)

namespace LabelTable

/-- The labels of instructions that follow `table` from index `n` on, or the first one that is declared again. -/
def scan (table : LabelTable) (n : Nat) : List Instruction → Except RunError LabelTable
  | [] => .ok table
  | i :: rest =>
    match i.declaredLabel? with
    | none => scan table (n + 1) rest
    | some label =>
      if (table.lookup label).isSome then .error ⟨n, .duplicateLabel label⟩
      else scan ((label, n) :: table) (n + 1) rest

/-- The label table of a program. -/
def ofProgram (p : Program) : Except RunError LabelTable :=
  scan [] 0 p.toList

/-- The table that a scan leaves behind, whether or not it comes to the end. A label that is declared again takes the
place of the earlier one, and the scan stops there. -/
def scanned (table : LabelTable) (n : Nat) : List Instruction → LabelTable
  | [] => table
  | i :: rest =>
    match i.declaredLabel? with
    | none => scanned table (n + 1) rest
    | some label =>
      if (table.lookup label).isSome then (label, n) :: table
      else scanned ((label, n) :: table) (n + 1) rest

end LabelTable

/-- A machine whose input has states of type `σ`. -/
structure Machine (σ : Type) where
  /-- The labels of the program. -/
  labels : LabelTable := []
  memory : Memory := Memory.init
  /-- The data stack, its top first. -/
  data : List Value := []
  /-- The indices to return to, the innermost first. -/
  calls : List Nat := []
  /-- The index of the next instruction. -/
  pc : Nat := 0
  /-- The index of the last instruction that was started. -/
  current : Nat := 0
  /-- The number of instructions started. -/
  executed : Nat := 0
  input : σ
  output : Sink := {}
  diagnostics : Sink := {}

namespace Machine

variable {σ : Type}

/-- Starts the next instruction. -/
def enter (m : Machine σ) : Machine σ :=
  { m with current := m.pc, pc := m.pc + 1, executed := m.executed + 1 }

/-- Gives a variable a value. -/
def store (m : Machine σ) (v : Variable) (x : Value) : Except Fault (Machine σ) := do
  return { m with memory := ← m.memory.assign v x }

/-- The index that a label is declared at. -/
def target (m : Machine σ) (label : String) : Except Fault Nat :=
  match m.labels.lookup label with
  | some n => .ok n
  | none => .error (.undefinedLabel label)

/-- Goes on at an index. -/
def goto (m : Machine σ) (n : Nat) : Machine σ :=
  { m with pc := n }

end Machine

end IPPcode23
