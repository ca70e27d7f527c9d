import IPPcode23.Action
import IPPcode23.Machine.Dump
import IPPcode23.Operation

/-!
# One instruction

What executing an instruction does to a machine. Sources are looked up from left to right, then the result is
computed, then it is stored; the first of these that fails leaves the memory and both stacks as they were.
-/

namespace IPPcode23

/-- What executing an instruction leads to. -/
inductive Outcome (σ : Type) where
  /-- The run goes on. -/
  | next (m : Machine σ)
  /-- The program asks to end with an exit code. -/
  | exit (code : Nat) (m : Machine σ)
  /-- The instruction fails. -/
  | fail (cause : Fault) (m : Machine σ)

namespace Machine

variable {σ : Type}

/-- Goes on with a new machine, or fails with this one as it is. -/
def attempt (m : Machine σ) : Except Fault (Machine σ) → Outcome σ
  | .ok m' => .next m'
  | .error cause => .fail cause m

/-- Writes a text to the output. -/
def writeOutput (m : Machine σ) (text : String) : Outcome σ :=
  let fits := m.output.fits text
  let m' := { m with output := m.output.put text }
  if fits then .next m' else .fail (.channel .sinkFull) m'

/-- Writes a text to the diagnostics. -/
def writeDiagnostics (m : Machine σ) (text : String) : Outcome σ :=
  let fits := m.diagnostics.fits text
  let m' := { m with diagnostics := m.diagnostics.put text }
  if fits then .next m' else .fail (.channel .sinkFull) m'

/-- Continues with the value of a source, or fails with this machine as it is. -/
def withValue (m : Machine σ) (source : Symb) (k : Value → Outcome σ) : Outcome σ :=
  match m.memory.value source with
  | .ok x => k x
  | .error cause => .fail cause m

/-- Reads a line as a type and stores what it gives. Whatever comes of it, the input has been read. -/
def readInto [Input σ] (m : Machine σ) (v : Variable) (t : TypeName) : Outcome σ :=
  let (answer, input) := Input.read m.input
  let m' := { m with input }
  match answer with
  | .error cause => .fail (.channel cause) m'
  | .ok line? => m'.attempt (m'.store v (t.interpret line?))

/-- Pops the data stack into a variable, which has to be there even if the stack is empty. -/
def popInto (m : Machine σ) (v : Variable) : Except Fault (Machine σ) := do
  let _ ← m.memory.content v
  match m.data with
  | [] => .error .emptyDataStack
  | x :: rest => store { m with data := rest } v x

/-- Jumps to a label if the comparison of two sources for equality has the wanted result. The label is looked up in
any case. -/
def jumpIf (m : Machine σ) (wanted : Bool) (label : String) (a b : Symb) : Except Fault (Machine σ) := do
  let n ← m.target label
  let x ← m.memory.value a
  let y ← m.memory.value b
  match x.same? y with
  | none => .error (.typeMismatch (.jumpIf wanted))
  | some result => return if result = wanted then m.goto n else m

/-- Calls the code at a label, to return after the current instruction. -/
def callLabel (m : Machine σ) (label : String) : Except Fault (Machine σ) := do
  let n ← m.target label
  return { m with calls := m.pc :: m.calls, pc := n }

/-- Returns to where the innermost call came from. -/
def returnFromCall (m : Machine σ) : Except Fault (Machine σ) :=
  match m.calls with
  | [] => .error .emptyCallStack
  | n :: rest => .ok { m with calls := rest, pc := n }

/-- Goes on with other frames. -/
def withMemory (m : Machine σ) (memory : Except Fault Memory) : Outcome σ :=
  m.attempt do return { m with memory := ← memory }

/-- Carries an action out. -/
def execute [Input σ] (m : Machine σ) : Action → Outcome σ
  | .createFrame => .next { m with memory := m.memory.create }
  | .pushFrame => m.withMemory m.memory.push
  | .popFrame => m.withMemory m.memory.pop
  | .defVar v => m.withMemory (m.memory.declare v)
  | .call label => m.attempt (m.callLabel label)
  | .ret => m.attempt m.returnFromCall
  | .pushs source => m.attempt do
    let x ← m.memory.value source
    return { m with data := x :: m.data }
  | .pops v => m.attempt (m.popInto v)
  | .unary op v source => m.attempt do
    let x ← m.memory.value source
    m.store v (← op.eval x)
  | .binary op v left right => m.attempt do
    let x ← m.memory.value left
    let y ← m.memory.value right
    m.store v (← op.eval x y)
  | .setChar v index replacement => m.attempt do
    let s ← m.memory.read v
    let i ← m.memory.value index
    let r ← m.memory.value replacement
    m.store v (← s.setChar i r)
  | .typeOf v source => m.attempt do
    let name ← m.memory.typeName source
    m.store v (.string name)
  | .read v t => m.readInto v t
  | .write source => m.withValue source fun x => m.writeOutput x.text
  | .label _ => .next m
  | .jump label => m.attempt do return m.goto (← m.target label)
  | .jumpIf wanted label left right => m.attempt (m.jumpIf wanted label left right)
  | .exit source => m.withValue source fun x =>
    match x.exitCode with
    | .ok code => .exit code m
    | .error cause => .fail cause m
  | .dprint source => m.withValue source fun x => m.writeDiagnostics (x.text ++ "\n")
  | .dump => m.writeDiagnostics m.dump

/-- Carries an instruction out after checking it against its signature. -/
def perform [Input σ] (m : Machine σ) (i : Instruction) : Outcome σ :=
  match i.action with
  | .error cause => .fail (.malformed cause) m
  | .ok a => m.execute a

end Machine

end IPPcode23
