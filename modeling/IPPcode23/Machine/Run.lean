import IPPcode23.Machine.Step

/-!
# Runs

An execution of a program: labels are resolved, the program counter restarts, and instructions are executed until the
program ends, exits or fails. A run is given a number of steps; a run that is over by then does not depend on it.
-/

namespace IPPcode23

/-- How a program ends by itself. -/
inductive Halt where
  | atEnd
  | exited (code : Nat)
  deriving DecidableEq, Repr

/-- The exit code of a program that ends by itself. -/
def Halt.exitCode : Halt → Nat
  | atEnd => 0
  | exited code => code

/-- How far an execution has come. -/
inductive Progress (σ : Type) where
  | running (m : Machine σ)
  | halted (how : Halt) (m : Machine σ)
  | failed (e : RunError) (m : Machine σ)

namespace Machine

variable {σ : Type}

/-- Flushes the output as the program ends. -/
def finish (m : Machine σ) (how : Halt) : Progress σ :=
  if m.output.refusesFlush then .failed ⟨m.current, .channel .flushRefused⟩ m else .halted how m

variable [Input σ]

/-- Executes the next instruction, or ends the program when there is none. -/
def step (p : Program) (m : Machine σ) : Progress σ :=
  match p[m.pc]? with
  | none => m.finish .atEnd
  | some i =>
    match m.enter.perform i with
    | .next m' => .running m'
    | .exit code m' => m'.finish (.exited code)
    | .fail cause m' => .failed ⟨m'.current, cause⟩ m'

/-- Takes at most `n` steps. -/
def run (p : Program) : (n : Nat) → Machine σ → Progress σ
  | 0, m => .running m
  | n + 1, m =>
    match m.step p with
    | .running m' => run p n m'
    | finished => finished

/-- Resolves the labels and restarts the program counter. A label declared twice fails with the machine as it is but
for the label table. -/
def start (p : Program) (m : Machine σ) : Progress σ :=
  match LabelTable.ofProgram p with
  | .ok labels => .running { m with labels, pc := 0 }
  | .error e => .failed e { m with labels := LabelTable.scanned [] 0 p.toList }

/-- Executes a program for at most `n` steps. -/
def executeFor (p : Program) (n : Nat) (m : Machine σ) : Progress σ :=
  match m.start p with
  | .running m' => m'.run p n
  | finished => finished

end Machine

end IPPcode23
