import IPPcode23.Command.Options
import IPPcode23.Machine.Run

/-!
# Sessions of the command

What the command does with its options: it reads and loads the source, then prints it as assembly text, or opens the
input and runs it. How files are read is left open, so that the same steps describe the command on given files and
carry it out on real ones.
-/

namespace IPPcode23.Command

/-- Why a file cannot be read as text. -/
inductive ReadFault where
  | system (text : String)
  | notUtf8
  deriving DecidableEq, Repr

/-- The wording of the cause. -/
def ReadFault.message : ReadFault → String
  | system text => text
  | notUtf8 => "stream did not contain valid UTF-8"

/-- How the command fails. -/
inductive Failure where
  | usage
  | sourceFile (name : String) (cause : ReadFault)
  | sourceStdin (cause : ReadFault)
  | inputFile (name : String) (cause : ReadFault)
  | load (e : LoadError)
  | run (e : RunError)
  deriving DecidableEq, Repr

namespace Failure

/-- The exit code of a failure. -/
def exitCode : Failure → Nat
  | usage => 10
  | sourceFile _ _ | sourceStdin _ => 11
  | inputFile _ _ => 12
  | load e => e.exitCode
  | run e => e.exitCode

/-- The wording of a failure. -/
def message : Failure → String
  | usage => "the arguments are not acceptable, see --help"
  | sourceFile name cause | inputFile name cause => s!"cannot read '{name}': {cause.message}"
  | sourceStdin cause => s!"cannot read source from stdin: {cause.message}"
  | load e => e.message
  | run e => e.message

end Failure

/-- What the command leaves behind: what it printed, what it wrote to the diagnostics, and how it ended. -/
structure Report where
  output : ByteArray := .empty
  diagnostics : ByteArray := .empty
  ending : Except Failure Nat := .ok 0

namespace Report

/-- The exit code of the command. -/
def exitCode (r : Report) : Nat :=
  match r.ending with
  | .ok code => code
  | .error failure => failure.exitCode

/-- What the command says of a failure after the diagnostics. -/
def complaint (r : Report) : String :=
  match r.ending with
  | .ok _ => ""
  | .error failure => s!"error: {failure.message}\n"

/-- A command that printed a text. -/
def printed (text : String) : Report :=
  { output := text.toUTF8 }

/-- A command that failed before it ran anything. -/
def failed (failure : Failure) : Report :=
  { ending := .error failure }

/-- What an execution that is over leaves behind. -/
def ofProgress? {σ : Type} : Progress σ → Option Report
  | .running _ => none
  | .halted how m => some ⟨m.output.written, m.diagnostics.written, .ok how.exitCode⟩
  | .failed e m => some ⟨m.output.written, m.diagnostics.written, .error (.run e)⟩

end Report

/-- The version that the command prints. -/
def versionText : String := "ippcode 0.1.0\n"

/-- The help that the command prints. -/
def helpText : String :=
  "Interpret IPPcode23 programs\n" ++
  "\n" ++
  "Usage: ippcode [OPTIONS]\n" ++
  "\n" ++
  "Options:\n" ++
  "      --source <FILE>    Program source file (read from standard input when omitted)\n" ++
  "      --input <FILE>     Lines consumed by READ (read from standard input when omitted)\n" ++
  "      --format <FORMAT>  Representation of the program source [default: xml] [possible values: xml, text]\n" ++
  "      --disassemble      Print the loaded program as IPPcode23 text instead of running it\n" ++
  "  -h, --help             Print help (not allowed together with --source or --input)\n" ++
  "  -V, --version          Print version\n"

/-- How files and the standard input are read. -/
structure Host (m : Type → Type) where
  file : String → m (Except ReadFault ByteArray)
  standardInput : m ByteArray

/-- Bytes as text, if they are well-formed UTF-8. -/
def decodeText (bytes : ByteArray) : Except ReadFault String :=
  match String.fromUTF8? bytes with
  | some text => .ok text
  | none => .error .notUtf8

/-- A command that is over, or an execution that can start. -/
inductive Plan where
  | finished (r : Report)
  | ready (p : Program) (m : Machine Source)

section

variable {m : Type → Type} [Monad m]

/-- Reads a file as text. -/
def readText (host : Host m) (name : String) : m (Except ReadFault String) := do
  return (← host.file name).bind decodeText

/-- Reads the source: the file that the options name, or the standard input. -/
def readSource (host : Host m) (o : Options) : m (Except Failure String) := do
  match o.source with
  | some name => return (← readText host name).mapError (.sourceFile name)
  | none => return (decodeText (← host.standardInput)).mapError .sourceStdin

/-- Opens the input: the file that the options name, or the standard input. -/
def openInput (host : Host m) (o : Options) : m (Except Failure Source) := do
  match o.input with
  | some name => return ((← readText host name).map Source.ofText).mapError (.inputFile name)
  | none => return .ok (.bytes (← host.standardInput).toList)

/-- Loads the source that the options name. -/
def loadProgram (host : Host m) (o : Options) : m (Except Failure Program) := do
  return (← readSource host o).bind fun text => ((o.format.getD .xml).load text).mapError .load

/-- Does all that comes before an execution. The input is opened only for a program that is going to run. -/
def prepare (host : Host m) (o : Options) : m Plan := do
  match ← loadProgram host o with
  | .error failure => return .finished (.failed failure)
  | .ok p =>
    if o.disassemble then return .finished (.printed (Assembly.disassemble p))
    match ← openInput host o with
    | .error failure => return .finished (.failed failure)
    | .ok source => return .ready p { input := source }

/-- What the command does with its arguments before an execution. -/
def plan (host : Host m) (arguments : List String) : m Plan := do
  match Request.ofArguments arguments with
  | .version => return .finished (.printed versionText)
  | .help => return .finished (.printed helpText)
  | .refused => return .finished (.failed .usage)
  | .program o => prepare host o

end

/-- What the command leaves behind on given files, if the execution is over after `n` steps. -/
def report? (host : Host Id) (arguments : List String) (n : Nat) : Option Report :=
  match Id.run (plan host arguments) with
  | .finished r => some r
  | .ready p m => Report.ofProgress? (m.executeFor p n)

end IPPcode23.Command
