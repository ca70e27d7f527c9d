import IPPcode23.Command.Session

/-!
# The command `ippcode`

Carries a session out on real files and channels.
-/

namespace IPPcode23.Command

/-- The words of the system for an error with a number, which may be given negated. -/
def numbered (words : String) (code : UInt32) : String :=
  s!"{words} (os error {min code (0 - code)})"

/-- The words of the system for a failure to read a file. -/
def systemText : IO.Error → String
  | .noFileOrDirectory _ code _ => numbered "No such file or directory" code
  | .permissionDenied _ code _ => numbered "Permission denied" code
  | .inappropriateType _ code _ =>
    numbered (if min code (0 - code) = 20 then "Not a directory" else "Is a directory") code
  | e => toString e

/-- Reads real files and the real standard input. -/
def realHost : Host IO where
  file name := do
    match ← (IO.FS.readBinFile name).toBaseIO with
    | .ok bytes => return .ok bytes
    | .error e => return .error (.system (systemText e))
  standardInput := do
    (← IO.getStdin).readBinToEnd

/-- Sends what a sink has received since a number of bytes. -/
def forward (stream : IO.FS.Stream) (s : Sink) (sent : Nat) : IO Nat := do
  if sent < s.written.size then
    stream.write (s.written.extract sent s.written.size)
    stream.flush
  return s.written.size

/-- Runs an execution to its end, passing on what it writes from time to time. -/
partial def drive (p : Program) (progress : Progress Source) (out err : Nat) : IO UInt32 := do
  match progress with
  | .running m =>
    let out ← forward (← IO.getStdout) m.output out
    let err ← forward (← IO.getStderr) m.diagnostics err
    drive p (m.run p 100000) out err
  | .halted how m =>
    let _ ← forward (← IO.getStdout) m.output out
    let _ ← forward (← IO.getStderr) m.diagnostics err
    return how.exitCode.toUInt32
  | .failed e m =>
    let _ ← forward (← IO.getStdout) m.output out
    let _ ← forward (← IO.getStderr) m.diagnostics err
    (← IO.getStderr).putStr s!"error: {e.message}\n"
    return e.exitCode.toUInt32

end IPPcode23.Command

open IPPcode23 IPPcode23.Command in
/-- Interprets the program that the arguments name. -/
def main (arguments : List String) : IO UInt32 := do
  match ← plan realHost arguments with
  | .finished r =>
    (← IO.getStdout).write r.output
    (← IO.getStderr).putStr r.complaint
    return r.exitCode.toUInt32
  | .ready p m => drive p (m.start p) 0 0
