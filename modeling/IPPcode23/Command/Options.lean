import IPPcode23.Format

/-!
# Options of the command

Arguments are read from left to right, and the first thing found decides: a request for the version, or an argument
that is not acceptable. Options are written in full, each at most once, and there are no other arguments.
-/

namespace IPPcode23.Command

/-- The options of the command. -/
structure Options where
  source : Option String := none
  input : Option String := none
  format : Option Format := none
  disassemble : Bool := false
  help : Bool := false
  deriving DecidableEq, Repr

/-- What arguments ask for. -/
inductive Request where
  | version
  | help
  | program (options : Options)
  | refused
  deriving DecidableEq, Repr

namespace Options

/-- Sets a flag that is not set yet. -/
def flag? (o : Options) (name : String) : Option Options :=
  match name with
  | "help" => if o.help then none else some { o with help := true }
  | "disassemble" => if o.disassemble then none else some { o with disassemble := true }
  | _ => none

/-- Whether an argument can be the value of the option before it: it is not empty, and it begins with a hyphen only if it is
nothing else. -/
def isValue (text : String) : Bool :=
  text == "-" || text.toList.head?.any (· != '-')

/-- Gives an option that has no value yet a value, which must not be empty. -/
def set? (o : Options) (name value : String) : Option Options :=
  if value.isEmpty then none
  else
    match name with
    | "source" => if o.source.isSome then none else some { o with source := some value }
    | "input" => if o.input.isSome then none else some { o with input := some value }
    | "format" =>
      match o.format, Format.ofWord? value with
      | none, some format => some { o with format := some format }
      | _, _ => none
    | _ => none

/-- Whether an option takes a value. -/
def takesValue (name : String) : Bool :=
  name == "source" || name == "input" || name == "format"

/-- Reads the letters of a group of short flags, and then goes on. -/
def letters (o : Options) (next : Options → Request) : List Char → Request
  | [] => next o
  | 'h' :: cs =>
    match o.flag? "help" with
    | some o => letters o next cs
    | none => .refused
  | 'V' :: _ => .version
  | _ :: _ => .refused

/-- What stands before and after the first equals sign of an option. -/
def splitValue (option : List Char) : String × Option String :=
  match option.dropWhile (· != '=') with
  | [] => (String.ofList option, none)
  | _ :: value => (String.ofList (option.takeWhile (· != '=')), some (String.ofList value))

/-- What complete options ask for: either help or a program, which needs at least one file. -/
def request (o : Options) : Request :=
  let namesFile := o.source.isSome || o.input.isSome
  if o.help then (if namesFile then .refused else .help)
  else if namesFile then .program o
  else .refused

/-- Reads the arguments that follow. -/
def read (o : Options) : List String → Request
  | [] => o.request
  | argument :: rest =>
    match argument.toList with
    | ['-', '-'] => if rest.isEmpty then o.request else .refused
    | '-' :: '-' :: option =>
      match splitValue option with
      | (name, some value) =>
        match o.set? name value with
        | some o => read o rest
        | none => .refused
      | (name, none) =>
        if name = "version" then .version
        else if takesValue name then
          match rest with
          | [] => .refused
          | value :: rest =>
            if isValue value then
              match o.set? name value with
              | some o => read o rest
              | none => .refused
            else .refused
        else
          match o.flag? name with
          | some o => read o rest
          | none => .refused
    | '-' :: c :: cs => o.letters (fun o => read o rest) (c :: cs)
    | _ => .refused

end Options

/-- What the arguments of the command ask for. -/
def Request.ofArguments (arguments : List String) : Request :=
  Options.read {} arguments

end IPPcode23.Command
