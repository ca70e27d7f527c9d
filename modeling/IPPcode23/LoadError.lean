import IPPcode23.Instruction

/-!
# Failures to load a program

Why a source is not a program and where that shows, for both representations of programs.
-/

namespace IPPcode23

/-- The place of a fault in a source: the document as a whole, an instruction by its order, or a line. -/
inductive Location where
  | document
  | instruction (order : Nat)
  | line (number : Nat)
  deriving DecidableEq, Repr

/-- The words for a place. -/
def Location.describe : Location → String
  | document => "document"
  | instruction order => s!"instruction {order}"
  | line number => s!"line {number}"

/-- Why a source is not a program. -/
inductive SourceFault where
  | invalidRoot (found : String)
  | invalidLanguage (found : String)
  | unexpectedElement (found : String)
  | missingAttribute (element name : String)
  | invalidOrder (text : String)
  | duplicateOrder
  | argumentSequence
  | missingHeader
  | unexpectedToken (text : String)
  | operand (cause : OperandError)
  | signature (cause : SignatureError)
  deriving DecidableEq, Repr

/-- The wording of the cause. -/
def SourceFault.message : SourceFault → String
  | invalidRoot found => s!"root element must be 'program', found '{found}'"
  | invalidLanguage found => s!"unsupported language '{found}', expected IPPcode23"
  | unexpectedElement found => s!"unexpected element '{found}'"
  | missingAttribute element name => s!"<{element}> is missing attribute '{name}'"
  | invalidOrder text => s!"invalid instruction order '{text}'"
  | duplicateOrder => "duplicate instruction order"
  | argumentSequence => "arguments must be numbered arg1..argN without gaps"
  | missingHeader => "missing .IPPcode23 header"
  | unexpectedToken text => s!"unexpected token '{text}'"
  | operand cause => cause.message
  | signature cause => cause.message

/-- A failure to load a program. -/
inductive LoadError where
  /-- The source is not well-formed XML. -/
  | malformed
  /-- The source is not a program. -/
  | invalid (location : Location) (cause : SourceFault)
  deriving DecidableEq, Repr

namespace LoadError

/-- The exit code of a failure to load. -/
def exitCode : LoadError → Nat
  | malformed => 31
  | invalid _ _ => 32

/-- The wording of a failure to load. -/
def message : LoadError → String
  | malformed => "malformed XML"
  | invalid location cause => s!"{location.describe}: {cause.message}"

end LoadError

end IPPcode23
