import IPPcode23.Literal.Escape
import IPPcode23.Literal.Integer
import IPPcode23.Name
import IPPcode23.Value

/-!
# Operands

What an instruction can be applied to, how an operand is read from its kind and its text, and the kinds that a
signature asks for.
-/

namespace IPPcode23

/-- An operand of an instruction. Names are not restricted to identifiers. -/
inductive Operand where
  | var (v : Variable)
  | const (v : Value)
  | label (name : String)
  | type (t : TypeName)
  deriving DecidableEq, Repr

/-- Why a word of a program cannot be read. Each cause holds the text at fault. -/
inductive OperandError where
  | unknownOpcode (text : String)
  | unknownOperandType (text : String)
  | invalidInt (text : String)
  | invalidBool (text : String)
  | invalidNil (text : String)
  | invalidEscape (text : String)
  | invalidVariable (text : String)
  | invalidLabel (text : String)
  | invalidTypeName (text : String)
  deriving DecidableEq, Repr

/-- The wording of the cause. -/
def OperandError.message : OperandError → String
  | unknownOpcode t => s!"unknown opcode '{t}'"
  | unknownOperandType t => s!"unknown operand type '{t}'"
  | invalidInt t => s!"invalid int literal '{t}'"
  | invalidBool t => s!"invalid bool literal '{t}'"
  | invalidNil t => s!"invalid nil literal '{t}'"
  | invalidEscape t => s!"invalid escape sequence in string literal '{t}'"
  | invalidVariable t => s!"invalid variable '{t}'"
  | invalidLabel t => s!"invalid label '{t}'"
  | invalidTypeName t => s!"invalid type name '{t}'"

/-- Reads a variable, or says that the text is none. -/
def Variable.parse (text : String) : Except OperandError Variable :=
  match Variable.ofText? text with
  | some v => .ok v
  | none => .error (.invalidVariable text)

/-- Reads a type name, or says that the text is none. -/
def TypeName.parse (text : String) : Except OperandError TypeName :=
  match TypeName.ofWord? text with
  | some t => .ok t
  | none => .error (.invalidTypeName text)

/-- Reads the text of a string literal. -/
def Literal.decodeString (text : String) : Except OperandError String :=
  match Literal.decodeString? text with
  | some s => .ok s
  | none => .error (.invalidEscape text)

namespace Operand

/-- Reads an integer literal. -/
def parseInt (text : String) : Except OperandError Operand :=
  match Literal.parseInt? text with
  | some n => .ok (const (.int n))
  | none => .error (.invalidInt text)

/-- Reads `true` or `false`. -/
def parseBool (text : String) : Except OperandError Operand :=
  match text with
  | "true" => .ok (const (.bool true))
  | "false" => .ok (const (.bool false))
  | _ => .error (.invalidBool text)

/-- Reads `nil`. -/
def parseNil (text : String) : Except OperandError Operand :=
  if text = "nil" then .ok (const .nil) else .error (.invalidNil text)

/-- Reads a label's name. -/
def parseLabel (text : String) : Except OperandError Operand :=
  if isIdentifier text then .ok (label text) else .error (.invalidLabel text)

/-- Reads an operand of a given kind: `var`, `int`, `bool`, `string`, `nil`, `label` or `type`. -/
def parse (kind text : String) : Except OperandError Operand :=
  match kind with
  | "var" => var <$> Variable.parse text
  | "int" => parseInt text
  | "bool" => parseBool text
  | "string" => (fun s => const (.string s)) <$> Literal.decodeString text
  | "nil" => parseNil text
  | "label" => parseLabel text
  | "type" => type <$> TypeName.parse text
  | _ => .error (.unknownOperandType kind)

end Operand

/-- A source of a value: a variable or a constant. -/
inductive Symb where
  | var (v : Variable)
  | const (v : Value)
  deriving DecidableEq, Repr

/-- What a position of a signature asks for. -/
inductive OperandKind where
  | var
  | symb
  | label
  | type
  deriving DecidableEq, Repr

namespace OperandKind

/-- The words for a kind in messages. -/
def describe : OperandKind → String
  | var => "variable"
  | symb => "variable or constant"
  | label => "label"
  | type => "type"

/-- What an operand of the right kind provides. -/
@[reducible] def Argument : OperandKind → Type
  | var => Variable
  | symb => Symb
  | label => String
  | type => TypeName

/-- What an operand provides at a position of this kind, if it may stand there. -/
def argument? : (k : OperandKind) → Operand → Option k.Argument
  | var, .var v => some v
  | symb, .var v => some (.var v)
  | symb, .const v => some (.const v)
  | label, .label name => some name
  | type, .type t => some t
  | _, _ => none

/-- Whether an operand may stand at a position of this kind. -/
def accepts (k : OperandKind) (o : Operand) : Bool :=
  (k.argument? o).isSome

end OperandKind

end IPPcode23
