import IPPcode23.Assembly.Token
import IPPcode23.LoadError

/-!
# Programs from assembly text

A header line, then an instruction a line; lines without words do not count. The first line at fault is reported.
-/

namespace IPPcode23.Assembly

/-- The directive that opens a program. -/
def header : String := ".IPPcode23"

/-- Reads a word as an operand for a position of a signature. -/
def operand (kind : OperandKind) : Token → Except OperandError Operand
  | .qualified text mark body =>
    if (FrameTag.ofMark? mark).isSome then Operand.parse "var" text else Operand.parse mark body
  | .bare text =>
    match kind with
    | .label => Operand.parse "label" text
    | .type => Operand.parse "type" text
    | .var | .symb => .error (.invalidVariable text)
  | .directive text =>
    match kind with
    | .label => .error (.invalidLabel text)
    | .type => .error (.invalidTypeName text)
    | .var | .symb => .error (.invalidVariable text)

/-- Reads words as operands, position by position. -/
def operands : List OperandKind → List Token → Except OperandError (List Operand)
  | k :: ks, t :: ts => do
    let o ← operand k t
    let os ← operands ks ts
    return o :: os
  | _, _ => .ok []

/-- An instruction that fits its signature, or the way in which it does not. -/
def checked (i : Instruction) : Except SourceFault Instruction :=
  match i.checkSignature with
  | .ok () => .ok i
  | .error cause => .error (.signature cause)

/-- Reads the operands of an opcode, if their number is right. -/
def instructionOf (opcode : Opcode) (tokens : List Token) : Except SourceFault Instruction :=
  let expected := opcode.signature.length
  if tokens.length = expected then
    match operands opcode.signature tokens with
    | .ok os => checked ⟨opcode, os⟩
    | .error cause => .error (.operand cause)
  else .error (.signature (.count opcode expected tokens.length))

/-- Reads the words of a line, of which there is at least one, as an instruction. -/
def instruction : Token → List Token → Except SourceFault Instruction
  | .bare word, tokens =>
    match Opcode.parse word with
    | .ok opcode => instructionOf opcode tokens
    | .error cause => .error (.operand cause)
  | token, _ => .error (.unexpectedToken token.text)

/-- The words of a line that has any, with the line's number. -/
structure Statement where
  line : Nat
  head : Token
  tail : List Token
  deriving DecidableEq, Repr

/-- The statements of lines that are numbered from `first` on. -/
def statements (first : Nat) : List String → List Statement
  | [] => []
  | line :: rest =>
    match tokenize line with
    | [] => statements (first + 1) rest
    | head :: tail => ⟨first, head, tail⟩ :: statements (first + 1) rest

/-- Whether a statement is the header, in any ASCII case. -/
def Statement.isHeader : Statement → Bool
  | ⟨_, .directive text, []⟩ => Text.equalFold text header
  | _ => false

/-- Reads statements as instructions. -/
def instructions : List Statement → Except LoadError (List Instruction)
  | [] => .ok []
  | s :: rest =>
    match instruction s.head s.tail with
    | .error cause => .error (.invalid (.line s.line) cause)
    | .ok i => (i :: ·) <$> instructions rest

/-- Reads statements as a program: the header and then instructions. -/
def programOf : List Statement → Except LoadError Program
  | [] => .error (.invalid (.line 1) .missingHeader)
  | s :: rest =>
    if s.isHeader then List.toArray <$> instructions rest
    else .error (.invalid (.line s.line) .missingHeader)

/-- Reads a program from assembly text. -/
def assemble (text : String) : Except LoadError Program :=
  programOf (statements 1 (Text.lines text))

end IPPcode23.Assembly
