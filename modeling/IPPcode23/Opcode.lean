import IPPcode23.Operand
import IPPcode23.Text.Fold

/-!
# Opcodes

The 35 opcodes with their mnemonics and signatures. Opcodes that compute a value from one or two others and store it
form a family each, since they differ only in the function that they apply.
-/

namespace IPPcode23

/-- The opcodes that store a value computed from one source. -/
inductive UnaryOp where
  | move
  | not
  | int2char
  | strlen
  deriving DecidableEq, Repr

/-- The opcodes that store a value computed from two sources. -/
inductive BinaryOp where
  | add
  | sub
  | mul
  | idiv
  | lt
  | gt
  | eq
  | and
  | or
  | stri2int
  | concat
  | getchar
  deriving DecidableEq, Repr

/-- An opcode. -/
inductive Opcode where
  | createFrame
  | pushFrame
  | popFrame
  | defVar
  | call
  | ret
  | pushs
  | pops
  | unary (op : UnaryOp)
  | binary (op : BinaryOp)
  | setChar
  | typeOf
  | read
  | write
  | label
  | jump
  /-- The jump taken when the comparison of two sources for equality has the wanted result. -/
  | jumpIf (wanted : Bool)
  | exit
  | dprint
  | dump
  deriving DecidableEq, Repr

namespace Opcode

/-- The name of an opcode in a program. -/
def mnemonic : Opcode → String
  | unary .move => "MOVE"
  | createFrame => "CREATEFRAME"
  | pushFrame => "PUSHFRAME"
  | popFrame => "POPFRAME"
  | defVar => "DEFVAR"
  | call => "CALL"
  | ret => "RETURN"
  | pushs => "PUSHS"
  | pops => "POPS"
  | binary .add => "ADD"
  | binary .sub => "SUB"
  | binary .mul => "MUL"
  | binary .idiv => "IDIV"
  | binary .lt => "LT"
  | binary .gt => "GT"
  | binary .eq => "EQ"
  | binary .and => "AND"
  | binary .or => "OR"
  | unary .not => "NOT"
  | unary .int2char => "INT2CHAR"
  | binary .stri2int => "STRI2INT"
  | read => "READ"
  | write => "WRITE"
  | binary .concat => "CONCAT"
  | unary .strlen => "STRLEN"
  | binary .getchar => "GETCHAR"
  | setChar => "SETCHAR"
  | typeOf => "TYPE"
  | label => "LABEL"
  | jump => "JUMP"
  | jumpIf true => "JUMPIFEQ"
  | jumpIf false => "JUMPIFNEQ"
  | exit => "EXIT"
  | dprint => "DPRINT"
  | dump => "BREAK"

/-- All opcodes. -/
def all : List Opcode :=
  [unary .move, createFrame, pushFrame, popFrame, defVar, call, ret, pushs, pops,
    binary .add, binary .sub, binary .mul, binary .idiv, binary .lt, binary .gt, binary .eq, binary .and, binary .or,
    unary .not, unary .int2char, binary .stri2int, read, write, binary .concat, unary .strlen, binary .getchar,
    setChar, typeOf, label, jump, jumpIf true, jumpIf false, exit, dprint, dump]

theorem mem_all (op : Opcode) : op ∈ all := by
  cases op with
  | unary op => cases op <;> decide
  | binary op => cases op <;> decide
  | jumpIf wanted => cases wanted <;> decide
  | _ => decide

/-- The opcode that a word names in any ASCII case. -/
def ofMnemonic? (word : String) : Option Opcode :=
  all.find? fun op => Text.equalFold op.mnemonic word

/-- Reads an opcode, or says that the word is none. -/
def parse (word : String) : Except OperandError Opcode :=
  match ofMnemonic? word with
  | some op => .ok op
  | none => .error (.unknownOpcode word)

/-- The kinds of operands that an opcode takes. -/
def signature : Opcode → List OperandKind
  | createFrame | pushFrame | popFrame | ret | dump => []
  | defVar | pops => [.var]
  | call | label | jump => [.label]
  | pushs | write | exit | dprint => [.symb]
  | unary _ | typeOf => [.var, .symb]
  | read => [.var, .type]
  | binary _ | setChar => [.var, .symb, .symb]
  | jumpIf _ => [.label, .symb, .symb]

end Opcode

end IPPcode23
