import IPPcode23.Assembly.Program

/-!
# Programs as assembly text

The canonical text of a program: the header, then an instruction a line with single spaces between the words.
-/

namespace IPPcode23

/-- The kind of an operand, as in `string`, and its text in assembly without that kind. -/
def Operand.parts : Operand → String × String
  | var v => ("var", v.text)
  | const (.string s) => ("string", Literal.encodeString s)
  | const .nil => ("nil", "nil")
  | const v => (v.typeName, v.text)
  | label name => ("label", name)
  | type t => ("type", t.word)

namespace Assembly

/-- The word for an operand. Constants name their type. -/
def operandText (o : Operand) : String :=
  match o with
  | .const _ => o.parts.1 ++ "@" ++ o.parts.2
  | _ => o.parts.2

/-- The line for an instruction. -/
def instructionText (i : Instruction) : String :=
  i.opcode.mnemonic ++ String.join (i.operands.map fun o => " " ++ operandText o) ++ "\n"

/-- The text of a program. -/
def disassemble (p : Program) : String :=
  header ++ "\n" ++ String.join (p.toList.map instructionText)

end Assembly

end IPPcode23
