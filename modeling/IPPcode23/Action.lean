import IPPcode23.Instruction

/-!
# Actions

What an instruction asks for once it fits its signature: an opcode together with exactly the arguments that it takes.
-/

namespace IPPcode23

/-- An opcode with its arguments. -/
inductive Action where
  | createFrame
  | pushFrame
  | popFrame
  | defVar (v : Variable)
  | call (label : String)
  | ret
  | pushs (source : Symb)
  | pops (v : Variable)
  | unary (op : UnaryOp) (v : Variable) (source : Symb)
  | binary (op : BinaryOp) (v : Variable) (left right : Symb)
  | setChar (v : Variable) (index replacement : Symb)
  | typeOf (v : Variable) (source : Symb)
  | read (v : Variable) (t : TypeName)
  | write (source : Symb)
  | label (name : String)
  | jump (label : String)
  | jumpIf (wanted : Bool) (label : String) (left right : Symb)
  | exit (source : Symb)
  | dprint (source : Symb)
  | dump
  deriving DecidableEq, Repr

/-- The action of an opcode on its arguments. -/
def Opcode.action : (op : Opcode) → Arguments op.signature → Action
  | createFrame, () => .createFrame
  | pushFrame, () => .pushFrame
  | popFrame, () => .popFrame
  | defVar, (v, ()) => .defVar v
  | call, (name, ()) => .call name
  | ret, () => .ret
  | pushs, (source, ()) => .pushs source
  | pops, (v, ()) => .pops v
  | unary op, (v, source, ()) => .unary op v source
  | binary op, (v, left, right, ()) => .binary op v left right
  | setChar, (v, index, replacement, ()) => .setChar v index replacement
  | typeOf, (v, source, ()) => .typeOf v source
  | read, (v, t, ()) => .read v t
  | write, (source, ()) => .write source
  | label, (name, ()) => .label name
  | jump, (name, ()) => .jump name
  | jumpIf wanted, (name, left, right, ()) => .jumpIf wanted name left right
  | exit, (source, ()) => .exit source
  | dprint, (source, ()) => .dprint source
  | dump, () => .dump

/-- The action of an instruction, or how it fails to fit its signature. -/
def Instruction.action (i : Instruction) : Except SignatureError Action :=
  i.opcode.action <$> i.arguments

end IPPcode23
