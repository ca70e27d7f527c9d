import IPPcode23.Fault
import IPPcode23.Literal.Integer
import IPPcode23.Text.Blank

/-!
# Operations on values

The functions that the opcodes apply to values. Integer arithmetic wraps around at 64 bits and division truncates
toward zero; strings are sequences of code points, indexed from zero.
-/

namespace IPPcode23

namespace Value

/-- Compares two values for equality. They have to share a type unless one of them is `nil`. -/
def same? : Value → Value → Option Bool
  | int a, int b => some (a == b)
  | bool a, bool b => some (a == b)
  | string a, string b => some (a == b)
  | nil, nil => some true
  | nil, _ | _, nil => some false
  | _, _ => none

/-- Whether a value is less than another of its type: by size, `false` before `true`, and by the first code point that
differs. Nothing is less or greater than `nil`. -/
def less? : Value → Value → Option Bool
  | int a, int b => some (decide (a < b))
  | bool a, bool b => some (!a && b)
  | string a, string b => some (decide (a < b))
  | _, _ => none

end Value

/-- The position that an index denotes in a string of a given length. -/
def position? (index : Int64) (length : Nat) : Option Nat :=
  if 0 ≤ index.toInt ∧ index.toInt < length then some index.toInt.toNat else none

/-- The character at an index of a string. -/
def charAt (s : String) (index : Int64) : Except Fault Char :=
  match (position? index s.length).bind (s.toList[·]?) with
  | some c => .ok c
  | none => .error (.indexOutOfRange index s.length)

/-- The string with the character at an index replaced by the first one of another string. -/
def replaceAt (s : String) (index : Int64) (replacement : String) : Except Fault String :=
  match position? index s.length, replacement.toList with
  | none, _ => .error (.indexOutOfRange index s.length)
  | some _, [] => .error .emptyReplacement
  | some n, c :: _ => .ok (String.ofList (s.toList.set n c))

/-- The character with a code point. -/
def charOf (code : Int64) : Except Fault Char :=
  if 0 ≤ code.toInt ∧ code.toInt.toNat.isValidChar then .ok (Char.ofNat code.toInt.toNat)
  else .error (.invalidCodePoint code)

/-- The value that an opcode with one source stores. -/
def UnaryOp.eval (op : UnaryOp) (x : Value) : Except Fault Value :=
  match op, x with
  | move, x => .ok x
  | not, .bool b => .ok (.bool (!b))
  | int2char, .int n => (fun c => .string (String.singleton c)) <$> charOf n
  | strlen, .string s => .ok (.int (Int64.ofNat s.length))
  | op, _ => .error (.typeMismatch (.unary op))

/-- A truth value, or a type mismatch where the comparison is not defined. -/
def BinaryOp.verdict (op : BinaryOp) : Option Bool → Except Fault Value
  | some b => .ok (.bool b)
  | none => .error (.typeMismatch (.binary op))

/-- The value that an opcode with two sources stores. -/
def BinaryOp.eval (op : BinaryOp) (x y : Value) : Except Fault Value :=
  match op, x, y with
  | add, .int a, .int b => .ok (.int (a + b))
  | sub, .int a, .int b => .ok (.int (a - b))
  | mul, .int a, .int b => .ok (.int (a * b))
  | idiv, .int a, .int b => if b = 0 then .error .divisionByZero else .ok (.int (a / b))
  | lt, x, y => lt.verdict (x.less? y)
  | gt, x, y => gt.verdict (y.less? x)
  | eq, x, y => eq.verdict (x.same? y)
  | and, .bool a, .bool b => .ok (.bool (a && b))
  | or, .bool a, .bool b => .ok (.bool (a || b))
  | stri2int, .string s, .int i => (fun c => .int (Int64.ofNat c.toNat)) <$> charAt s i
  | concat, .string a, .string b => .ok (.string (a ++ b))
  | getchar, .string s, .int i => (fun c => .string (String.singleton c)) <$> charAt s i
  | op, _, _ => .error (.typeMismatch (.binary op))

/-- The string that `SETCHAR` stores. Its sources are taken in the order of the operands. -/
def Value.setChar (target index replacement : Value) : Except Fault Value :=
  match target, index, replacement with
  | .string s, .int i, .string r => .string <$> replaceAt s i r
  | _, _, _ => .error (.typeMismatch .setChar)

/-- The exit code that a value asks for: an integer from 0 to 49. -/
def Value.exitCode (x : Value) : Except Fault Nat :=
  match x with
  | .int n => if 0 ≤ n.toInt ∧ n.toInt ≤ 49 then .ok n.toInt.toNat else .error (.invalidExitCode n)
  | _ => .error (.typeMismatch .exit)

/-- What `READ` stores for a line of input: a string as it is, a number or truth value if the trimmed line is one, and
`nil` in every other case and at the end of the input. -/
def TypeName.interpret (t : TypeName) (line? : Option String) : Value :=
  match t, line? with
  | _, none => .nil
  | string, some line => .string line
  | int, some line =>
    match Literal.parseInt? (Text.trim line) with
    | some n => .int n
    | none => .nil
  | bool, some line =>
    if Text.equalFold (Text.trim line) "true" then .bool true
    else if Text.equalFold (Text.trim line) "false" then .bool false
    else .nil

end IPPcode23
