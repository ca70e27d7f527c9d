/-!
# Values

The values that variables and the data stack hold, and the types that `READ` can ask for.
-/

namespace IPPcode23

/-- A value: a 64-bit signed integer, a truth value, a text or `nil`. -/
inductive Value where
  | int (n : Int64)
  | bool (b : Bool)
  | string (s : String)
  | nil
  deriving DecidableEq, Repr

namespace Value

/-- The name of a value's type, as `TYPE` stores it. -/
def typeName : Value → String
  | int _ => "int"
  | bool _ => "bool"
  | string _ => "string"
  | nil => "nil"

/-- The text that `WRITE` writes: decimal digits, `true` or `false`, the text itself, and nothing for `nil`. -/
def text : Value → String
  | int n => n.toInt.repr
  | bool b => if b then "true" else "false"
  | string s => s
  | nil => ""

/-- Tells `nil` from all other values. -/
def isNil : Value → Bool
  | nil => true
  | _ => false

end Value

/-- A type that `READ` can ask for. -/
inductive TypeName where
  | int
  | string
  | bool
  deriving DecidableEq, Repr

namespace TypeName

/-- The word for a type. -/
def word : TypeName → String
  | int => "int"
  | string => "string"
  | bool => "bool"

/-- The type that a word names. -/
def ofWord? : String → Option TypeName
  | "int" => some int
  | "string" => some string
  | "bool" => some bool
  | _ => none

theorem ofWord?_word (t : TypeName) : ofWord? t.word = some t := by
  cases t <;> rfl

end TypeName

end IPPcode23
