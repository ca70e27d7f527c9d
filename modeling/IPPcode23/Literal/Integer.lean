/-!
# Integer literals

An optional sign, then decimal digits, or `0x`, `0o` or `0b` and digits of that base. The value has to be a 64-bit
signed integer; any number of leading zeros is allowed.
-/

namespace IPPcode23.Literal

/-- The value of an ASCII digit, letters in either case counting from ten, if it is below the base. -/
def digit? (base : Nat) (c : Char) : Option Nat :=
  let value? :=
    if '0' ≤ c ∧ c ≤ '9' then some (c.toNat - '0'.toNat)
    else if 'a' ≤ c ∧ c ≤ 'z' then some (c.toNat - 'a'.toNat + 10)
    else if 'A' ≤ c ∧ c ≤ 'Z' then some (c.toNat - 'A'.toNat + 10)
    else none
  value?.filter (· < base)

/-- Reads digits on after a number that is already read. -/
def digitsFrom? (base : Nat) (n : Nat) : List Char → Option Nat
  | [] => some n
  | c :: cs => do digitsFrom? base (base * n + (← digit? base c)) cs

/-- Reads one or more digits. -/
def numeral? (base : Nat) : List Char → Option Nat
  | [] => none
  | cs => digitsFrom? base 0 cs

/-- Reads an unsigned literal in the base that its first two characters give. -/
def magnitude? : List Char → Option Nat
  | '0' :: 'x' :: cs | '0' :: 'X' :: cs => numeral? 16 cs
  | '0' :: 'o' :: cs | '0' :: 'O' :: cs => numeral? 8 cs
  | '0' :: 'b' :: cs | '0' :: 'B' :: cs => numeral? 2 cs
  | cs => numeral? 10 cs

/-- The mathematical value of a literal with an optional sign. -/
def signed? : List Char → Option Int
  | '-' :: cs => (magnitude? cs).map fun n => -(n : Int)
  | '+' :: cs => (magnitude? cs).map fun n => (n : Int)
  | cs => (magnitude? cs).map fun n => (n : Int)

/-- An integer as a 64-bit one, if it is in the range. -/
def toInt64? (n : Int) : Option Int64 :=
  if Int64.minValue.toInt ≤ n ∧ n ≤ Int64.maxValue.toInt then some (Int64.ofInt n) else none

/-- Reads an integer literal. -/
def parseInt? (s : String) : Option Int64 :=
  (signed? s.toList).bind toInt64?

end IPPcode23.Literal
