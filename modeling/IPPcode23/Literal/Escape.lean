/-!
# Escapes in string literals

A backslash and three decimal digits stand for the character with that code point; a backslash never stands for
itself. Writing a string escapes what would end a word or begin a comment or an escape.
-/

namespace IPPcode23.Literal

/-- The number that three digits write. -/
def threeDigits? (a b c : Char) : Option Nat :=
  if a.isDigit && b.isDigit && c.isDigit then
    some (100 * (a.toNat - '0'.toNat) + 10 * (b.toNat - '0'.toNat) + (c.toNat - '0'.toNat))
  else none

/-- Replaces each escape by its character. Refuses a backslash that three digits do not follow. -/
def unescape? : List Char → Option (List Char)
  | [] => some []
  | '\\' :: a :: b :: c :: rest => do
    let n ← threeDigits? a b c
    return Char.ofNat n :: (← unescape? rest)
  | '\\' :: _ => none
  | c :: rest => return c :: (← unescape? rest)

/-- Whether a character is written as an escape: white space, a control character, `#` or a backslash. -/
def needsEscape (c : Char) : Bool :=
  c.toNat ≤ 0x20 || c.toNat == 0x7F || c == '#' || c == '\\'

/-- The last decimal digit of a number. -/
def lastDigit (n : Nat) : Char :=
  Char.ofNat ('0'.toNat + n % 10)

/-- The escape of a character with a code point below 1000. -/
def escapeChar (c : Char) : List Char :=
  ['\\', lastDigit (c.toNat / 100), lastDigit (c.toNat / 10), lastDigit c.toNat]

/-- Writes a string with escapes. -/
def escape : List Char → List Char
  | [] => []
  | c :: rest => if needsEscape c then escapeChar c ++ escape rest else c :: escape rest

/-- The string that a literal denotes. -/
def decodeString? (s : String) : Option String :=
  (unescape? s.toList).map String.ofList

/-- The literal of a string. -/
def encodeString (s : String) : String :=
  String.ofList (escape s.toList)

end IPPcode23.Literal
