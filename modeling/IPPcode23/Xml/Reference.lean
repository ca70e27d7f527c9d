import IPPcode23.Literal.Integer
import IPPcode23.Xml.Scan

/-!
# References and line ends

The characters that a text or an attribute value stands for: references are resolved, and characters written as they
are have their line ends normalised. A character that a reference gives is never changed.
-/

namespace IPPcode23.Xml

/-- A character of a text: written as it is, or given by a reference. -/
inductive Piece where
  | literal (c : Char)
  | reference (c : Char)
  deriving DecidableEq, Repr

/-- The character with a number below 2^32, with U+FFFD for a number that no character has. -/
def numbered? (n : Nat) : Option Char :=
  if n < UInt32.size then
    let c := if n.isValidChar then Char.ofNat n else '\ufffd'
    if isXmlChar c then some c else none
  else none

/-- The characters with predefined names. -/
def named? : String → Option Char
  | "quot" => some '"'
  | "amp" => some '&'
  | "apos" => some '\''
  | "lt" => some '<'
  | "gt" => some '>'
  | _ => none

/-- The character that the part of a reference between `&` and `;` denotes. -/
def denoted? : List Char → Option Char
  | '#' :: 'x' :: digits => (Literal.numeral? 16 digits).bind numbered?
  | '#' :: digits => (Literal.numeral? 10 digits).bind numbered?
  | name => named? (String.ofList name)

/-- Cuts a text into pieces. Refuses a reference that denotes nothing. -/
def pieces? (cs : List Char) : Option (List Piece) :=
  match cs with
  | [] => some []
  | '&' :: cs =>
    match h : until? [';'] cs with
    | none => none
    | some (inner, rest) =>
      have : rest.length < cs.length := length_until? (by simp) h
      (denoted? inner).bind fun c => (pieces? rest).map (.reference c :: ·)
  | c :: cs => (pieces? cs).map (.literal c :: ·)
termination_by cs.length

/-- The characters of a text. A carriage return with the line feed after it is a line feed, and so is a carriage return
before another literal character, or at the end unless a reference stands before it. -/
def textChars (afterReference : Bool) : List Piece → List Char
  | [] => []
  | .reference c :: ps => c :: textChars true ps
  | .literal c :: ps =>
    if c = '\r' then
      match ps with
      | [] => [if afterReference then '\r' else '\n']
      | .literal '\n' :: _ => textChars false ps
      | .literal _ :: _ => '\n' :: textChars false ps
      | .reference _ :: _ => '\r' :: textChars false ps
    else c :: textChars false ps

/-- The characters of an attribute value. A tab or line end is a space. -/
def attributeChars : List Piece → List Char
  | [] => []
  | .reference c :: ps => c :: attributeChars ps
  | .literal c :: ps =>
    if c = '\r' ∧ ps.head? = some (.literal '\n') then attributeChars ps
    else (if c = '\t' ∨ c = '\n' ∨ c = '\r' then ' ' else c) :: attributeChars ps

/-- The text that character data stands for. -/
def textOf? (raw : List Char) : Option String :=
  (pieces? raw).map fun ps => String.ofList (textChars false ps)

/-- The text that a CDATA section stands for. -/
def cdataText (raw : List Char) : String :=
  String.ofList (textChars false (raw.map .literal))

/-- The value that an attribute's text stands for. -/
def attributeValue? (raw : List Char) : Option String :=
  (pieces? raw).map fun ps => String.ofList (attributeChars ps)

end IPPcode23.Xml
