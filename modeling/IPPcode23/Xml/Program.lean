import IPPcode23.LoadError
import IPPcode23.Text.Blank
import IPPcode23.Xml.Document

/-!
# Programs from XML

A `program` element holds an `instruction` element for each instruction, in any order of the document: the `order`
attributes say how they follow each other, and the children `arg1` to `arg3` are the operands.
-/

namespace IPPcode23.Xml

/-- The value of an attribute that has to be there. -/
def required (location : Location) (e : Element) (element name : String) : Except LoadError String :=
  match e.attribute? name with
  | some value => .ok value
  | none => .error (.invalid location (.missingAttribute element name))

/-- The order that a text denotes: an integer from 1 to 2^64 - 1, perhaps with a plus sign and white space around. -/
def order? (text : String) : Option Nat :=
  let digits :=
    match Text.trimChars text.toList with
    | '+' :: ds => ds
    | ds => ds
  (Literal.numeral? 10 digits).filter fun n => 0 < n ∧ n < UInt64.size

/-- The names that arguments have, in order. -/
def argumentNames : List String := ["arg1", "arg2", "arg3"]

/-- Checks that an element is an argument and holds no element. -/
def checkArgument (e : Element) : Except SourceFault Unit :=
  if e.name ∈ argumentNames then
    match e.children with
    | [] => .ok ()
    | child :: _ => .error (.unexpectedElement child.name)
  else .error (.unexpectedElement e.name)

/-- Checks elements in document order. -/
def checkArguments : List Element → Except SourceFault Unit
  | [] => .ok ()
  | e :: es =>
    match checkArgument e with
    | .ok () => checkArguments es
    | .error cause => .error cause

/-- Arguments in the order of their names. -/
def sortArguments (args : List Element) : List Element :=
  argumentNames.flatMap fun name => args.filter (·.name == name)

/-- Whether arguments are numbered from one without gaps or repetitions. -/
def inSequence (args : List Element) : Bool :=
  args.map Element.name == argumentNames.take args.length

/-- The operand that an argument denotes. -/
def operand (e : Element) : Except SourceFault Operand :=
  match e.attribute? "type" with
  | none => .error (.missingAttribute "arg" "type")
  | some kind =>
    match Operand.parse kind (Text.trim e.text) with
    | .ok o => .ok o
    | .error cause => .error (.operand cause)

/-- The operands that arguments denote. -/
def operands : List Element → Except SourceFault (List Operand)
  | [] => .ok []
  | e :: es => do
    let o ← operand e
    let os ← operands es
    return o :: os

/-- The operands of an instruction element. -/
def operandsOf (e : Element) : Except SourceFault (List Operand) := do
  checkArguments e.children
  let args := sortArguments e.children
  if inSequence args then operands args else .error .argumentSequence

/-- An instruction that fits its signature, from the name of its opcode and its element. -/
def instructionOf (word : String) (e : Element) : Except SourceFault Instruction :=
  match Opcode.parse (Text.trim word) with
  | .error cause => .error (.operand cause)
  | .ok opcode => do
    let i : Instruction := ⟨opcode, ← operandsOf e⟩
    match i.checkSignature with
    | .ok () => return i
    | .error cause => .error (.signature cause)

/-- An instruction with its order. -/
structure Entry where
  order : Nat
  instruction : Instruction
  deriving DecidableEq, Repr

/-- Reads a child of the root. What is found wrong once the order and the opcode's name are known is located at that
order, anything before at the document. -/
def entry (e : Element) : Except LoadError Entry := do
  if e.name ≠ "instruction" then
    .error (.invalid .document (.unexpectedElement e.name))
  let text ← required .document e "instruction" "order"
  match order? text with
  | none => .error (.invalid .document (.invalidOrder text))
  | some order =>
    let word ← required .document e "instruction" "opcode"
    match instructionOf word e with
    | .ok i => return ⟨order, i⟩
    | .error cause => .error (.invalid (.instruction order) cause)

/-- Puts an entry at its place among entries in increasing order, unless its order is taken. -/
def insert? (x : Entry) : List Entry → Option (List Entry)
  | [] => some [x]
  | y :: ys =>
    if x.order < y.order then some (x :: y :: ys)
    else if x.order = y.order then none
    else (insert? x ys).map (y :: ·)

/-- Reads children of the root in document order and sorts them by their orders. -/
def entries (sorted : List Entry) : List Element → Except LoadError (List Entry)
  | [] => .ok sorted
  | e :: es => do
    let x ← entry e
    match insert? x sorted with
    | some sorted => entries sorted es
    | none => .error (.invalid (.instruction x.order) .duplicateOrder)

/-- The language that a root has to name, in any ASCII case. -/
def language : String := "IPPcode23"

/-- Reads a program from the root of a document. -/
def programOf (root : Element) : Except LoadError Program := do
  if root.name ≠ "program" then
    .error (.invalid .document (.invalidRoot root.name))
  let found ← required .document root "program" "language"
  if Text.equalFold found language then
    let sorted ← entries [] root.children
    return (sorted.map Entry.instruction).toArray
  else .error (.invalid .document (.invalidLanguage found))

/-- Reads a program from the text of a document. -/
def load (text : String) : Except LoadError Program :=
  match parse? text with
  | none => .error .malformed
  | some root => programOf root

end IPPcode23.Xml
