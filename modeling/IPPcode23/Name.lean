/-!
# Names

Identifiers, the three frames, and variables: a frame and a name in it, written `GF@x`.
-/

namespace IPPcode23

/-- The characters other than letters and digits that an identifier may hold. -/
def isSpecial (c : Char) : Bool :=
  "_-$&%*!?".toList.contains c

/-- The characters that an identifier may begin with: ASCII letters and the special ones. -/
def isInitial (c : Char) : Bool :=
  c.isAlpha || isSpecial c

/-- The characters that an identifier may go on with: ASCII letters, digits and the special ones. -/
def isSubsequent (c : Char) : Bool :=
  c.isAlphanum || isSpecial c

/-- Whether a text may name a variable or a label. -/
def isIdentifier (s : String) : Bool :=
  match s.toList with
  | [] => false
  | c :: cs => isInitial c && cs.all isSubsequent

/-- The frames that a variable can live in: the global one, the innermost local one, the temporary one. -/
inductive FrameTag where
  | global
  | local
  | temporary
  deriving DecidableEq, Repr

namespace FrameTag

/-- The mark of a frame in a variable's text. -/
def mark : FrameTag → String
  | .global => "GF"
  | .local => "LF"
  | .temporary => "TF"

/-- The frame with a given mark. -/
def ofMark? : String → Option FrameTag
  | "GF" => some .global
  | "LF" => some .local
  | "TF" => some .temporary
  | _ => none

theorem ofMark?_mark (t : FrameTag) : ofMark? t.mark = some t := by
  cases t <;> rfl

end FrameTag

/-- A variable: the frame that it lives in and its name there. -/
structure Variable where
  frame : FrameTag
  name : String
  deriving DecidableEq, Repr

/-- What stands before and after the first `@` of a text that has one. -/
def splitAtSign? (s : String) : Option (String × String) :=
  match s.toList.dropWhile (· != '@') with
  | [] => none
  | _ :: body => some (String.ofList (s.toList.takeWhile (· != '@')), String.ofList body)

namespace Variable

/-- The text of a variable: the frame's mark, `@` and the name. -/
def text (v : Variable) : String :=
  v.frame.mark ++ "@" ++ v.name

/-- Reads a variable: a frame's mark, `@` and an identifier. -/
def ofText? (s : String) : Option Variable := do
  let (mark, name) ← splitAtSign? s
  let frame ← FrameTag.ofMark? mark
  if isIdentifier name then some ⟨frame, name⟩ else none

end Variable

end IPPcode23
