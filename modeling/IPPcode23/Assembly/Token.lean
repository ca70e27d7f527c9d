import IPPcode23.Name
import IPPcode23.Text.Line

/-!
# Words of a line

A line of an assembly text is cut into words at ASCII white space, after its comment has been dropped. A word that
begins with a dot is a directive, one that holds `@` is qualified by what stands before it, any other is bare.
-/

namespace IPPcode23.Assembly

/-- A word of a line. -/
inductive Token where
  | directive (text : String)
  | qualified (text mark body : String)
  | bare (text : String)
  deriving DecidableEq, Repr

namespace Token

/-- The word itself. -/
def text : Token → String
  | directive t => t
  | qualified t _ _ => t
  | bare t => t

/-- The kind of a word. -/
def ofWord (word : String) : Token :=
  if word.toList.head? = some '.' then directive word
  else
    match splitAtSign? word with
    | some (mark, body) => qualified word mark body
    | none => bare word

end Token

/-- The characters between words: space, tab, line feed, form feed and carriage return. -/
def isSeparator (c : Char) : Bool :=
  c == ' ' || c == '\t' || c == '\n' || c == '\x0c' || c == '\r'

/-- The words of a line. -/
def words : List Char → List (List Char)
  | [] => []
  | c :: cs =>
    if isSeparator c then words cs
    else if cs.head?.all isSeparator then [c] :: words cs
    else Text.consFirst c (words cs)

/-- A line without its comment. -/
def uncomment (line : List Char) : List Char :=
  line.takeWhile (· != '#')

/-- The words of a line before its comment. -/
def tokenize (line : String) : List Token :=
  (words (uncomment line.toList)).map fun w => Token.ofWord (String.ofList w)

end IPPcode23.Assembly
