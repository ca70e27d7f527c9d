import IPPcode23.Assembly.Printer
import IPPcode23.Xml.Program

/-!
# Representations of programs

A program is written as XML or as assembly text.
-/

namespace IPPcode23

/-- A representation of programs. -/
inductive Format where
  | xml
  | text
  deriving DecidableEq, Repr

namespace Format

/-- The representation that a word names. -/
def ofWord? : String → Option Format
  | "xml" => some xml
  | "text" => some text
  | _ => none

/-- Reads a program in this representation. -/
def load : Format → String → Except LoadError Program
  | xml, source => Xml.load source
  | text, source => Assembly.assemble source

end Format

end IPPcode23
