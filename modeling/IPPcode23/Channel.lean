import IPPcode23.Fault
import IPPcode23.Text.Line
import IPPcode23.Text.Utf8

/-!
# Channels

Where a machine reads lines from and where it writes bytes to. Any type of states with a read can be an input. The inputs
of the command are lines that are apart already and readers of bytes, which may fail in the middle of a line. A sink may
be limited in size or refuse to be flushed.
-/

namespace IPPcode23

/-- What a read gives: a line, or `none` at the end of the input, or a failure. -/
abbrev Answer := Except ChannelFault (Option String)

/-- The states of an input: a read gives an answer and leaves another state. -/
class Input (σ : Type) where
  read : σ → Answer × σ

/-- What a reader of bytes delivers: a byte, or a failure in its place. -/
inductive Delivery where
  | byte (b : UInt8)
  | failure (cause : ChannelFault)
  deriving DecidableEq, Repr

/-- Takes a line with its ending off what a reader delivers. At a failure before the ending, the bytes that were delivered
of the line are lost. -/
def Delivery.takeLine : List Delivery → Except ChannelFault (Option (List UInt8)) × List Delivery
  | [] => (.ok none, [])
  | .failure cause :: rest => (.error cause, rest)
  | .byte b :: rest =>
    if b = 10 then (.ok (some []), rest)
    else if b = 13 ∧ rest.head? = some (.byte 10) then (.ok (some []), rest.tail)
    else
      match takeLine rest with
      | (.ok line?, rest) => (.ok (some (b :: line?.getD [])), rest)
      | (.error cause, rest) => (.error cause, rest)

/-- A source of lines: lines that are apart already, or what a reader delivers until the input ends. -/
inductive Source where
  | lines (pending : List String)
  | reader (upcoming : List Delivery)
  deriving DecidableEq, Repr

namespace Source

/-- The lines of a text. -/
def ofText (text : String) : Source :=
  lines (Text.lines text)

/-- A reader that delivers bytes and does not fail. -/
def bytes (bs : List UInt8) : Source :=
  reader (bs.map .byte)

/-- Takes the next line off the source. -/
def next : Source → Answer × Source
  | lines [] => (.ok none, lines [])
  | lines (line :: pending) => (.ok (some line), lines pending)
  | reader upcoming =>
    let (line?, rest) := Delivery.takeLine upcoming
    (line?.map (·.map Text.Utf8.decode), reader rest)

end Source

instance : Input Source where
  read := Source.next

/-- An input of which only so many reads are granted, if not all. -/
structure Rationed (σ : Type) where
  input : σ
  grant : Option Nat := none
  deriving DecidableEq, Repr

/-- Reads the input, or refuses to once nothing is granted any more. -/
def Rationed.next {σ : Type} [Input σ] (i : Rationed σ) : Answer × Rationed σ :=
  match i.grant with
  | some 0 => (.error (.input "input refused"), i)
  | g =>
    let (answer, input) := Input.read i.input
    (answer, ⟨input, g.map Nat.pred⟩)

instance {σ : Type} [Input σ] : Input (Rationed σ) where
  read := Rationed.next

/-- A sink: the bytes written so far, how many it can hold if it cannot hold all, and whether it can be flushed. -/
structure Sink where
  written : ByteArray := .empty
  limit : Option Nat := none
  refusesFlush : Bool := false

namespace Sink

/-- Whether the bytes of a text still fit. -/
def fits (s : Sink) (text : String) : Bool :=
  match s.limit with
  | none => true
  | some n => s.written.size + text.toUTF8.size ≤ n

/-- Writes the bytes of a text, as many as fit. -/
def put (s : Sink) (text : String) : Sink :=
  let kept :=
    match s.limit with
    | none => text.toUTF8
    | some n => text.toUTF8.extract 0 (n - s.written.size)
  { s with written := s.written ++ kept }

end Sink

end IPPcode23
