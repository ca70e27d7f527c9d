/-!
# Reading bytes as text

A byte sequence is read as UTF-8 one byte at a time. Where the bytes are not well formed, the longest start of a
character that they hold is replaced by one U+FFFD, and reading goes on with the byte that broke it off.
-/

namespace IPPcode23.Text.Utf8

/-- The replacement character U+FFFD. -/
def replacement : Char := '\ufffd'

/-- What the bytes read so far leave open. -/
inductive State where
  /-- Between two characters. -/
  | idle
  /-- Inside a character: the bits read so far, the number of bytes still to come after the next one, and the least
  and greatest value that the next byte may have. -/
  | pending (bits : Nat) (more : Nat) (low high : Nat)
  deriving DecidableEq, Repr

/-- The state after the first byte of a character, with the characters that are complete by then. -/
def start (b : UInt8) : List Char × State :=
  let n := b.toNat
  if n < 0x80 then ([Char.ofNat n], .idle)
  else if 0xC2 ≤ n ∧ n ≤ 0xDF then ([], .pending (n - 0xC0) 0 0x80 0xBF)
  else if n = 0xE0 then ([], .pending 0 1 0xA0 0xBF)
  else if n = 0xED then ([], .pending 0xD 1 0x80 0x9F)
  else if 0xE1 ≤ n ∧ n ≤ 0xEF then ([], .pending (n - 0xE0) 1 0x80 0xBF)
  else if n = 0xF0 then ([], .pending 0 2 0x90 0xBF)
  else if 0xF1 ≤ n ∧ n ≤ 0xF3 then ([], .pending (n - 0xF0) 2 0x80 0xBF)
  else if n = 0xF4 then ([], .pending 4 2 0x80 0x8F)
  else ([replacement], .idle)

/-- Reads one byte: the characters that it completes and the state after it. -/
def step : State → UInt8 → List Char × State
  | .idle, b => start b
  | .pending bits more low high, b =>
    if low ≤ b.toNat ∧ b.toNat ≤ high then
      let bits := 64 * bits + (b.toNat - 0x80)
      match more with
      | 0 => ([Char.ofNat bits], .idle)
      | n + 1 => ([], .pending bits n 0x80 0xBF)
    else
      let (cs, s) := start b
      (replacement :: cs, s)

/-- What a character that the end of the bytes breaks off is replaced by. -/
def finish : State → List Char
  | .idle => []
  | .pending .. => [replacement]

/-- The characters of the bytes that follow a state. -/
def decodeFrom : State → List UInt8 → List Char
  | s, [] => finish s
  | s, b :: bs =>
    let (cs, s) := step s b
    cs ++ decodeFrom s bs

/-- The text of a byte sequence, with U+FFFD for what is not well formed. -/
def decode (bytes : List UInt8) : String :=
  String.ofList (decodeFrom .idle bytes)

end IPPcode23.Text.Utf8
