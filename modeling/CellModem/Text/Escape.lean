/-!
# Bytes and texts made printable

Three written forms for what came off the line: bytes with escapes, texts in
quotes, and bytes as a list of numbers. All of them are plain ASCII for
plain ASCII input.
-/

namespace CellModem.Text

/-- A hexadecimal digit, in lower case. -/
def hexDigit (n : Nat) : Char := Nat.digitChar (n % 16)

/-- One byte: itself if it is printable ASCII, else a backslash and a
letter or two digits. -/
def escapeByte (b : UInt8) : List Char :=
  let n := b.toNat
  if n = 9 then ['\\', 't']
  else if n = 10 then ['\\', 'n']
  else if n = 13 then ['\\', 'r']
  else if n = 34 ∨ n = 39 ∨ n = 92 then ['\\', Char.ofNat n]
  else if 32 ≤ n ∧ n ≤ 126 then [Char.ofNat n]
  else ['\\', 'x', hexDigit (n / 16), hexDigit n]

/-- Bytes with everything but printable ASCII escaped. -/
def escaped (b : List UInt8) : String := String.ofList (b.flatMap escapeByte)

/-- One character within quotes; other control characters are written
by their number. -/
def quoteChar (c : Char) : List Char :=
  if c = '\x00' then ['\\', '0']
  else if c = '\t' then ['\\', 't']
  else if c = '\n' then ['\\', 'n']
  else if c = '\r' then ['\\', 'r']
  else if c = '"' ∨ c = '\\' then ['\\', c]
  else if c.toNat < 32 ∨ c.toNat = 127 then
    "\\u\x7b".toList ++ Nat.toDigits 16 c.toNat ++ "\x7d".toList
  else [c]

def quoted (s : String) : String :=
  String.ofList ('"' :: s.toList.flatMap quoteChar ++ ['"'])

/-- Bytes as a list of decimal numbers. -/
def byteList (b : List UInt8) : String :=
  "[" ++ String.intercalate ", " (b.map (fun x => toString x.toNat)) ++ "]"

end CellModem.Text
