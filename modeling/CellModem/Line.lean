import CellModem.Field
import CellModem.Text.Utf8
import CellModem.Text.Lead
import CellModem.Text.Numeral
import CellModem.Text.Escape

/-!
# Lines

A line is what stood between two ends of line: bytes, which need not be text.
Matching its beginning works on the bytes; everything that yields text does so
only if the text is valid.
-/

namespace CellModem

/-- One received line, without its terminator. -/
structure Line where
  bytes : List UInt8
deriving DecidableEq

namespace Line

/-- The longest line that is kept outside the buffer it was framed in. -/
def maxKept : Nat := 256

def ofText (s : String) : Line := ⟨Text.bytes s⟩

/-- The line as text, if it is valid UTF-8. -/
def text? (l : Line) : Option String := Text.ofBytes? l.bytes

@[simp] theorem text?_ofText (s : String) : (ofText s).text? = some s :=
  Text.ofBytes?_bytes s

def length (l : Line) : Nat := l.bytes.length

def isEmpty (l : Line) : Bool := l.bytes.isEmpty

/-- Whether the line begins with the bytes of `lead`. -/
def startsWith (l : Line) (lead : String) : Bool :=
  (Text.after? (Text.bytes lead) l.bytes).isSome

/-- Whether the line is exactly `s`. -/
def isText (l : Line) (s : String) : Bool := l.bytes == Text.bytes s

/-- The text behind `lead`, if the line begins with it and text
is what follows. -/
def value? (l : Line) (lead : String) : Option String :=
  (Text.after? (Text.bytes lead) l.bytes).bind Text.ofBytes?

/-- Applies `f` to the text behind `lead`, if there is one. -/
def withValue {α : Type} (l : Line) (lead : String) (f : String → α) :
    Option α :=
  (l.value? lead).map f

def field? (l : Line) (index : Nat) : Option String :=
  l.text?.bind (Field.at? index)

/-- The field at a position, within `limit` bytes; empty if there is none. -/
def bounded (l : Line) (limit index : Nat) : BoundedText limit :=
  match l.text? with
  | some s => Field.bounded limit index s
  | none => .empty

/-- The field at a position, read as a number below `2 ^ bits`. -/
def unsigned? (l : Line) (bits index : Nat) : Option Nat :=
  (l.field? index).bind (Text.unsigned? 10 bits)

/-- The field at a position, read as a signed number of `bits` bits. -/
def signed? (l : Line) (bits index : Nat) : Option Int :=
  (l.field? index).bind (Text.signed? 10 bits)

/-- The field at a position, read as a truth value. -/
def flag? (l : Line) (index : Nat) : Option Bool :=
  (l.field? index).bind fun s =>
    if s = "true" then some true else if s = "false" then some false else none

/-- The line as it is kept outside the buffer: no more than its first
`maxKept` bytes. -/
def kept (l : Line) : Line := ⟨l.bytes.take maxKept⟩

/-- The line with everything but printable ASCII escaped. -/
def display (l : Line) : String := Text.escaped l.bytes

/-- The escaped line in double quotes. -/
def inspect (l : Line) : String := "\"" ++ l.display ++ "\""

end Line

end CellModem
