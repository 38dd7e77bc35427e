import CellModem.Line
import CellModem.Logged
import CellModem.Urc

/-!
# Recognising unsolicited messages

Each kind of message has a recogniser of its own, and a line is the message of
the first one that knows it. The messages without a parameter are fixed texts,
the others begin with a name.
-/

namespace CellModem.Urc

/-- Recognises a message that is a fixed text. -/
def fixed? (text : String) (urc : Urc) (s : String) : Option Urc :=
  if s = text then some urc else none

def callerIdLead : String := "+CLIP:"

/-- The number in the fields of a caller's identification; an empty one is
a withheld one. -/
def callerNumber? (fields : String) : Option String :=
  (Field.at? 0 fields).filter (· != "")

def callerId? (s : String) : Option Urc :=
  (Text.afterText? callerIdLead s).map fun fields =>
    .callerId ((callerNumber? fields).map .ofText)

def simStatus? (s : String) : Option Urc := (SimStatus.ofText? s).map .simStatus

def registration? (s : String) : Option Urc :=
  (Registration.ofText? s).map .registration

def indication? (s : String) : Option Urc :=
  (Text.afterText? "+QIND: " s).map fun payload =>
    .indication (.ofString payload)

/-- The recognisers, in the order in which they are tried. -/
def recognisers : List (String → Option Urc) :=
  [fixed? "RING" .ring, callerId?, fixed? "NO CARRIER" .callEnded, simStatus?,
    registration?, fixed? "RDY" .ready,
    fixed? "POWERED DOWN" .poweredDown, indication?]

/-- The message that a line is, if it is one. -/
def ofText? (s : String) : Option Urc := recognisers.findSome? (· s)

/-- Whether a line identifies a caller by a longer number than is kept. -/
def isNumberCut (s : String) : Bool :=
  ((Text.afterText? callerIdLead s).bind callerNumber?).any PhoneNumber.isCut

/-- The message that a line is, with a notice if its number is
longer than is kept. -/
def read (s : String) : Logged (Option Urc) := do
  Logged.noteIf (isNumberCut s) .numberCut
  return ofText? s

@[simp] theorem value_read (s : String) : (read s).value = ofText? s := rfl

/-- The message that a line is; a line that is not text is none. -/
def ofLine? (l : Line) : Option Urc := l.text?.bind ofText?

/-- The message that a line is, with a notice if its number is
longer than is kept. -/
def readLine (l : Line) : Logged (Option Urc) :=
  match l.text? with
  | none => pure none
  | some s => read s

@[simp] theorem value_readLine (l : Line) : (readLine l).value = ofLine? l := by
  unfold readLine ofLine?
  split <;> simp [*]

end CellModem.Urc
