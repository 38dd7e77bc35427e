import CellModem.Call
import CellModem.Line
import CellModem.Logged

/-!
# Reading the call list

Each call is reported in a line of its own,
`+CLCC: 1,0,0,0,0,"+15551234567",129`: index, direction, state, mode, whether it
is part of a conference, and then the number, which may be withheld. A line that
begins like that belongs to the list even if it cannot be read.
-/

namespace CellModem

namespace Call

/-- How a line of the call list begins. -/
def lead : String := "+CLCC:"

def Direction.ofCode? (code : String) : Option Direction :=
  match code with
  | "0" => some .mobileOriginated
  | "1" => some .mobileTerminated
  | _ => none

def State.ofCode? (code : String) : Option State :=
  match code with
  | "0" => some .active
  | "1" => some .held
  | "2" => some .dialing
  | "3" => some .alerting
  | "4" => some .incoming
  | "5" => some .waiting
  | _ => none

/-- The mode that a code stands for; there are more modes than
have a name here. -/
def Mode.ofCode (code : String) : Mode :=
  match code with
  | "0" => .voice
  | "1" => .data
  | "2" => .fax
  | _ => .unknown

/-- The number in the fields of a call; an empty one is a withheld one. -/
def numberField? (fields : String) : Option String :=
  (Field.at? 5 fields).filter (· != "")

/-- The call that the fields describe. -/
def ofFields? (fields : String) : Option Call := do
  let index ← (Field.at? 0 fields).bind (Text.unsigned? 10 8)
  let direction ← (Field.at? 1 fields).bind Direction.ofCode?
  let state ← (Field.at? 2 fields).bind State.ofCode?
  let mode ← Field.at? 3 fields
  let multiparty ← Field.at? 4 fields
  return ⟨.ofNat index, direction, state, .ofCode mode, multiparty == "1",
    (numberField? fields).map .ofText⟩

/-- The call that a line reports. -/
def ofText? (s : String) : Option Call :=
  (Text.afterText? lead s).bind ofFields?

/-- Whether the number in a line is longer than is kept. -/
def isNumberCut (s : String) : Bool :=
  ((Text.afterText? lead s).bind numberField?).any PhoneNumber.isCut

end Call

namespace CallList

/-- Adds a call, as long as there is space for it. -/
def add (list : CallList) (call : Call) : Logged CallList := do
  let full := decide (limit ≤ list.calls.length)
  Logged.noteIf full .callListFull
  return if full then list else ⟨list.calls ++ [call]⟩

/-- Takes a line of a reply, if it is one of the call list. -/
def accept (list : CallList) (l : Line) : Logged (Option CallList) := do
  if l.startsWith Call.lead then
    match l.text?.bind Call.ofText? with
    | some call =>
      Logged.noteIf (l.text?.any Call.isNumberCut) .numberCut
      return some (← list.add call)
    | none =>
      Logged.note (.badCallEntry l.bytes)
      return some list
  else
    return none

end CallList

end CellModem
