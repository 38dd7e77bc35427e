import CellModem.Field
import CellModem.Text.Lead
import CellModem.Text.Numeral

/-!
# Network registration

Where the modem stands with the network, and in which cell. A line that begins
with `+CREG: ` reports it. The reply to a question has one field more than the
message that the modem sends of its own accord: the setting of these messages
comes first. Which of the two a line is shows only in how many fields it has.
-/

namespace CellModem

/-- How the network has answered the modem's wish to register. -/
inductive Registration.Status where
  | notRegistered
  | registeredHome
  | searching
  | registrationDenied
  | unknown
  | registeredRoaming
deriving DecidableEq

/-- The modem's standing with the network. -/
structure Registration where
  status : Registration.Status
  /-- The location area code. -/
  area : Option UInt16
  /-- The cell's identity. -/
  cell : Option UInt32
deriving DecidableEq

namespace Registration

/-- The status that a number stands for; the numbers without a meaning of their
own count as not registered. -/
def Status.ofCode (code : Nat) : Status :=
  match code with
  | 1 => .registeredHome
  | 2 => .searching
  | 3 => .registrationDenied
  | 4 => .unknown
  | 5 => .registeredRoaming
  | _ => .notRegistered

/-- At which position the status stands, from the number of
commas in the line. -/
def statusPosition? (commas : Nat) : Option Nat :=
  match commas with
  | 0 | 2 | 3 => some 0
  | 1 | 4 => some 1
  | _ => none

/-- Reads the fields from the status on. A location that cannot be read
counts as not given. -/
def ofFields? (position : Nat) (fields : String) : Option Registration := do
  let code ← (Field.at? position fields).bind (Text.unsigned? 10 8)
  let area := (Field.at? (position + 1) fields).bind (Text.unsigned? 16 16)
  let cell := (Field.at? (position + 2) fields).bind (Text.unsigned? 16 32)
  return ⟨.ofCode code, area.map UInt16.ofNat, cell.map UInt32.ofNat⟩

/-- The registration that a line reports. -/
def ofText? (s : String) : Option Registration := do
  let fields ← Text.afterText? "+CREG: " s
  let position ← statusPosition? (fields.toList.count ',')
  ofFields? position fields

end Registration

end CellModem
