import CellModem.PhoneNumber

/-!
# Phone calls

The calls that the modem knows of, as it lists them.
-/

namespace CellModem

/-- Which side started a call. -/
inductive Call.Direction where
  | mobileOriginated
  | mobileTerminated
deriving DecidableEq

/-- How far a call has got. -/
inductive Call.State where
  | active
  | held
  | dialing
  | alerting
  | incoming
  | waiting
deriving DecidableEq

/-- What a call carries. -/
inductive Call.Mode where
  | voice
  | data
  | fax
  | unknown
deriving DecidableEq

/-- One call of the list. -/
structure Call where
  index : UInt8
  direction : Call.Direction
  state : Call.State
  mode : Call.Mode
  multiparty : Bool
  /-- The other party's number, unless it is withheld. -/
  number : Option PhoneNumber
deriving DecidableEq

/-- The calls in the order in which they were listed. -/
structure CallList where
  calls : List Call
deriving DecidableEq

namespace CallList

/-- The most calls that a modem keeps track of. -/
def limit : Nat := 7

def empty : CallList := ⟨[]⟩

end CallList

end CellModem
