import CellModem.PhoneNumber
import CellModem.SimStatus
import CellModem.Registration

/-!
# Unsolicited messages

What the modem says without having been asked.
-/

namespace CellModem

/-- An unsolicited message. -/
inductive Urc where
  | ring
  /-- Who is calling, unless the number is withheld. -/
  | callerId (number : Option PhoneNumber)
  | callEnded
  | simStatus (status : SimStatus)
  | registration (r : Registration)
  /-- The modem is up. -/
  | ready
  | poweredDown
  /-- A status indication of the vendor's own. -/
  | indication (payload : BoundedText 64)
deriving DecidableEq

end CellModem
