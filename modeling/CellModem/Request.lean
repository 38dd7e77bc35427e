import CellModem.PhoneNumber

/-!
# Requests

What can be asked of the modem. Each request is sent as one command and
answered with one reply.
-/

namespace CellModem

/-- A request to the modem. -/
inductive Request where
  /-- Asks for nothing but a sign of life. -/
  | attention
  | setEcho (on : Bool)
  | dial (number : PhoneNumber)
  | answer
  | hangUp
  | listCalls
  | simStatus
  | enterPin (pin : String)
  | registration
  | queryConfig (name : String)
  /-- The value is sent as it stands: a text value brings its own quotes. -/
  | setConfig (name value : String)
  | reboot
  | powerDown
deriving DecidableEq

end CellModem
