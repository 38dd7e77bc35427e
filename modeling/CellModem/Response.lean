import CellModem.Request
import CellModem.Call
import CellModem.ConfigValue
import CellModem.Registration
import CellModem.SimStatus

/-!
# Responses

What the lines of a reply amount to. Which kind of response a request is
answered with is fixed by the request, so a response starts out empty of its
kind and is filled line by line.
-/

namespace CellModem

/-- What a reply has told so far. -/
inductive Response where
  /-- Nothing but the final result is expected. -/
  | plain
  | calls (list : CallList)
  | config (value : ConfigValue)
  | sim (status : SimStatus)
  | registration (r : Option Registration)
deriving DecidableEq

/-- The response to a request before any line of the reply. -/
def Request.emptyResponse : Request → Response
  | .listCalls => .calls .empty
  | .queryConfig _ => .config .empty
  | .simStatus => .sim .unknown
  | .registration => .registration none
  | .attention | .setEcho _ | .dial _ | .answer | .hangUp | .enterPin _ |
      .setConfig _ _
  | .reboot | .powerDown => .plain

end CellModem
