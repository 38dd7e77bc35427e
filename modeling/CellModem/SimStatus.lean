import CellModem.Text.Blank
import CellModem.Text.Lead

/-!
# SIM status

What the SIM is waiting for. The modem says it in a line that begins with
`+CPIN: `, both as the reply to a question and of its own accord.
-/

namespace CellModem

/-- What the SIM is waiting for. -/
inductive SimStatus where
  /-- Not reported yet. -/
  | unknown
  /-- No code is asked for. -/
  | ready
  | simPin
  | simPuk
  | simPin2
  | simPuk2
  | phoneSimPin
  | notInserted
deriving DecidableEq

namespace SimStatus

/-- The status that a code stands for. -/
def ofCode? (code : String) : Option SimStatus :=
  match code with
  | "READY" => some .ready
  | "SIM PIN" => some .simPin
  | "SIM PUK" => some .simPuk
  | "SIM PIN2" => some .simPin2
  | "SIM PUK2" => some .simPuk2
  | "PH-SIM PIN" => some .phoneSimPin
  | "NOT INSERTED" => some .notInserted
  | "NOT READY" => some .notInserted
  | _ => none

/-- The status that a line reports; blanks around the code do not count. -/
def ofText? (s : String) : Option SimStatus :=
  (Text.afterText? "+CPIN: " s).bind fun code => ofCode? (Text.trim code)

end SimStatus

end CellModem
