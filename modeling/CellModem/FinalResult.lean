/-!
# Final results

Every reply ends with a final result: success, or one of the ways in which
a command fails. `Failure` adds the ways in which a command can fail
without an answer.
-/

namespace CellModem

/-- How the modem says that a command failed. -/
inductive ModemError where
  | generic
  /-- An error of the equipment or the network, by number. -/
  | equipment (code : UInt32)
  /-- An error of the message service or the network, by number. -/
  | messageService (code : UInt32)
  /-- The connection ended, or could not be made. -/
  | noCarrier
  | busy
  | noAnswer
  | noDialtone
deriving DecidableEq

/-- The end of a reply. -/
inductive FinalResult where
  | ok
  | error (e : ModemError)
deriving DecidableEq

/-- Why a command came to nothing. -/
inductive Failure where
  /-- The line to the modem could not be read or written. -/
  | serial
  /-- The reply did not end in time. -/
  | timeout
  /-- The modem said no. -/
  | modem (e : ModemError)
deriving DecidableEq

end CellModem
