import CellModem.FinalResult
import CellModem.Logged
import CellModem.Text.Blank
import CellModem.Text.Lead
import CellModem.Text.Numeral

/-!
# Reading final results

A reply ends with `OK`, with one of a few fixed texts, or with an error that
carries a number. Modems can be told to write such an error in words; then it
counts as an error without further meaning, and never as the number that the
words may begin with.
-/

namespace CellModem

namespace ModemError

def equipmentLead : String := "+CME ERROR: "

def messageServiceLead : String := "+CMS ERROR: "

/-- The number of an error, unless it is written in words. -/
def code? (s : String) : Option UInt32 :=
  (Text.unsigned? 10 32 (Text.trim s)).map .ofNat

/-- The errors that have a text of their own. -/
def ofFixed? (s : String) : Option ModemError :=
  match s with
  | "ERROR" => some .generic
  | "NO CARRIER" => some .noCarrier
  | "BUSY" => some .busy
  | "NO ANSWER" => some .noAnswer
  | "NO DIALTONE" => some .noDialtone
  | _ => none

/-- The error that a line reports. -/
def ofText? (s : String) : Option ModemError :=
  match Text.afterText? equipmentLead s,
    Text.afterText? messageServiceLead s with
  | some code, _ => some ((code? code).elim .generic .equipment)
  | none, some code => some ((code? code).elim .generic .messageService)
  | none, none => ofFixed? s

/-- The words of an error that ought to have a number. -/
def words? (s : String) : Option String :=
  (Text.afterText? equipmentLead s <|>
    Text.afterText? messageServiceLead s).filter fun code => (code? code).isNone

end ModemError

namespace FinalResult

/-- The final result that a line is, if it is one. -/
def ofText? (s : String) : Option FinalResult :=
  if s = "OK" then some .ok else (ModemError.ofText? s).map .error

/-- The final result that a line is, with a notice if its error is
written in words. -/
def read (s : String) : Logged (Option FinalResult) := do
  match ModemError.words? s with
  | some code => Logged.note (.verboseError code)
  | none => pure ()
  return ofText? s

@[simp] theorem value_read (s : String) : (read s).value = ofText? s := by
  unfold read
  split <;> rfl

end FinalResult

end CellModem
