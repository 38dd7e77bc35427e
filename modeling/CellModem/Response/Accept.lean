import CellModem.Call.Decoder
import CellModem.ConfigValue.Decoder
import CellModem.Response

/-!
# Filling a response

A response takes the lines that are meant for it and leaves the others alone.
A line that is not taken leaves the response as it is: there is no new
response to go on with.
-/

namespace CellModem

/-- Takes a line that reports the SIM's status. -/
def SimStatus.accept (l : Line) : Option SimStatus :=
  l.text?.bind SimStatus.ofText?

/-- Takes a line that reports the registration. -/
def Registration.accept (l : Line) : Option Registration :=
  l.text?.bind Registration.ofText?

/-- The response with a line added to it, if the line is meant for it. -/
def Response.accept (r : Response) (l : Line) : Logged (Option Response) :=
  match r with
  | .plain => pure none
  | .calls list => do return (← list.accept l).map .calls
  | .config _ => do return (← ConfigValue.accept l).map .config
  | .sim _ => pure ((SimStatus.accept l).map .sim)
  | .registration _ => pure ((Registration.accept l).map (.registration ∘ some))

namespace Response

@[simp] theorem value_accept_config (prior : ConfigValue) (s : String) :
    ((config prior).accept (.ofText s)).value =
      (ConfigValue.ofText? s).map .config := by
  simp [accept]

@[simp] theorem value_accept_sim (prior : SimStatus) (s : String) :
    ((sim prior).accept (.ofText s)).value =
      (SimStatus.ofText? s).map .sim := by
  simp [accept, SimStatus.accept]

@[simp] theorem value_accept_registration (prior : Option Registration)
    (s : String) : ((registration prior).accept (.ofText s)).value =
      (Registration.ofText? s).map (.registration ∘ some) := by
  simp [accept, Registration.accept]

end Response

end CellModem
