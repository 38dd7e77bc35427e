import CellModem.ConfigValue
import CellModem.Line
import CellModem.Logged

/-!
# Reading a setting

A setting is reported as `+QCFG: "name",value,value`. The name is the first
field; what follows the first comma is the value, whatever it looks like.
-/

namespace CellModem.ConfigValue

/-- How a line that reports a setting begins. -/
def lead : String := "+QCFG: "

/-- What stands behind the first comma. -/
def behindComma (s : String) : String :=
  String.ofList ((s.toList.dropWhile (· != ',')).drop 1)

/-- The name and the values in a line, at full length. -/
def parts? (s : String) : Option (String × String) := do
  let rest ← Text.afterText? lead s
  let name ← Field.at? 0 rest
  return (name, behindComma rest)

/-- The setting that a line reports. -/
def ofText? (s : String) : Option ConfigValue :=
  (parts? s).map fun (name, values) => ⟨.ofString name, .ofString values⟩

/-- The setting that a line reports, with a notice if its values are
longer than is kept. -/
def read (s : String) : Logged (Option ConfigValue) := do
  match parts? s with
  | none => return none
  | some (name, values) =>
    Logged.noteIf (!(BoundedText.empty : BoundedText 256).admits values)
      (.configValuesCut values)
    return some ⟨.ofString name, .ofString values⟩

@[simp] theorem value_read (s : String) : (read s).value = ofText? s := by
  unfold read ofText?
  split <;> simp [*]

/-- Takes a line of a reply, if it reports a setting; the last one
reported counts. -/
def accept (l : Line) : Logged (Option ConfigValue) :=
  match l.text? with
  | none => pure none
  | some s => read s

@[simp] theorem value_accept_ofText (s : String) :
    (accept (.ofText s)).value = ofText? s := by
  rw [accept, Line.text?_ofText, value_read]

end CellModem.ConfigValue
