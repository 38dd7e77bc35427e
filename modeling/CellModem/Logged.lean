import CellModem.Notice
import CellModem.Traced

/-!
# Results with notices

The library's computations report notices beside their result. `Logged`
is what they return.
-/

namespace CellModem

/-- A value, and the notices given on the way to it. -/
abbrev Logged (α : Type) : Type := Traced Notice α

namespace Logged

def note (n : Notice) : Logged Unit := Traced.report n

def noteIf (c : Bool) (n : Notice) : Logged Unit := Traced.reportIf c n

@[simp] theorem value_note (n : Notice) : (note n).value = () := rfl

@[simp] theorem trace_note (n : Notice) : (note n).trace = [n] := rfl

@[simp] theorem value_noteIf (c : Bool) (n : Notice) :
    (noteIf c n).value = () := rfl

@[simp] theorem trace_noteIf (c : Bool) (n : Notice) :
    (noteIf c n).trace = if c then [n] else [] := rfl

end Logged

/-- Whether a text is too long for a phone number. -/
def PhoneNumber.isCut (s : String) : Bool := PhoneNumber.limit < s.utf8ByteSize

/-- As much of a text as a phone number holds, with a notice if that
is not all of it. -/
def PhoneNumber.enter (s : String) : Logged PhoneNumber := do
  Logged.noteIf (PhoneNumber.isCut s) .numberCut
  return .ofText s

@[simp] theorem PhoneNumber.value_enter (s : String) :
    (PhoneNumber.enter s).value = .ofText s := rfl

end CellModem
