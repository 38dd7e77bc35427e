import CellModem.Text.Cut

/-!
# Phone numbers

A phone number is kept as the text it was given in, up to fifty bytes. What it
may contain is the network's business and is not looked at.
-/

namespace CellModem

/-- A phone number, as dialled or as reported. -/
structure PhoneNumber where
  content : BoundedText 50
deriving DecidableEq

namespace PhoneNumber

/-- The most bytes that a phone number takes. -/
def limit : Nat := 50

def text (n : PhoneNumber) : String := n.content.text

/-- As much of a text as a phone number holds. -/
def ofText (s : String) : PhoneNumber := ⟨.ofString s⟩

theorem ofText_text (n : PhoneNumber) : ofText n.text = n :=
  congrArg PhoneNumber.mk n.content.ofString_text

end PhoneNumber

end CellModem
