import CellModem.Text.Cut

/-!
# Configuration values

The modem's extended configuration is a set of named values. What a value means
depends on its name, so it is kept as text.
-/

namespace CellModem

/-- One setting, as the modem reports it. -/
structure ConfigValue where
  name : BoundedText 32
  /-- Everything behind the name, as it came. -/
  values : BoundedText 256
deriving DecidableEq

namespace ConfigValue

def empty : ConfigValue := ⟨.empty, .empty⟩

end ConfigValue

end CellModem
