import CellModem.Token
import CellModem.Text.Cut

/-!
# Fields by position

A field is a number or a quoted string, and its position is the number of commas
before it. Words take no position of their own, so the name that leads a reply
does not count. A position with neither number nor string in it reads the same
as one that is not there.
-/

namespace CellModem.Field

/-- The first number or quoted string with exactly `index` commas before it. -/
def nth? : Nat → List Token → Option String
  | _, [] => none
  | 0, .comma :: _ => none
  | index + 1, .comma :: ts => nth? index ts
  | 0, .number text :: _ => some text
  | 0, .quoted content :: _ => some content
  | index, _ :: ts => nth? index ts

/-- The field of a text at a position. -/
def at? (index : Nat) (s : String) : Option String :=
  nth? index (Token.ofText s)

/-- The field at a position, as much of it as `limit` bytes hold; empty
if there is none. -/
def bounded (limit index : Nat) (s : String) : BoundedText limit :=
  match at? index s with
  | some value => .ofString value
  | none => .empty

/-- The same, copied one character after the other until one is refused. -/
def copied (limit index : Nat) (s : String) : BoundedText limit :=
  match at? index s with
  | some value => BoundedText.empty.appendEach value.toList
  | none => .empty

end CellModem.Field
