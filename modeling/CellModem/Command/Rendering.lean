import CellModem.Command

/-!
# Commands on the line

A command goes over the line with CR LF behind it, and the two together take no
more than a command may. A command that would leave no space for its end of line
is cut short: without its end the modem would not begin to act on it.
-/

namespace CellModem.Command

/-- The end of line behind a command. -/
def terminator : String := "\r\n"

/-- How much of a command's text can be sent. -/
def maxSent : Nat := limit - terminator.utf8ByteSize

/-- The part of a command that leaves space for its end of line. -/
def sentPart (c : Command) : String :=
  String.ofList (Text.cut maxSent c.text.toList)

theorem size_sentPart_le (c : Command) : c.sentPart.utf8ByteSize ≤ maxSent := by
  rw [sentPart, Text.utf8ByteSize_ofList]
  exact Text.size_cut_le _ _

/-- Whether the end of line costs the command some of its text. -/
def isCutBySending (c : Command) : Bool := maxSent < c.text.utf8ByteSize

/-- The command as it goes over the line. -/
def render (c : Command) : Logged String := do
  Logged.noteIf c.isCutBySending .commandCut
  return c.sentPart ++ terminator

/-- Copies characters as long as there is space for the end of line behind
them, and says whether some were left out. A copy that is refused leaves no
result. -/
def copy? (done : BoundedText limit) :
    List Char → Option (BoundedText limit × Bool)
  | [] => some (done, false)
  | c :: cs =>
    if limit < done.text.utf8ByteSize + c.utf8Size + terminator.utf8ByteSize
      then some (done, true)
    else (done.append? (String.ofList [c])).bind fun done => copy? done cs

/-- The command with its end of line, written by `copy?`, and whether some of
its text was left out. -/
def lineFor? (c : Command) : Option (BoundedText limit × Bool) := do
  let copied ← copy? .empty c.text.toList
  let line ← copied.1.append? terminator
  return (line, copied.2)

@[simp] theorem value_render (c : Command) :
    c.render.value = c.sentPart ++ terminator := rfl

theorem maxSent_eq : maxSent = 254 := rfl

end CellModem.Command
