import CellModem.Backlog
import CellModem.Command
import CellModem.Line
import CellModem.Urc.Decoder

/-!
# What the tasks share

One line to the modem serves every task. Commands wait in a short queue to be
written, received lines wait in another one for the command that is running, and
unsolicited messages go to a backlog. A flag says which of the two ways a
received line goes: while a command is running, all lines are its reply's until
it says otherwise.
-/

namespace CellModem

structure Link where
  awaiting : Bool
  /-- Those that the transmitter has not taken yet. -/
  commands : List Command
  /-- Lines received for the command that is running. -/
  replies : List Line
  urcs : Backlog Urc 8

namespace Link

def maxCommands : Nat := 4

def maxReplies : Nat := 8

def idle : Link := ⟨false, [], [], .empty⟩

def acceptsCommand (l : Link) : Bool := l.commands.length < maxCommands

def acceptsReply (l : Link) : Bool := l.replies.length < maxReplies

def publish (l : Link) (urc : Urc) : Logged Link := do
  Logged.note (.published urc)
  return { l with urcs := l.urcs.push urc }

/-- Sorts out a line that no command has use for: a message is published,
the rest dropped. -/
def sortOut (l : Link) (line : Line) : Logged Link := do
  match ← Urc.readLine line with
  | some urc => l.publish urc
  | none =>
    Logged.note (.staleLine line.bytes)
    return l

def sortOutAll (l : Link) : List Line → Logged Link
  | [] => return l
  | line :: rest => do
    let l ← l.sortOut line
    l.sortOutAll rest

def clearReplies (l : Link) : Logged Link :=
  { l with replies := [] }.sortOutAll l.replies

end Link

end CellModem
