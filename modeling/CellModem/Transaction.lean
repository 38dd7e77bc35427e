import CellModem.FinalResult.Decoder
import CellModem.Sink
import CellModem.Response.Accept
import CellModem.Urc.Decoder

/-!
# Transactions

Nothing in a line says which command it answers. A reply is simply every line
that comes after the command, up to a final result, and unsolicited messages may
stand anywhere in between. A transaction is a command on its way: it tells the
lines apart by their text alone, and gathers those that belong to the reply.
-/

namespace CellModem

/-- What a line turned out to be. -/
inductive Event where
  /-- The command itself, sent back by the modem. -/
  | echo
  /-- A part of the reply. -/
  | intermediate
  /-- The end of the reply, with what it amounts to. -/
  | complete (result : Except ModemError Response)
  | unsolicited (urc : Urc)
  /-- Empty, unreadable or unknown. -/
  | noise

/-- A command that waits for its reply. -/
structure Transaction where
  command : Command
  response : Response
  /-- Whether the final result has been seen. -/
  complete : Bool
deriving DecidableEq

namespace Transaction

/-- Begins to wait for the reply to a request; sending the command is
left to the caller. -/
def start (r : Request) : Logged Transaction := do
  Logged.note (.runStarted r)
  let command ← r.encode
  return ⟨command, r.emptyResponse, false⟩

/-- Begins to wait for the reply to a request and hands the
command to a sink. -/
def issue (r : Request) (sink : Sink) : Logged (Transaction × List UInt8) := do
  let t ← start r
  let sent ← sink.send t.command
  return (t, sent)

/-- What a line is that has nothing to do with the command. -/
def aside (s : String) : Logged Event := do
  match ← Urc.read s with
  | some urc => return .unsolicited urc
  | none => return .noise

/-- How a reply ends that has gathered a response. -/
def conclude (response : Response) : FinalResult → Except ModemError Response
  | .ok => .ok response
  | .error e => .error e

/-- Looks at a line of text while the final result is still to come. -/
def handleOpen (t : Transaction) (l : Line) (s : String) :
    Logged (Transaction × Event) := do
  if s = t.command.text then
    return (t, .echo)
  else
    match ← FinalResult.read s with
    | some result => return (⟨t.command, t.response, true⟩,
        .complete (conclude t.response result))
    | none =>
      match ← t.response.accept l with
      | some response => return (⟨t.command, response, t.complete⟩,
          .intermediate)
      | none => return (t, ← aside s)

/-- Looks at a line. An echo of the command comes first, then a final result,
then a line that the response takes, then an unsolicited message; once complete,
only the last of these. -/
def handle (t : Transaction) (l : Line) : Logged (Transaction × Event) := do
  match l.text? with
  | none =>
    Logged.note (.notText l.bytes)
    return (t, .noise)
  | some s =>
    if s = "" then return (t, .noise)
    else if t.complete then return (t, ← aside s)
    else t.handleOpen l s

/-- Looks at lines one after the other. -/
def handleAll (t : Transaction) : List Line → Logged (Transaction × List Event)
  | [] => return (t, [])
  | l :: ls => do
    let (t, e) ← t.handle l
    let (t, es) ← t.handleAll ls
    return (t, e :: es)

end Transaction

end CellModem
