import CellModem.Link
import CellModem.Transaction

/-!
# Running a command

A run takes one request from its command to its result. Before it begins, lines
left over from earlier replies are sorted out; then the command waits for its
place in the queue, and the lines that come in are taken one by one until one of
them is the final result. Lines behind that one are sorted out too. A run may
have a deadline: it fails if it is still waiting then.

A run gives in to its deadline only after it has taken everything
that is there for it.
-/

namespace CellModem

inductive Timeout where
  | never
  | after (ms : Nat)
deriving DecidableEq

namespace Timeout

def standard : Timeout := .after 5000

/-- When something that begins at `now` has taken too long, in milliseconds. -/
def deadline (now : Nat) : Timeout → Option Nat
  | .never => none
  | .after ms => some (now + ms)

end Timeout

structure Run where
  request : Request
  transaction : Transaction
  /-- Whether the command has found its place in the queue. -/
  queued : Bool
  deadline : Option Nat

namespace Run

/-- Puts the command into the queue, if it is not there yet and there
is space for it. -/
def enqueue (r : Run) (l : Link) : Run × Link :=
  if !r.queued && l.acceptsCommand then
    ({ r with queued := true },
      { l with commands := l.commands ++ [r.transaction.command] })
  else (r, l)

def start (request : Request) (timeout : Timeout) (now : Nat) (l : Link) :
    Logged (Run × Link) := do
  let l ← l.clearReplies
  let l := { l with awaiting := true }
  let t ← Transaction.start request
  return enqueue ⟨request, t, false, timeout.deadline now⟩ l

def takeLine (t : Transaction) (line : Line) (l : Link) :
    Logged (Transaction × Link × Option (Except ModemError Response)) := do
  let (t, event) ← t.handle line
  match event with
  | .complete result => return (t, l, some result)
  | .unsolicited urc => return (t, ← l.publish urc, none)
  | .noise =>
    Logged.noteIf (!line.isEmpty) (.unexpectedLine line.bytes)
    return (t, l, none)
  | .echo | .intermediate => return (t, l, none)

/-- Takes lines of the reply until one is the final one; the lines behind
it stay queued. -/
def takeLines (t : Transaction) (l : Link) : List Line →
    Logged (Transaction × Link × Option (Except ModemError Response))
  | [] => return (t, { l with replies := [] }, none)
  | line :: rest => do
    let (t, l, result) ← takeLine t line l
    match result with
    | some result => return (t, { l with replies := rest }, some result)
    | none => takeLines t l rest

/-- Ends a run: what is still queued is sorted out, and the result reported. -/
def finish (r : Run) (result : Except Failure Response) (l : Link) :
    Logged Link := do
  let l ← { l with awaiting := false }.clearReplies
  Logged.note (.runCompleted r.request)
  match result with
  | .ok _ => return l
  | .error failure =>
    Logged.note (.runFailed r.request failure)
    return l

def isDue (r : Run) (now : Nat) : Bool := r.deadline.any (· ≤ now)

def canMove (r : Run) (now : Nat) (l : Link) : Bool :=
  (if r.queued then !l.replies.isEmpty else l.acceptsCommand) || r.isDue now

/-- Takes the lines that are there, once the command is queued. -/
def exchange (r : Run) (l : Link) :
    Logged (Run × Link × Option (Except ModemError Response)) := do
  let (r, l) := r.enqueue l
  if r.queued then
    let (t, l, result) ← takeLines r.transaction l l.replies
    return ({ r with transaction := t }, l, result)
  else
    return (r, l, none)

/-- Goes on with a run as far as it gets, and ends it if its result is
known or overdue. -/
def poll (r : Run) (now : Nat) (l : Link) :
    Logged (Run × Link × Option (Except Failure Response)) := do
  let (r, l, result) ← r.exchange l
  match result with
  | some result =>
    let result := result.mapError .modem
    return (r, ← r.finish result l, some result)
  | none =>
    if r.isDue now then
      return (r, ← r.finish (.error .timeout) l, some (.error .timeout))
    else
      return (r, l, none)

end Run

end CellModem
