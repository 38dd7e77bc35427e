import CellModem.Backlog
import CellModem.Run

/-!
# Jobs

A job is what a task does with the modem. Most jobs run a single request.
Bringing the modem up takes several: it ignores commands for some time after
power on, so it is probed until it answers, and only then its echo is switched
off. A session runs any requests in a row, whatever becomes of each. All of
these have the line to themselves from beginning to end; waiting for unsolicited
messages needs no such thing.

A plan is what is left of a job that has the line, and says at each point what
comes next. It keeps the timeout that applies. A request may be run with another
one: that one takes its place, and when the request has come to a result the
first is put back.
-/

namespace CellModem

/-- One request of a session; its own timeout, if it has one,
applies to it alone. -/
structure SessionEntry where
  request : Logged Request
  timeout : Option Timeout

/-- What a task does with the modem. A request is entered when its turn comes,
and what is to be noticed about it is noticed then. -/
inductive Job where
  | bringUp
  | single (request : Logged Request)
  | session (timeout : Timeout) (entries : List SessionEntry)
  /-- Waits for an unsolicited message. -/
  | nextUrc

namespace Job

def listCalls : Job := .single (pure .listCalls)

def answer : Job := .single (pure .answer)

def hangUp : Job := .single (pure .hangUp)

def dial (number : String) : Job := .single (.dial <$> PhoneNumber.enter number)

def simStatus : Job := .single (pure .simStatus)

def enterPin (pin : String) : Job := .single (pure (.enterPin pin))

def registration : Job := .single (pure .registration)

def queryConfig (name : String) : Job := .single (pure (.queryConfig name))

def setConfig (name value : String) : Job :=
  .single (pure (.setConfig name value))

def reboot : Job := .single (pure .reboot)

def powerDown : Job := .single (pure .powerDown)

end Job

/-- What a job came to. -/
inductive Outcome where
  | broughtUp (result : Except Failure Unit)
  | single (result : Except Failure Response)
  /-- The results in the order of the requests. -/
  | session (results : List (Except Failure Response))
  | heard (receipt : Receipt Urc)

/-- The timeout that applies to requests, and the one whose place it has taken,
if it is there for a single request only. -/
structure Guard where
  timeout : Timeout
  aside : Option Timeout

namespace Guard

/-- A timeout for all requests. -/
def of (timeout : Timeout) : Guard := ⟨timeout, none⟩

/-- Puts another timeout in the place of the one that applies. -/
def swap (g : Guard) (timeout : Timeout) : Guard := ⟨timeout, some g.timeout⟩

/-- The guard for a request that may have a timeout of its own. -/
def during (g : Guard) (own : Option Timeout) : Guard := own.elim g g.swap

/-- Puts back the timeout whose place was taken. -/
def restore (g : Guard) : Guard := ⟨g.aside.getD g.timeout, none⟩

@[simp] theorem timeout_during (timeout : Timeout) (own : Option Timeout) :
    ((of timeout).during own).timeout = own.getD timeout := by
  cases own <;> rfl

/-- Behind a request, the timeout is the one that there was before. -/
@[simp] theorem restore_during (timeout : Timeout) (own : Option Timeout) :
    ((of timeout).during own).restore = of timeout := by
  cases own <;> rfl

end Guard

/-- What is left of a job that has the line. -/
inductive Plan where
  | single (request : Logged Request)
  /-- Probes the modem; so many probes have failed. -/
  | probe (guard : Guard) (failed : Nat)
  | echoOff (guard : Guard)
  | session (guard : Guard) (entries : List SessionEntry)
      (results : List (Except Failure Response))

/-- The next thing that a plan does. -/
inductive Move where
  | run (timeout : Timeout) (request : Logged Request) (rest : Plan)
  /-- Waits for a number of milliseconds. -/
  | pause (ms : Nat) (rest : Plan)
  | finish (outcome : Outcome)

namespace Plan

/-- How often the modem is probed again. -/
def maxRetries : Nat := 10

/-- How long the modem may take to answer a probe. -/
def probeTimeout : Timeout := .after 1000

/-- How long to wait between two probes. -/
def probePause : Nat := 500

/-- What the plan does when the line is its own. -/
def next : Plan → Move
  | .single request => .run .standard request (.single request)
  | .probe guard failed =>
    let guard := guard.during (some probeTimeout)
    .run guard.timeout (pure .attention) (.probe guard failed)
  | .echoOff guard =>
    .run guard.timeout (pure (.setEcho false)) (.echoOff guard)
  | .session _ [] results => .finish (.session results)
  | .session guard (e :: entries) results =>
    let guard := guard.during e.timeout
    .run guard.timeout e.request (.session guard entries results)

/-- What the plan does when its last request has come to a result. If the
request had a timeout of its own, it applies no longer. -/
def resume (p : Plan) (result : Except Failure Response) : Logged Move :=
  match p with
  | .single _ => pure (.finish (.single result))
  | .probe guard failed =>
    match result with
    | .ok _ => pure (echoOff guard.restore).next
    | .error failure =>
      if failed < maxRetries then do
        Logged.note (.probeFailed (failed + 1))
        return .pause probePause (.probe guard.restore (failed + 1))
      else pure (.finish (.broughtUp (.error failure)))
  | .echoOff _ =>
    match result with
    | .ok _ => do
      Logged.note .broughtUp
      return .finish (.broughtUp (.ok ()))
    | .error failure => pure (.finish (.broughtUp (.error failure)))
  | .session guard entries results =>
    pure (session guard.restore entries (results ++ [result])).next

/-- How many requests the plan may still run. -/
def maxRuns : Plan → Nat
  | .single _ => 1
  | .probe _ _ => maxRetries + 2
  | .echoOff _ => 1
  | .session _ entries _ => entries.length + 1

end Plan

end CellModem
