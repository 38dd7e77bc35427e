import CellModem.Modem.Receiving
import CellModem.Modem.Tasks
import CellModem.Modem.Transmitting

/-!
# The executor

`poll` gives one party its turn. Any order of turns is a possible run of the
modem; the executor has one of its own. It goes round: the tasks in the order in
which they began, then the transmitter, then the receiver, and again until a
whole round has changed nothing.

Everything that happens from outside is an action. After each action the
executor runs until it has nothing left to do.
-/

namespace CellModem

inductive Party where
  | task (id : Nat)
  | transmitter
  | receiver
deriving DecidableEq

inductive Action where
  | begin (job : Job)
  /-- Gives up a task. Nothing that it has done is undone. -/
  | cancel (id : Nat)
  | arrive (data : List UInt8)
  | failRead
  | close
  | setTransmitting (on : Bool)
  | setWriter (w : Writer)
  /-- The far end is ready for what it lets wait. -/
  | wake
  | wait (ms : Nat)
  /-- Looks for a message without waiting, a number of times. -/
  | listen (times : Nat)

namespace Modem

/-- Gives a party its turn; there is no result if it can do nothing. -/
def poll (m : Modem) : Party → Option (Traced Output Modem)
  | .task id => (m.tasks.find? (·.id == id)).bind m.pollTask
  | .transmitter => if m.transmitStep.isNone then none else some m.transmit
  | .receiver => if m.receiveStep.isNone then none else some m.receive

/-- The parties in the order in which the executor polls them. -/
def parties (m : Modem) : List Party :=
  m.tasks.map (.task ·.id) ++
    (if m.transmitting then [.transmitter] else []) ++ [.receiver]

/-- Polls parties one after the other, and says whether any of them
could do something. -/
def pollAll (m : Modem) : List Party → Traced Output (Modem × Bool)
  | [] => pure (m, false)
  | p :: ps =>
    match m.poll p with
    | none => m.pollAll ps
    | some x => do
      let m ← x
      let (m, _) ← m.pollAll ps
      return (m, true)

def round (m : Modem) : Traced Output (Modem × Bool) := m.pollAll m.parties

/-- Rounds until one changes nothing, or as many as are given. -/
def settleFor : Nat → Modem → Traced Output Modem
  | 0, m => pure m
  | rounds + 1, m => do
    let (m, moved) ← m.round
    if moved then settleFor rounds m else return m

def taskRuns (t : Task) : Nat :=
  match t.stage with
  | .listening => 0
  | .waiting plan | .running plan _ | .pausing plan _ => plan.maxRuns + 1

/-- A number of rounds within which everything comes to rest. In every round but
the last somebody reads, frames, hands on or takes a byte or a line, writes a
command, or gets a task on, and a task gets on a few times for each request. -/
def maxRounds (m : Modem) : Nat :=
  2 * m.load + 4 * m.link.replies.length + 4 * m.link.commands.length +
    16 * m.tasks.foldr (taskRuns · + ·) 0 + m.tasks.length + 16

def settle (m : Modem) : Traced Output Modem := settleFor m.maxRounds m

def listen : Nat → Modem → Traced Output Modem
  | 0, m => pure m
  | times + 1, m => do
    let (receipt, urcs) := m.link.urcs.receive
    Traced.report (.heard receipt)
    listen times { m with link := { m.link with urcs := urcs } }

def act (m : Modem) : Action → Traced Output Modem
  | .begin job => m.begin job
  | .cancel id => pure (m.removeTask id)
  | .arrive data =>
    pure (if data.isEmpty then m
      else { m with wire := m.wire ++ [.bytes data] })
  | .failRead => pure { m with wire := m.wire ++ [.fault] }
  | .close => pure { m with wire := m.wire ++ [.bytes []] }
  | .setTransmitting on => pure { m with transmitting := on }
  | .setWriter w => pure { m with writer := w }
  | .wake => pure { m with writer := m.transmitter.wake m.writer }
  | .wait ms => pure { m with now := m.now + ms }
  | .listen times => listen times m

/-- An action, and all that follows from it. -/
def perform (m : Modem) (a : Action) : Traced Output Modem := do
  let m ← m.act a
  m.settle

end Modem

end CellModem
