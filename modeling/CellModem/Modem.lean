import CellModem.Job
import CellModem.LineBuffer
import CellModem.Writer

/-!
# The modem's state

Any number of tasks use one modem. Each has a job; a receiver turns what comes
off the wire into lines and hands these on, and a transmitter writes the
commands that are queued. Nothing runs by itself: a task, the receiver or the
transmitter is polled, does what it can do at once, and then waits. The
receiver waits with a line in its hand if the queue for it is full, the
transmitter with a command in its hand if the far end does not take it yet.
Time is a number of milliseconds that passes only when somebody says so.

Whether the line is taken needs no record of its own: it is, as long as some
task is running a request or pausing between two.
-/

namespace CellModem

inductive Delivery where
  /-- Bytes; none at all means that the far end has closed the line. -/
  | bytes (data : List UInt8)
  /-- A read that fails. -/
  | fault
deriving DecidableEq

inductive Receiver.Phase where
  /-- It waits for bytes from the wire. -/
  | reading
  /-- It puts what it has read into its buffer. -/
  | filling (chunk : List UInt8)
  /-- It hands on the lines that are complete. -/
  | draining (chunk : List UInt8)
  /-- It waits for space in the queue of received lines, up to a time. -/
  | handing (line : Line) (deadline : Nat) (chunk : List UInt8)
deriving DecidableEq

structure Receiver where
  buffer : LineBuffer 512
  phase : Receiver.Phase
deriving DecidableEq

namespace Receiver

/-- The most bytes that are read at once. -/
def maxRead : Nat := 64

def idle : Receiver := ⟨.empty, .reading⟩

end Receiver

inductive Transmitter where
  | idle
  /-- It offers the far end what is left of a command. -/
  | writing (command : Command) (rest : List UInt8) (ne_nil : rest ≠ [])
  /-- It waits for a command that has been written to be flushed. -/
  | flushing

namespace Transmitter

/-- Offers what is left of a command, and flushes if nothing is left. -/
def offering (command : Command) : List UInt8 → Transmitter
  | [] => .flushing
  | b :: rest => .writing command (b :: rest) (List.cons_ne_nil b rest)

/-- The writer behind the wait of the write or the flush in hand, if there is
one that waits. -/
def wake (w : Writer) : Transmitter → Writer
  | .idle => w
  | .writing _ _ _ => if w.toWrite = .wait then w.afterWrite else w
  | .flushing => if w.toFlush = .wait then w.afterFlush else w

def rest : Transmitter → List UInt8
  | .idle | .flushing => []
  | .writing _ rest _ => rest

@[simp] theorem rest_offering (command : Command) (rest : List UInt8) :
    (offering command rest).rest = rest := by
  cases rest <;> rfl

end Transmitter

/-- What a task is waiting for. -/
inductive Stage where
  /-- An unsolicited message. -/
  | listening
  /-- The line to be free. -/
  | waiting (plan : Plan)
  /-- The result of a request. -/
  | running (plan : Plan) (run : Run)
  /-- A time to come. -/
  | pausing (plan : Plan) (deadline : Nat)

namespace Stage

/-- Whether a task at this stage has the line to itself. -/
def hasLine : Stage → Bool
  | .listening | .waiting _ => false
  | .running _ _ | .pausing _ _ => true

end Stage

structure Task where
  id : Nat
  stage : Stage

structure Modem where
  link : Link
  /-- The tasks that have not come to an end, in the order in which they
  began. -/
  tasks : List Task
  begun : Nat
  receiver : Receiver
  /-- What is still to be read, the earliest first. -/
  wire : List Delivery
  transmitter : Transmitter
  writer : Writer
  /-- Whether the transmitter gets its turn. -/
  transmitting : Bool
  now : Nat

inductive Output where
  | notice (n : Notice)
  | begun (id : Nat)
  | finished (id : Nat) (outcome : Outcome)
  /-- The answer to somebody who looks for a message without waiting. -/
  | heard (receipt : Option (Receipt Urc))
  | wrote (bytes : List UInt8)
  | flushed
  | receiverFailed (failure : Failure)
  | transmitterFailed (failure : Failure)

def Logged.shown {α : Type} (x : Logged α) : Traced Output α :=
  x.mapTrace .notice

namespace Modem

/-- A modem that nobody has used yet. -/
def idle : Modem :=
  ⟨.idle, [], 0, .idle, [], .idle, .steady .all true, true, 0⟩

def isTaken (m : Modem) : Bool := m.tasks.any (·.stage.hasLine)

def setStage (m : Modem) (id : Nat) (stage : Stage) : Modem :=
  { m with tasks := m.tasks.map fun t => if t.id = id then ⟨id, stage⟩ else t }

def removeTask (m : Modem) (id : Nat) : Modem :=
  { m with tasks := m.tasks.filter (·.id != id) }

end Modem

end CellModem
