/-!
# A backlog that never blocks

Messages wait in a backlog until somebody asks for them. The sender must never
wait, so a full backlog drops its oldest message to make room, and the reader is
told once that something is missing.
-/

namespace CellModem

/-- The newest messages that nobody has asked for yet, the oldest first. -/
structure Backlog (α : Type) (capacity : Nat) where
  queue : List α
  /-- Whether messages were dropped since this was last reported. -/
  lagged : Bool
deriving DecidableEq

/-- What a reader gets. -/
inductive Receipt (α : Type) where
  | message (a : α)
  /-- Messages were dropped. -/
  | lagged
deriving DecidableEq

namespace Backlog

variable {α : Type} {capacity : Nat}

def empty : Backlog α capacity := ⟨[], false⟩

/-- Adds a message, and drops the oldest if there is no room for it. -/
def push (b : Backlog α capacity) (a : α) : Backlog α capacity :=
  if b.queue.length < capacity then ⟨b.queue ++ [a], b.lagged⟩
  else ⟨b.queue.drop 1 ++ [a], true⟩

/-- What a reader gets now, if anything, and the backlog behind it. -/
def receive (b : Backlog α capacity) :
    Option (Receipt α) × Backlog α capacity :=
  if b.lagged then (some .lagged, ⟨b.queue, false⟩)
  else match b.queue with
    | [] => (none, b)
    | a :: rest => (some (.message a), ⟨rest, false⟩)

end Backlog

end CellModem
