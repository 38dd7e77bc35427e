/-!
# Writers

The far end decides how much it takes of what it is offered, and it may fail
or let somebody wait. A writer is its behaviour: what it answers when a write
or a flush asks for the n-th time. A write that is answered with a wait asks
again when it is woken, and that counts as another time.

A write that succeeds takes at least one byte, so what is offered comes to an
end.
-/

namespace CellModem

/-- What the far end says to the bytes that a write offers. -/
inductive WriteAnswer where
  | all
  /-- Accepts a number of them at most, but one at least. -/
  | upTo (most : Nat)
  | failure
  | wait
deriving DecidableEq

namespace WriteAnswer

/-- How many of `offered` bytes are accepted, if any are. -/
def accepted? (offered : Nat) : WriteAnswer → Option Nat
  | .all => some offered
  | .upTo most => some (min (max 1 most) offered)
  | .failure | .wait => none

theorem pos_of_accepted? {a : WriteAnswer} {offered n : Nat}
    (hpos : 0 < offered) (h : a.accepted? offered = some n) : 0 < n := by
  cases a with
  | all =>
      cases h
      exact hpos
  | upTo most =>
      cases h
      omega
  | failure => cases h
  | wait => cases h

theorem accepted?_eq_none_iff {a : WriteAnswer} {offered : Nat} :
    a.accepted? offered = none ↔ a = .failure ∨ a = .wait := by
  cases a <;> simp [accepted?]

end WriteAnswer

/-- What the far end says to a flush. -/
inductive FlushAnswer where
  | done
  | failure
  | wait
deriving DecidableEq

/-- What the far end does with the bytes it is offered. -/
structure Writer where
  writeAnswer : Nat → WriteAnswer
  flushAnswer : Nat → FlushAnswer
  /-- How many answers have been given to writes. -/
  writes : Nat
  /-- How many answers have been given to flushes. -/
  flushes : Nat

namespace Writer

/-- A writer that does the same each time and lets nobody wait. -/
def steady (answer : WriteAnswer) (flushes : Bool) : Writer :=
  ⟨fun _ => answer, fun _ => if flushes then .done else .failure, 0, 0⟩

/-- What the next write is told. -/
def toWrite (w : Writer) : WriteAnswer := w.writeAnswer w.writes

/-- What the next flush is told. -/
def toFlush (w : Writer) : FlushAnswer := w.flushAnswer w.flushes

def afterWrite (w : Writer) : Writer := { w with writes := w.writes + 1 }

def afterFlush (w : Writer) : Writer := { w with flushes := w.flushes + 1 }

end Writer

end CellModem
