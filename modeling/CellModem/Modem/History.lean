import CellModem.Modem.Executor

/-!
# Histories

What happens to a modem is a list of actions from outside and of turns, in any
order at all. The executor's order is one of many; what is to hold whatever the
order is said of histories.

Time passes slowly for a modem if it never passes while somebody could
still do something.
-/

namespace CellModem

inductive Happening where
  | action (a : Action)
  | turn (p : Party)

namespace Modem

/-- The modem after one happening. A turn of somebody who has to wait
changes nothing. -/
def happen (m : Modem) : Happening → Traced Output Modem
  | .action a => m.act a
  | .turn p => (m.poll p).getD (pure m)

def follow (m : Modem) : List Happening → Traced Output Modem
  | [] => pure m
  | h :: hs => do
    let m ← m.happen h
    m.follow hs

def IsQuiet (m : Modem) : Prop := ∀ p ∈ m.parties, m.poll p = none

def IsSlow (m : Modem) : List Happening → Prop
  | [] => True
  | .action (.wait ms) :: hs =>
    m.IsQuiet ∧ (m.happen (.action (.wait ms))).value.IsSlow hs
  | h :: hs => (m.happen h).value.IsSlow hs

theorem follow_append (m : Modem) (hs hs' : List Happening) :
    m.follow (hs ++ hs') = m.follow hs >>= fun m => m.follow hs' := by
  induction hs generalizing m with
  | nil => ext1 <;> simp [follow]
  | cons h hs ih => ext1 <;> simp [follow, ih]

/-- What every happening keeps, with the outputs made so far, holds
after every history. -/
theorem follow_induction {motive : List Output → Modem → Prop}
    (keeps : ∀ outs m h, motive outs m → motive (outs ++ (m.happen h).trace)
      (m.happen h).value)
    (hs : List Happening) {outs : List Output} {m : Modem} (h : motive outs m) :
    motive (outs ++ (m.follow hs).trace) (m.follow hs).value := by
  induction hs generalizing outs m with
  | nil => simpa [follow] using h
  | cons x hs ih =>
    have := ih (keeps outs m x h)
    simpa [follow, List.append_assoc] using this

end Modem

end CellModem
