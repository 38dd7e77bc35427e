/-!
# Results with a trace

A computation that reports things on its way is a value together with the list
of what it reported, in order. Doing one after the other appends the lists. The
lemmas say what each operation does to the two parts, so that a proof about
values need not look at reports.
-/

namespace CellModem

/-- A value, and what was reported on the way to it, the earliest first. -/
structure Traced (ω α : Type) where
  value : α
  trace : List ω

namespace Traced

variable {ω ω' α β : Type}

instance : Monad (Traced ω) where
  pure a := ⟨a, []⟩
  bind x f := ⟨(f x.value).value, x.trace ++ (f x.value).trace⟩

def report (w : ω) : Traced ω Unit := ⟨(), [w]⟩

def reportIf (c : Bool) (w : ω) : Traced ω Unit := ⟨(), if c then [w] else []⟩

/-- The same value with every report replaced by its image. -/
def mapTrace (f : ω → ω') (x : Traced ω α) : Traced ω' α :=
  ⟨x.value, x.trace.map f⟩

@[simp] theorem value_pure (a : α) : (pure a : Traced ω α).value = a := rfl

@[simp] theorem trace_pure (a : α) : (pure a : Traced ω α).trace = [] := rfl

@[simp] theorem value_bind (x : Traced ω α) (f : α → Traced ω β) :
    (x >>= f).value = (f x.value).value := rfl

@[simp] theorem trace_bind (x : Traced ω α) (f : α → Traced ω β) :
    (x >>= f).trace = x.trace ++ (f x.value).trace := rfl

@[simp] theorem value_map (f : α → β) (x : Traced ω α) :
    (f <$> x).value = f x.value := rfl

@[simp] theorem trace_map (f : α → β) (x : Traced ω α) :
    (f <$> x).trace = x.trace := by
  show x.trace ++ [] = x.trace
  exact List.append_nil _

@[simp] theorem value_report (w : ω) : (report w).value = () := rfl

@[simp] theorem trace_report (w : ω) : (report w).trace = [w] := rfl

@[simp] theorem value_mapTrace (f : ω → ω') (x : Traced ω α) :
    (x.mapTrace f).value = x.value := rfl

@[simp] theorem trace_mapTrace (f : ω → ω') (x : Traced ω α) :
    (x.mapTrace f).trace = x.trace.map f := rfl

@[ext] theorem ext {x y : Traced ω α} (hv : x.value = y.value)
    (ht : x.trace = y.trace) :
    x = y := by
  cases x
  cases y
  subst hv
  subst ht
  rfl

instance : LawfulMonad (Traced ω) :=
  LawfulMonad.mk' _ (fun x => by ext1 <;> simp) (fun a f => by ext1 <;> simp)
    (fun x f g => by ext1 <;> simp)

/-- Takes steps until there is none to take; each one makes
the state smaller. -/
def exhaust (step : α → Option (Traced ω α)) (size : α → Nat)
    (smaller : ∀ a x, step a = some x → size x.value < size a) (a : α) :
    Traced ω α :=
  match _ : step a with
  | none => pure a
  | some x =>
    let rest := exhaust step size smaller x.value
    ⟨rest.value, x.trace ++ rest.trace⟩
termination_by size a
decreasing_by exact smaller _ _ ‹step a = some x›

section Exhaust

variable {step : α → Option (Traced ω α)} {size : α → Nat}
  {smaller : ∀ a x, step a = some x → size x.value < size a}

theorem exhaust_of_none {a : α} (h : step a = none) :
    exhaust step size smaller a = pure a := by
  rw [exhaust]
  split
  · rfl
  · next h' => rw [h] at h'; cases h'

theorem exhaust_of_some {a : α} {x : Traced ω α} (h : step a = some x) :
    exhaust step size smaller a = x >>= exhaust step size smaller := by
  rw [exhaust]
  split
  · next h' => rw [h] at h'; cases h'
  · next h' => rw [h] at h'; cases h'; rfl

/-- What every step keeps, with the reports made so far, holds when there
is no step left. -/
theorem exhaust_induction {motive : List ω → α → Prop}
    (keeps : ∀ ws a x, motive ws a → step a = some x →
      motive (ws ++ x.trace) x.value)
    (ws : List ω) (a : α) (h : motive ws a) :
    motive (ws ++ (exhaust step size smaller a).trace)
      (exhaust step size smaller a).value := by
  induction hn : size a using Nat.strongRecOn generalizing ws a with
  | ind n ih =>
    cases hs : step a with
    | none => rw [exhaust_of_none hs]; simpa using h
    | some x =>
      rw [exhaust_of_some hs]
      have := ih (size x.value) (hn ▸ smaller a x hs) (ws ++ x.trace) x.value
        (keeps ws a x h hs) rfl
      simpa [List.append_assoc] using this

/-- Nothing is left to be done. -/
theorem step_exhaust (a : α) :
    step (exhaust step size smaller a).value = none := by
  induction hn : size a using Nat.strongRecOn generalizing a with
  | ind n ih =>
    cases hs : step a with
    | none => rw [exhaust_of_none hs]; exact hs
    | some x =>
      rw [exhaust_of_some hs]
      exact ih (size x.value) (hn ▸ smaller a x hs) x.value rfl

end Exhaust

end Traced

end CellModem
