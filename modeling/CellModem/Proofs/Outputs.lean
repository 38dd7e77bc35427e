import CellModem.Proofs.Turns

/-!
# Who reports what

Everybody gives notices, but the other outputs each have one source: only the
transmitter writes and flushes and fails to, only the receiver fails to read,
only a task comes to an end, and the rest is answered to whoever acts from
outside (`isFrom_happen`). So what is looked for in a trace need only be looked
for in the turns of one party.
-/

namespace CellModem

/-- Those who report something. -/
inductive Source where
  | outside
  | task
  | transmitter
  | receiver
deriving DecidableEq

/-- Where an output must come from, unless it is a notice. -/
def Output.source? : Output → Option Source
  | .notice _ => none
  | .begun _ | .heard _ => some .outside
  | .finished _ _ => some .task
  | .wrote _ | .flushed | .transmitterFailed _ => some .transmitter
  | .receiverFailed _ => some .receiver

/-- Where a happening takes place. -/
def Happening.source : Happening → Source
  | .action _ => .outside
  | .turn (.task _) => .task
  | .turn .transmitter => .transmitter
  | .turn .receiver => .receiver

theorem Happening.eq_of_transmitter {x : Happening}
    (h : x.source = .transmitter) :
    x = .turn .transmitter := by
  cases x with
  | action a => cases h
  | turn p =>
      cases p with
      | transmitter => rfl
      | receiver => cases h
      | task id => cases h

theorem Happening.eq_of_receiver {x : Happening} (h : x.source = .receiver) :
    x = .turn .receiver := by
  cases x with
  | action a => cases h
  | turn p =>
      cases p with
      | transmitter => cases h
      | receiver => rfl
      | task id => cases h

/-- Whether outputs come from one source, notices apart. -/
def IsFrom (s : Source) (outs : List Output) : Prop :=
  ∀ o ∈ outs, o.source?.all (· == s) = true

variable {s : Source}

theorem isFrom_nil : IsFrom s [] := fun _ h => absurd h List.not_mem_nil

theorem IsFrom.append {xs ys : List Output} (hx : IsFrom s xs)
    (hy : IsFrom s ys) :
    IsFrom s (xs ++ ys) := by
  intro o ho
  rcases List.mem_append.1 ho with hmem | hmem
  · exact hx o hmem
  · exact hy o hmem

theorem isFrom_singleton {o : Output} (h : o.source?.all (· == s) = true) :
    IsFrom s [o] := by
  intro o' ho
  rw [List.mem_singleton.1 ho]
  exact h

theorem IsFrom.bind {α β : Type} {x : Traced Output α} {f : α → Traced Output β}
    (hx : IsFrom s x.trace) (hf : ∀ a, IsFrom s (f a).trace) :
    IsFrom s (x >>= f).trace :=
  hx.append (hf x.value)

theorem isFrom_shown {α : Type} (x : Logged α) : IsFrom s x.shown.trace := by
  intro o ho
  rw [Logged.shown, Traced.trace_mapTrace, List.mem_map] at ho
  obtain ⟨n, _, rfl⟩ := ho
  rfl

namespace Modem

theorem isFrom_carryOut (m : Modem) (id : Nat) (move : Move) :
    IsFrom .task (m.carryOut id move).trace := by
  cases move with
  | run timeout request rest =>
      exact (isFrom_shown _).bind fun _ =>
        (isFrom_shown _).bind fun _ => isFrom_nil
  | pause ms rest => exact isFrom_nil
  | finish outcome => exact (isFrom_singleton rfl).bind fun _ => isFrom_nil

theorem isFrom_continueRun (m : Modem) (id : Nat) (plan : Plan) (run : Run) :
    IsFrom .task (m.continueRun id plan run).trace := by
  refine (isFrom_shown _).bind ?_
  rintro ⟨run', link, _ | result⟩
  · exact isFrom_nil
  · exact (isFrom_shown _).bind fun move => isFrom_carryOut _ _ _

theorem isFrom_pollTask {m : Modem} {t : Task} {x : Traced Output Modem}
    (h : m.pollTask t = some x) : IsFrom .task x.trace := by
  rcases pollTask_cases h with ⟨_, _, _, rfl⟩ | ⟨_, _, rfl⟩ | ⟨_, _, _, _, rfl⟩
  · exact isFrom_carryOut _ _ _
  · exact isFrom_carryOut _ _ _
  · exact isFrom_continueRun _ _ _ _

theorem Sending.isFrom {m m' : Modem} {outs : List Output}
    (h : m.Sending outs m') :
    IsFrom .transmitter outs := by
  cases h with
  | take _ _ => exact (isFrom_shown _).append (isFrom_singleton rfl)
  | write _ _ => exact isFrom_singleton rfl
  | failWrite _ _ => exact isFrom_singleton rfl
  | flush _ _ => exact isFrom_singleton rfl
  | failFlush _ _ => exact isFrom_singleton rfl

theorem isFrom_route (m : Modem) (buffer : LineBuffer 512) (line : Line)
    (chunk : List UInt8) :
    IsFrom .receiver (m.route buffer line chunk).trace := by
  unfold route
  split
  · exact isFrom_nil
  · split
    · split <;> exact isFrom_nil
    · refine (isFrom_shown _).bind ?_
      rintro (_ | urc)
      · exact (isFrom_singleton rfl).bind fun _ => isFrom_nil
      · exact (isFrom_shown _).bind fun _ => isFrom_nil

theorem isFrom_receiveStep {m : Modem} {x : Traced Output Modem}
    (h : m.receiveStep = some x) :
    IsFrom .receiver x.trace := by
  have hfail (rest : List Delivery) :
      IsFrom .receiver (m.failRead rest).trace :=
    (isFrom_singleton rfl).bind fun _ => isFrom_nil
  unfold receiveStep at h
  split at h
  · split at h
    · cases h
    · cases h
      exact hfail _
    · cases h
      exact (isFrom_singleton rfl).bind fun _ => hfail _
    · cases h
      exact (isFrom_singleton rfl).bind fun _ => isFrom_nil
  · cases h
    refine (isFrom_shown _).bind ?_
    rintro ⟨_ | _, buffer, rest⟩ <;> exact isFrom_nil
  · cases h
    refine (isFrom_shown _).bind ?_
    rintro ⟨_ | line, buffer⟩
    · exact isFrom_nil
    · exact isFrom_route _ _ _ _
  · split at h
    · cases h
      exact isFrom_nil
    · split at h
      · cases h
        exact (isFrom_singleton rfl).bind fun _ => isFrom_nil
      · cases h

theorem isFrom_listen (times : Nat) (m : Modem) :
    IsFrom .outside (listen times m).trace := by
  induction times generalizing m with
  | zero => exact isFrom_nil
  | succ times ih => exact (isFrom_singleton rfl).append (ih _)

theorem isFrom_act (m : Modem) (a : Action) :
    IsFrom .outside (m.act a).trace := by
  cases a with
  | begin job =>
      refine (isFrom_singleton rfl).bind fun _ => ?_
      cases job with
      | bringUp => exact (isFrom_singleton rfl).append isFrom_nil
      | single request => exact isFrom_nil
      | session timeout entries => exact isFrom_nil
      | nextUrc => exact isFrom_nil
  | arrive data => exact isFrom_nil
  | listen times => exact isFrom_listen times m
  | cancel id => exact isFrom_nil
  | failRead => exact isFrom_nil
  | close => exact isFrom_nil
  | setTransmitting on => exact isFrom_nil
  | setWriter w => exact isFrom_nil
  | wake => exact isFrom_nil
  | wait ms => exact isFrom_nil

/-- Whatever happens, nobody reports what is not his own. -/
theorem isFrom_happen (m : Modem) (x : Happening) :
    IsFrom x.source (m.happen x).trace := by
  cases x with
  | action a => exact m.isFrom_act a
  | turn p =>
      cases p with
      | receiver =>
          rw [happen_receiver]
          exact @Traced.exhaust_induction _ _ receiveStep load
            load_receiveStep_lt (fun outs _ => IsFrom .receiver outs)
            (fun outs m' x h hx => h.append (isFrom_receiveStep hx))
            [] m isFrom_nil
      | transmitter =>
          rw [happen_transmitter]
          exact transmit_induction
            (motive := fun outs _ => IsFrom .transmitter outs)
            (fun _ _ _ _ hsending h => h.append hsending.isFrom) isFrom_nil
      | task id =>
          rw [happen]
          cases hp : m.poll (.task id) with
          | none => exact isFrom_nil
          | some y =>
              obtain ⟨t, _, hy⟩ := Option.bind_eq_some_iff.1 hp
              exact isFrom_pollTask hy

/-- What is reported by one source is not found elsewhere. -/
theorem filterMap_happen {α : Type} {f : Output → Option α}
    (hf : ∀ o, (f o).isSome = true → o.source? = some s) (m : Modem)
    {x : Happening} (hx : x.source ≠ s) :
    (m.happen x).trace.filterMap f = [] := by
  rw [List.filterMap_eq_nil_iff]
  intro o ho
  have hfrom := m.isFrom_happen x o ho
  cases h : f o with
  | none => rfl
  | some a =>
      rw [hf o (by rw [h]; rfl), Option.all_some, beq_iff_eq] at hfrom
      exact absurd hfrom.symm hx

/-! ## The outputs of one source -/

/-- What one source reports in a history, notices and all. -/
def outputsOf (m : Modem) (s : Source) : List Happening → List Output
  | [] => []
  | x :: hs =>
    (if x.source = s then (m.happen x).trace
      else []) ++ (m.happen x).value.outputsOf s hs

/-- What a source keeps, with its outputs so far, and the others do not break,
holds after every history. -/
theorem outputsOf_induction {motive : List Output → Modem → Prop}
    (own : ∀ outs m x, x.source = s → motive outs m →
      motive (outs ++ (m.happen x).trace) (m.happen x).value)
    (other : ∀ outs m x, x.source ≠ s → motive outs m →
      motive outs (m.happen x).value) (hs : List Happening) {outs : List Output}
      {m : Modem} (h : motive outs m) :
    motive (outs ++ m.outputsOf s hs) (m.follow hs).value := by
  induction hs generalizing outs m with
  | nil =>
      rw [outputsOf, List.append_nil]
      exact h
  | cons x hs ih =>
      rw [outputsOf, follow, Traced.value_bind, ← List.append_assoc]
      by_cases hx : x.source = s
      · rw [if_pos hx]
        exact ih (own outs m x hx h)
      · rw [if_neg hx, List.append_nil]
        exact ih (other outs m x hx h)

end Modem

end CellModem
