import CellModem.Proofs.Pieces

/-!
# The flag and the run that set it

The flag that tells the receiver where lines belong is set by a run when it
begins, and cleared by the same run when it ends, whether with a result or for
lack of time. A run that is given up does not end: its task is gone, and with it
whoever would have cleared the flag. So the flag is set as long as a request is
being run, and also after the last run was given up, until another one has begun
and come to its end (`awaiting_eq`).

While the flag is not set, the receiver publishes a message in the very turn in
which it frames the line, and the queue of received lines gets nothing but the
line that was in its hand before.
-/

namespace CellModem

namespace Modem

/-- Whether a happening gives up a task that is running a request. -/
def givesUp (m : Modem) : Happening → Bool
  | .action (.cancel id) => m.tasks.any fun t => t.id == id && t.stage.isRunning
  | _ => false

/-- Whether the last run to begin was given up before its end. -/
def deserted (m : Modem) (before : Bool) : List Happening → Bool
  | [] => before
  | h :: hs =>
    let m' := (m.happen h).value
    m'.deserted ((before || m.givesUp h) && !m'.isRunning) hs

/-! ## Lines that nobody waits for -/

/-- What becomes of the backlog, and of the lines that were received for a
command, when only the receiver works. -/
structure Routed (m : Modem) (outs : List Output) (m' : Modem) : Prop where
  awaiting : m'.link.awaiting = m.link.awaiting
  urcs : m'.link.urcs =
    (CellModem.published outs).foldl Backlog.push m.link.urcs
  outstanding : m.link.awaiting = false → m'.outstanding <+: m.outstanding

theorem Routed.refl (m : Modem) : Routed m [] m :=
  ⟨rfl, rfl, fun _ => List.prefix_rfl⟩

theorem Routed.trans {m m' m'' : Modem} {outs outs' : List Output}
    (h : Routed m outs m') (h' : Routed m' outs' m'') :
    Routed m (outs ++ outs') m'' where
  awaiting := h'.awaiting.trans h.awaiting
  urcs := by rw [published_append, List.foldl_append, h'.urcs, h.urcs]
  outstanding hno :=
    (h'.outstanding (h.awaiting.trans hno)).trans (h.outstanding hno)

/-- A piece of work that publishes nothing and takes no line into its
hand or out of it. -/
theorem routed_of_link {m m' : Modem} {outs : List Output}
    (hlink : m'.link = m.link) (hhand : m'.receiver.inHand = m.receiver.inHand)
    (hpublished : CellModem.published outs = []) : Routed m outs m' where
  awaiting := by rw [hlink]
  urcs := by rw [hlink, hpublished]; rfl
  outstanding _ := by
    have hsame : m'.outstanding = m.outstanding := by
      rw [outstanding, outstanding, hlink, hhand]
    exact hsame ▸ List.prefix_rfl

theorem Stepped.routed {m m' : Modem} {outs : List Output}
    (h : Stepped m outs m') :
    Routed m outs m' := by
  cases h with
  | fail _ _ _ hpublished _ => exact routed_of_link rfl rfl hpublished
  | read hphase _ _ hpublished _ =>
      exact routed_of_link rfl
        (by rw [inHand_of_reading hphase]; rfl) hpublished
  | stop hphase _ hpublished _ =>
      exact routed_of_link rfl
        (by rw [Receiver.inHand, Receiver.inHand, hphase]; rfl) hpublished
  | fill hphase hpublished _ =>
      exact routed_of_link rfl
        (by rw [Receiver.inHand, Receiver.inHand, hphase]; rfl) hpublished
  | drained hphase _ hpublished _ =>
      exact routed_of_link rfl
        (by rw [Receiver.inHand, Receiver.inHand, hphase]; rfl) hpublished
  | @frame _ _ link _ _ _ hphase _ _ _ hawaiting hurcs hidle _ =>
      refine ⟨hawaiting, hurcs, fun hno => ?_⟩
      obtain ⟨hreplies, rfl, _⟩ := hidle hno
      show link.replies ++ [] <+: m.link.replies ++ m.receiver.inHand
      rw [hreplies, List.append_nil]
      exact List.prefix_append _ _
  | @hand line _ _ _ hphase hpublished _ =>
      refine ⟨rfl, by rw [hpublished]; rfl, fun _ => ?_⟩
      have hhand : m.receiver.inHand = [line] := by rw [Receiver.inHand, hphase]
      show m.link.replies ++ [line] ++ [] <+: m.link.replies ++
          m.receiver.inHand
      rw [List.append_nil]
      exact hhand ▸ List.prefix_rfl
  | drop _ hpublished _ =>
      refine ⟨rfl, by rw [hpublished]; rfl, fun _ => ?_⟩
      show m.link.replies ++ [] <+: m.link.replies ++ m.receiver.inHand
      rw [List.append_nil]
      exact List.prefix_append _ _

/-- All that one turn of the receiver does to the backlog and to the
lines for a command. -/
theorem routed_receive (m : Modem) :
    Routed m m.receive.trace m.receive.value := by
  have h := @Traced.exhaust_induction _ _ receiveStep load
    load_receiveStep_lt (Routed m)
    (fun outs m' x hm hx => hm.trans (stepped_receiveStep hx).routed)
    [] m (.refl m)
  exact h

/-! ## The flag -/

/-- The flag is set while a request is being run, and else just if the last
run was given up. -/
structure Flagged (m : Modem) (deserted : Bool) : Prop where
  orderly : m.Orderly
  awaiting : m.link.awaiting = (m.isRunning || deserted)
  resting : deserted = true → m.isRunning = false

variable {m : Modem} {deserted : Bool}

theorem flagged_idle : Flagged idle false := ⟨orderly_idle, rfl, nofun⟩

/-- The task that is given up is the one that was running, or it
makes no difference. -/
theorem isRunning_removeTask (m : Modem) (id : Nat) :
    m.isRunning =
      ((m.removeTask id).isRunning || m.givesUp (.action (.cancel id))) := by
  rw [Bool.eq_iff_iff, Bool.or_eq_true, isRunning_eq_true_iff,
    isRunning_eq_true_iff]
  simp only [removeTask, givesUp, List.mem_filter, List.any_eq_true, bne_iff_ne,
    Bool.and_eq_true, beq_iff_eq]
  constructor
  · rintro ⟨t, ht, hrun⟩
    by_cases hid : t.id = id
    · exact Or.inr ⟨t, ht, hid, hrun⟩
    · exact Or.inl ⟨t, ⟨ht, hid⟩, hrun⟩
  · rintro (⟨t, ⟨ht, _⟩, hrun⟩ | ⟨t, ht, _, hrun⟩)
    · exact ⟨t, ht, hrun⟩
    · exact ⟨t, ht, hrun⟩

/-- A run that begins takes the flag over. -/
theorem flagged_of_awaiting (ho : m.Orderly)
    (h : m.link.awaiting = (m.isRunning || deserted)) :
    Flagged m (deserted && !m.isRunning) := by
  refine ⟨ho, ?_, fun hd => ?_⟩
  · rw [h]
    cases m.isRunning <;> cases deserted <;> rfl
  · rw [Bool.and_eq_true, Bool.not_eq_true'] at hd
    exact hd.2

theorem Flagged.of_isRunning {m' : Modem} (h : Flagged m deserted)
    (ho : m'.Orderly) (hawaiting : m'.link.awaiting = m.link.awaiting)
    (hrunning : m'.isRunning = m.isRunning) :
    Flagged m' (deserted && !m'.isRunning) :=
  flagged_of_awaiting ho (by rw [hawaiting, h.awaiting, hrunning])

theorem Flagged.turned {m' : Modem} {t : Task} {outs : List Output}
    {stage? : Option Stage} (h : Flagged m deserted) (ht : t ∈ m.tasks)
    (hturn : Turned m t outs m' stage?) :
    Flagged m' (deserted && !m'.isRunning) := by
  have hmine (hrun : t.stage.isRunning = true) : m.isRunning = true :=
    isRunning_eq_true_iff.2 ⟨t, ht, hrun⟩
  have hawaiting :=
    hturn.awaiting fun hrun => by rw [h.awaiting, hmine hrun]; rfl
  refine flagged_of_awaiting (orderly_turned h.orderly ht hturn) ?_
  rw [hawaiting, h.awaiting, hturn.isRunning_eq h.orderly ht]
  cases hrun : t.stage.isRunning with
  | false => cases stage?.any (·.isRunning) <;> cases m.isRunning <;> rfl
  | true =>
      -- Nothing was deserted, for this task is running a request.
      have hno : deserted = false := by
        cases hd : deserted with
        | false => rfl
        | true => exact (hmine hrun).symm.trans (h.resting hd)
      rw [hno]
      cases stage?.any (·.isRunning) <;> rfl

theorem givesUp_eq_false {x : Happening} (h : ∀ id, x ≠ .action (.cancel id)) :
    m.givesUp x = false := by
  unfold givesUp
  split
  · exact absurd rfl (h _)
  · rfl

theorem flagged_happen (h : Flagged m deserted) (x : Happening) :
    Flagged (m.happen x).value
      ((deserted || m.givesUp x) && !(m.happen x).value.isRunning) := by
  have ho := orderly_happen h.orderly x
  by_cases hcancel : ∃ id, x = .action (.cancel id)
  · obtain ⟨id, rfl⟩ := hcancel
    show Flagged (m.removeTask id) _
    refine flagged_of_awaiting ho ?_
    show m.link.awaiting = ((m.removeTask id).isRunning || _)
    rw [h.awaiting, m.isRunning_removeTask id, Bool.or_assoc,
      Bool.or_comm (m.givesUp _)]
  · rw [givesUp_eq_false fun id hx => hcancel ⟨id, hx⟩, Bool.or_false]
    rcases m.happen_cases x with ⟨job, rfl⟩ | ⟨id, rfl⟩ | ⟨ms, rfl⟩ | rfl |
        ⟨t, y, ht, rfl, _, hy, he⟩ | ⟨_, _, hkept⟩
    · exact h.of_isRunning ho (by rw [happen, act, value_begin])
        (m.isRunning_begin job)
    · exact absurd ⟨id, rfl⟩ hcancel
    · exact h.of_isRunning ho rfl rfl
    · rw [happen_receiver] at ho ⊢
      have hr := received_receive m
      exact h.of_isRunning ho hr.awaiting (isRunning_of_tasks hr.tasks)
    · obtain ⟨stage?, hturn⟩ := turned_pollTask (h.orderly.isOpen t ht) hy
      rw [he]
      exact h.turned ht hturn
    · exact h.of_isRunning ho hkept.awaiting (isRunning_of_tasks hkept.tasks)

theorem flagged_follow (h : Flagged m deserted) (hs : List Happening) :
    Flagged (m.follow hs).value (m.deserted deserted hs) := by
  induction hs generalizing m deserted with
  | nil => exact h
  | cons x hs ih => exact ih (flagged_happen h x)

/-- Whatever happens, the flag is set just if a request is being run, by a task
that has the line to itself, or if the last run was given up. In between, every
message is published as soon as its line is framed, and no such line joins the
queue of received lines. -/
theorem awaiting_eq (hs : List Happening) :
    let m := (idle.follow hs).value
    let m' := (m.happen (.turn .receiver)).value
    let outs := (m.happen (.turn .receiver)).trace
    m.link.awaiting = (m.isRunning || idle.deserted false hs) ∧
    (idle.deserted false hs = true → m.isRunning = false) ∧
    (∀ t ∈ m.tasks, t.stage.isRunning = true → t.stage.hasLine = true ∧
      ∀ u ∈ m.tasks, u.stage.hasLine = true → u = t) ∧
    (m.isRunning = false → idle.deserted false hs = false →
      CellModem.published outs = (sentOn (framed outs)).filterMap Urc.ofLine? ∧
      m'.link.urcs = ((sentOn (framed outs)).filterMap Urc.ofLine?).foldl
        Backlog.push m.link.urcs ∧
      m'.link.replies <+: m.outstanding) := by
  intro m m' outs
  have h := flagged_follow flagged_idle hs
  refine ⟨h.awaiting, h.resting, fun t ht hrun => ?_, fun hrest hkept => ?_⟩
  · have hline := hasLine_of_isRunning hrun
    exact ⟨hline, fun u hu huline =>
      h.orderly.eq_of_id hu ht (h.orderly.alone u hu t ht huline hline)⟩
  · have hflag : m.link.awaiting = false := by
      rw [h.awaiting, hrest, hkept]; rfl
    have hreceived := received_receive m
    have hrouted := routed_receive m
    rw [← happen_receiver] at hreceived hrouted
    have hpublished : CellModem.published outs =
        (sentOn (framed outs)).filterMap Urc.ofLine? := by
      rw [hreceived.published, hflag]
      rfl
    refine ⟨hpublished, ?_, ?_⟩
    · rw [hrouted.urcs, ← hpublished]
    · exact (List.prefix_append _ _).trans (hrouted.outstanding hflag)

/-- A run that is given up leaves the flag set. A message that comes then is put
into the queue, where nobody takes it. -/
theorem flag_outlives_given_up_run :
    let past : List Happening :=
      [.action (.begin .hangUp), .turn (.task 0), .action (.cancel 0)]
    let hs := past ++ [.action (.arrive (Text.bytes "RING\n")), .turn .receiver]
    (idle.follow past).value.tasks = [] ∧
      (idle.follow past).value.link.awaiting = true ∧
      sentOn (framed (idle.follow hs).trace) = [.ofText "RING"] ∧
      CellModem.published (idle.follow hs).trace = [] ∧
      (idle.follow hs).value.link.replies = [.ofText "RING"] := by
  refine ⟨List.isEmpty_iff.1
    (by decide +kernel), by decide +kernel, by decide +kernel,
    by decide +kernel, by decide +kernel⟩

end Modem

end CellModem
