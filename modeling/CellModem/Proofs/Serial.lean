import CellModem.Proofs.Awaiting
import CellModem.Proofs.Outputs
import CellModem.Proofs.Refinement

/-!
# One command at a time on the wire

No two runs are ever in progress together, but a command does not go from its
run to the wire directly. It waits in a queue until the transmitter gets its
turn, then in the hand of the transmitter until the far end has taken all of
it, and a run does not wait for either. If a run ends while its command is
still on the way, because its time is up, because it is given up, or because a
final result came before anything was asked, the command stays where it is. It
is written later, when nobody waits for its reply, or in the middle of another
run, whose reply is then mistaken.

So what is still to be written is never anything but the command of the run in
progress, just if every run that ended has found nothing left to be written,
neither in the queue nor in the transmitter's hand (`serial_iff_prompt`); and
then every run begins with nothing left, and nothing else is written meanwhile.

The invariant says of a run in progress that its command was put into the queue
when it began, for then a poll of the run puts nothing into it any more.
-/

namespace CellModem

/-! ## What is seen of commands -/

/-- The bytes that a write has got through. -/
def Output.written? : Output → Option (List UInt8)
  | .wrote bytes => some bytes
  | _ => none

/-- What has gone over the wire to the modem, write by write. -/
def writes (outs : List Output) : List (List UInt8) :=
  outs.filterMap Output.written?

/-- The command that is partly written, or not at all. -/
def Transmitter.inHand : Transmitter → List Command
  | .idle | .flushing => []
  | .writing command _ _ => [command]

/-- The command that a run has put into the queue. -/
def Stage.entered? : Stage → Option Command
  | .running _ run => if run.queued then some run.transaction.command else none
  | .listening | .waiting _ | .pausing _ _ => none

namespace Modem

/-- The commands that are still to be written, wholly or in part. -/
def unwritten (m : Modem) : List Command :=
  m.transmitter.inHand ++ m.link.commands

/-- The bytes that are still to be written. -/
def unsent (m : Modem) : List UInt8 :=
  m.transmitter.rest ++ m.link.commands.flatMap fun c =>
    Text.bytes c.render.value

/-- Whether nothing is still to be written but the command of the
run in progress. -/
def IsSerial (m : Modem) : Prop :=
  m.unwritten = [] ∨ ∃ t ∈ m.tasks, ∃ c, t.stage.entered? = some c ∧
    m.unwritten = [c]

/-- Whether a run ends in a happening, with a result or because
it is given up. -/
def endsRun (m : Modem) : Happening → Bool
  | .turn (.task id) => (m.glance id (.turn (.task id))).result.isSome
  | x => m.givesUp x

/-- Whether a run begins in a happening. -/
def beginsRun (m : Modem) (x : Happening) : Bool :=
  (m.happen x).value.isRunning && (!m.isRunning || m.endsRun x)

/-- Whether all commands have been written whenever a run ends. -/
def IsPrompt (m : Modem) : List Happening → Prop
  | [] => True
  | x :: hs => (m.endsRun x = true → m.unwritten = []) ∧
      (m.happen x).value.IsPrompt hs

instance decidableIsPrompt (m : Modem) :
    (hs : List Happening) → Decidable (m.IsPrompt hs)
  | [] => isTrue trivial
  | x :: hs =>
    have := decidableIsPrompt (m.happen x).value hs
    inferInstanceAs (Decidable (_ ∧ _))

end Modem

/-! ## Commands in a run -/

namespace Run

theorem commands_takeLines (t : Transaction) (l : Link) (lines : List Line) :
    (takeLines t l lines).value.1.command = t.command ∧
      (takeLines t l lines).value.2.1.commands = l.commands := by
  induction lines generalizing t l with
  | nil => exact ⟨rfl, rfl⟩
  | cons line rest ih =>
      have hcommand := t.command_handle line
      rw [takeLines, Traced.value_bind, value_takeLine]
      cases hr : (t.handle line).value.2.result? with
      | some result => exact ⟨hcommand, rfl⟩
      | none =>
          obtain ⟨hc, hl⟩ := ih (t.handle line).value.1
            (l.publishAll (t.handle line).value.2.message?.toList)
          exact ⟨hc.trans hcommand, hl⟩

/-- A run whose command is in the queue, or was, has nothing
more to put there. -/
theorem commands_exchange {r : Run} (h : r.queued = true) (l : Link) :
    (r.exchange l).value.1.queued = true ∧
      (r.exchange l).value.1.transaction.command = r.transaction.command ∧
      (r.exchange l).value.2.1.commands = l.commands := by
  obtain ⟨hc, hl⟩ := commands_takeLines r.transaction l l.replies
  rw [exchange, enqueue_of_queued h]
  dsimp only
  rw [if_pos h, Traced.value_bind]
  exact ⟨h, hc, hl⟩

theorem commands_poll {r : Run} (h : r.queued = true) (now : Nat) (l : Link) :
    (r.poll now l).value.1.queued = true ∧
      (r.poll now l).value.1.transaction.command = r.transaction.command ∧
      (r.poll now l).value.2.1.commands = l.commands := by
  have hx := commands_exchange h l
  cases hv : (r.exchange l).value with
  | mk r' rest =>
      obtain ⟨l', result⟩ := rest
      rw [hv] at hx
      cases result with
      | some result =>
          rw [(@poll_of_some _ _ _ _ _ now hv).1, value_finish]
          exact hx
      | none =>
          cases hdue : r'.isDue now with
          | true =>
              rw [(poll_of_due hv hdue).1, value_finish]
              exact hx
          | false =>
              rw [(poll_of_waiting hv hdue).1]
              exact hx

/-- As long as there is space, a run that begins puts its command behind
those in the queue. -/
theorem commands_start {l : Link}
    (h : l.commands.length < Link.maxCommands) (q : Request)
    (timeout : Timeout) (now : Nat) :
    (start q timeout now l).value.1.queued = true ∧
      (start q timeout now l).value.2.commands =
        l.commands ++
        [(start q timeout now l).value.1.transaction.command] := by
  have hspace : ({ l with awaiting := true, replies := [] }.publishAll
      (l.replies.filterMap Urc.ofLine?)).acceptsCommand = true :=
        decide_eq_true h
  rw [value_start, enqueue, hspace]
  exact ⟨rfl, rfl⟩

end Run

namespace Modem

/-! ## Commands and tasks -/

variable {m : Modem} {id : Nat}

theorem isRunning_of_entered? {s : Stage} {c : Command}
    (h : s.entered? = some c) : s.isRunning = true := by
  cases s with
  | running plan run => rfl
  | listening => cases h
  | waiting plan => cases h
  | pausing plan deadline => cases h

/-- Whether every run in progress has put its command into the queue. -/
def HasEntered (m : Modem) : Prop :=
  ∀ t ∈ m.tasks, t.stage.isRunning = true → t.stage.entered?.isSome = true

/-- What holds at any time as long as no run has left its command behind. -/
structure Serial (m : Modem) : Prop where
  orderly : m.Orderly
  entered : m.HasEntered
  commands : m.IsSerial
  /-- What is left of a command is its end. -/
  rest : ∀ c ∈ m.transmitter.inHand,
    m.transmitter.rest <:+ Text.bytes c.render.value

theorem serial_idle : idle.Serial :=
  ⟨orderly_idle, fun _ h => absurd h List.not_mem_nil, Or.inl rfl,
    fun _ h => absurd h List.not_mem_nil⟩

theorem Serial.queued {t : Task} {plan : Plan} {run : Run} (h : m.Serial)
    (ht : t ∈ m.tasks) (hs : t.stage = .running plan run) :
    run.queued = true := by
  have hsome := h.entered t ht (by rw [hs]; rfl)
  rw [hs, Stage.entered?] at hsome
  cases hq : run.queued with
  | true => rfl
  | false =>
      rw [hq] at hsome
      cases hsome

theorem IsSerial.length_le (h : m.IsSerial) : m.unwritten.length ≤ 1 := by
  rcases h with hnil | ⟨_, _, _, _, hone⟩
  · rw [hnil]
    exact Nat.zero_le 1
  · rw [hone]
    exact Nat.le_refl 1

theorem IsSerial.of_tasks {m' : Modem} (h : m.IsSerial)
    (htasks : m'.tasks = m.tasks) (hless : m'.unwritten <:+ m.unwritten) :
    m'.IsSerial := by
  rcases h with hnil | ⟨t, ht, c, hc, hone⟩
  · rw [hnil] at hless
    exact Or.inl (List.suffix_nil.1 hless)
  · rw [hone] at hless
    rcases List.suffix_cons_iff.1 hless with hsame | hnone
    · exact Or.inr ⟨t, htasks ▸ ht, c, hc, hsame⟩
    · exact Or.inl (List.suffix_nil.1 hnone)

theorem HasEntered.of_tasks {m' : Modem} (h : m.HasEntered)
    (htasks : m'.tasks = m.tasks) : m'.HasEntered := by
  rw [HasEntered, htasks]
  exact h

theorem Orderly.isRunning_eq_false {t : Task} (h : m.Orderly) (ht : t ∈ m.tasks)
    (hline : t.stage.hasLine = true ∨ m.isTaken = false) :
    ∀ u ∈ m.tasks, u.id ≠ t.id → u.stage.isRunning = false := by
  intro u hu hne
  have hno := h.hasLine_eq_false ht hline hu hne
  cases hrun : u.stage.isRunning with
  | false => rfl
  | true =>
      rw [hasLine_of_isRunning hrun] at hno
      cases hno

section CarryOut

variable (hothers : ∀ u ∈ m.tasks, u.id ≠ id → u.stage.isRunning = false)

include hothers

/-- A task that goes on to something else while nobody is running a request
finds nothing that is still to be written, and leaves nothing but the command of
the run that begins. -/
theorem serial_carryOut (hid : ∃ t ∈ m.tasks, t.id = id)
    (hempty : m.unwritten = []) (move : Move) :
    (m.carryOut id move).value.HasEntered ∧
    (m.carryOut id move).value.IsSerial := by
  obtain ⟨hhand, hqueue⟩ := List.append_eq_nil_iff.1 hempty
  have hput {link : Link} {stage? : Option Stage}
      (hstage : ∀ s ∈ stage?, s.isRunning = true → s.entered?.isSome = true) :
      ({ m with link := link }.putStage id stage?).HasEntered := by
    intro u hu hrun
    rw [tasks_putStage, mem_putStage] at hu
    rcases hu with ⟨hold, hne⟩ | ⟨s, hs, rfl, _⟩
    · rw [hothers u hold hne] at hrun
      cases hrun
    · exact hstage s hs hrun
  cases move with
  | run timeout request rest =>
      have hspace : m.link.commands.length < Link.maxCommands := by
        rw [hqueue]; decide
      obtain ⟨hqueued, hcommands⟩ :=
        Run.commands_start hspace request.value timeout m.now
      rw [hqueue] at hcommands
      rw [value_carryOut_run]
      generalize (Run.start request.value timeout m.now m.link).value = started
        at hqueued hcommands ⊢
      have hentered : (Stage.running rest started.1).entered? =
          some started.1.transaction.command := if_pos hqueued
      have hone : m.transmitter.inHand ++ started.2.commands =
          [started.1.transaction.command] := by
        rw [hhand, hcommands]
        rfl
      refine ⟨hput ?_, Or.inr ⟨⟨id, .running rest started.1⟩, ?_, _,
        hentered, hone⟩⟩
      · rintro s ⟨⟩ _
        rw [hentered]
        rfl
      · rw [tasks_putStage]
        exact mem_putStage.2 (Or.inr ⟨_, rfl, rfl, hid⟩)
  | pause ms rest =>
      refine ⟨@hput m.link (some (.pausing rest (m.now + ms))) ?_,
        Or.inl hempty⟩
      rintro s ⟨⟩ hrun
      cases hrun
  | finish outcome => exact ⟨@hput m.link none (by simp), Or.inl hempty⟩

/-- What is left when a run has ended is still left when the task has gone on,
and it is nobody's command then. -/
theorem empty_of_carryOut (hfew : m.unwritten.length ≤ 1) {move : Move}
    (h : (m.carryOut id move).value.IsSerial) : m.unwritten = [] := by
  have hnobody {stage? : Option Stage}
      (hstage : ∀ s ∈ stage?, s.isRunning = false)
      (hserial : (m.putStage id stage?).IsSerial)
      (hsame : (m.putStage id stage?).unwritten = m.unwritten) :
      m.unwritten = [] := by
    rcases hserial with hnil | ⟨u, hu, c, hc, _⟩
    · rw [← hsame]
      exact hnil
    · have hrun := isRunning_of_entered? hc
      rcases mem_putStage.1 hu with ⟨hold, hne⟩ | ⟨s, hs, rfl, _⟩
      · rw [hothers u hold hne] at hrun
        cases hrun
      · have hno := hstage s hs
        rw [hrun] at hno
        cases hno
  cases move with
  | run timeout request rest =>
      have hspace : m.link.commands.length < Link.maxCommands := by
        rw [unwritten, List.length_append] at hfew
        rw [Link.maxCommands]
        omega
      obtain ⟨_, hcommands⟩ :=
        Run.commands_start hspace request.value timeout m.now
      have hmore : (m.carryOut id (.run timeout request rest)).value.unwritten =
          m.transmitter.inHand ++
            (Run.start request.value timeout m.now m.link).value.2.commands :=
            rfl
      have hone := h.length_le
      -- The command of the run that begins is one already.
      rw [hmore, hcommands, ← List.append_assoc, List.length_append,
        List.length_singleton] at hone
      exact List.length_eq_zero_iff.1 (by rw [unwritten]; omega)
  | pause ms rest =>
      refine @hnobody (some (.pausing rest (m.now + ms))) ?_ h rfl
      rintro s ⟨⟩
      rfl
  | finish outcome => exact @hnobody none (by simp) h rfl

end CarryOut

/-- While somebody else's command is to be written, the line
is not to be had. -/
theorem Serial.empty_of_canGoOn {t : Task} {plan : Plan} (h : m.Serial)
    (ht : t ∈ m.tasks) (hs : m.CanGoOn t plan) : m.unwritten = [] := by
  rcases h.commands with hnil | ⟨u, hu, c, hc, _⟩
  · exact hnil
  · have hrun := isRunning_of_entered? hc
    by_cases hid : u.id = t.id
    · rw [h.orderly.eq_of_id hu ht hid, hs.isRunning] at hrun
      cases hrun
    · rw [h.orderly.isRunning_eq_false ht hs.hasLine u hu hid] at hrun
      cases hrun

/-- A task that goes takes nothing along, unless it was running a request. -/
theorem Serial.removeTask (h : m.Serial)
    (hends : ∀ t ∈ m.tasks, t.id = id → t.stage.isRunning = true →
      m.unwritten = []) :
    (m.removeTask id).HasEntered ∧ (m.removeTask id).IsSerial := by
  have hmem {u : Task} :
      u ∈ (m.removeTask id).tasks ↔ u ∈ m.tasks ∧ u.id ≠ id :=
    (@mem_putStage m id none u).trans (by simp)
  refine ⟨fun u hu => h.entered u (hmem.1 hu).1, ?_⟩
  rcases h.commands with hnil | ⟨u, hu, c, hc, hone⟩
  · exact Or.inl hnil
  · by_cases hid : u.id = id
    · exact Or.inl (hends u hu hid (isRunning_of_entered? hc))
    · exact Or.inr ⟨u, hmem.2 ⟨hu, hid⟩, c, hc, hone⟩

theorem Orderly.glance_eq {t : Task} {plan : Plan} {run : Run} (ho : m.Orderly)
    (ht : t ∈ m.tasks) (hs : t.stage = .running plan run)
    (hmove : run.canMove m.now m.link = true) :
    (m.glance t.id (.turn (.task t.id))).result =
      (run.poll m.now m.link).value.2.2 := by
  rw [glance, if_pos rfl, ho.find?_eq ht, Option.elim_some, glanceAt, hs]
  dsimp only
  rw [if_pos hmove]

/-- A run that goes on with the same command changes nothing. -/
theorem Serial.setStage {t : Task} {plan : Plan} {run run' : Run} {link : Link}
    (h : m.Serial) (ht : t ∈ m.tasks) (hs : t.stage = .running plan run)
    (hqueued : run'.queued = true)
    (hcommand : run'.transaction.command = run.transaction.command)
    (hcommands : link.commands = m.link.commands) :
    ({ m with link := link }.setStage t.id (.running plan run')).HasEntered ∧
      ({ m with link := link }.setStage t.id
        (.running plan run')).IsSerial := by
  have hentered : (Stage.running plan run').entered? =
      some run.transaction.command := by
    rw [Stage.entered?, if_pos hqueued, hcommand]
  have hmem {u : Task} : u ∈ ({ m with link := link }.setStage t.id
      (.running plan run')).tasks ↔
      (u ∈ m.tasks ∧ u.id ≠ t.id) ∨ u = ⟨t.id, .running plan run'⟩ := by
    have hput := @mem_putStage { m with link := link } t.id
      (some (.running plan run')) u
    refine hput.trans (or_congr_right ⟨?_, fun hu => ⟨_, rfl, hu, t, ht, rfl⟩⟩)
    rintro ⟨s, ⟨⟩, hu, _⟩
    exact hu
  have hsame : m.transmitter.inHand ++ link.commands = m.unwritten := by
    rw [hcommands]
    rfl
  constructor
  · intro u hu hrun
    rcases hmem.1 hu with ⟨hold, _⟩ | rfl
    · exact h.entered u hold hrun
    · rw [hentered]
      rfl
  · show m.transmitter.inHand ++ link.commands = [] ∨ _
    rcases h.commands with hnil | ⟨u, hu, c, hc, hone⟩
    · exact Or.inl (hsame.trans hnil)
    · -- What is still to be written is the command of this run, for there is
      -- no other run.
      have hid := h.orderly.alone u hu t ht
        (hasLine_of_isRunning (isRunning_of_entered? hc)) (by rw [hs]; rfl)
      rw [h.orderly.eq_of_id hu ht hid, hs, Stage.entered?,
        if_pos (h.queued ht hs)] at hc
      cases hc
      exact Or.inr ⟨_, hmem.2 (Or.inr rfl), _, hentered, hsame.trans hone⟩

theorem serial_continueRun {t : Task} {plan : Plan} {run : Run} (h : m.Serial)
    (ht : t ∈ m.tasks)
    (hs : t.stage = .running plan run) (hmove : run.canMove m.now m.link = true)
    (hprompt : m.endsRun (.turn (.task t.id)) = true → m.unwritten = []) :
    (m.continueRun t.id plan run).value.HasEntered ∧
      (m.continueRun t.id plan run).value.IsSerial := by
  obtain ⟨hq, hcommand, hcommands⟩ :=
    Run.commands_poll (h.queued ht hs) m.now m.link
  rw [endsRun, h.orderly.glance_eq ht hs hmove] at hprompt
  cases hp : (run.poll m.now m.link).value with
  | mk run' rest =>
      obtain ⟨link, result⟩ := rest
      rw [hp] at hq hcommand hcommands hprompt
      cases result with
      | some result =>
          rw [(@value_continueRun_of_some m t.id plan run _ _ _ hp).1]
          have hothers :=
            h.orderly.isRunning_eq_false ht (Or.inl (by rw [hs]; rfl))
          have hempty : m.transmitter.inHand ++ link.commands = [] := by
            rw [hcommands]
            exact hprompt rfl
          exact @serial_carryOut { m with link := link } t.id hothers ⟨t,
            ht, rfl⟩ hempty _
      | none =>
          rw [(@value_continueRun_of_none m t.id plan run _ _ hp).1]
          exact h.setStage ht hs hq hcommand hcommands

theorem serial_pollTask {t : Task} {y : Traced Output Modem} (h : m.Serial)
    (ht : t ∈ m.tasks) (hy : m.pollTask t = some y)
    (hprompt : m.endsRun (.turn (.task t.id)) = true → m.unwritten = []) :
    y.value.HasEntered ∧ y.value.IsSerial := by
  rcases pollTask_cases hy with ⟨hs, receipt, urcs, rfl⟩ | ⟨plan, hs, rfl⟩ |
      ⟨plan, run, hs, hmove, rfl⟩
  · refine h.removeTask fun u hu hid hrun => ?_
    rw [h.orderly.eq_of_id hu ht hid, hs] at hrun
    cases hrun
  · exact serial_carryOut (h.orderly.isRunning_eq_false ht hs.hasLine) ⟨t, ht,
      rfl⟩ (h.empty_of_canGoOn ht hs) plan.next
  · exact serial_continueRun h ht hs hmove hprompt

/-! ## Commands in a history -/

/-! ### The transmitter's part -/

theorem eq_of_mem_inHand_offering {c command : Command} {rest : List UInt8}
    (h : c ∈ (Transmitter.offering command rest).inHand) : c = command := by
  cases rest with
  | nil => cases h
  | cons b rest => exact List.mem_singleton.1 h

theorem rest_eq_nil_of_inHand {t : Transmitter} (h : t.inHand = []) :
    t.rest = [] := by
  cases t with
  | idle => rfl
  | flushing => rfl
  | writing command rest ne_nil => cases h

theorem writes_append (xs ys : List Output) :
    writes (xs ++ ys) = writes xs ++ writes ys :=
  List.filterMap_append

theorem writes_shown {α : Type} (x : Logged α) : writes x.shown.trace = [] := by
  rw [writes, Logged.shown, Traced.trace_mapTrace, List.filterMap_map]
  exact List.filterMap_eq_nil_iff.2 fun _ _ => rfl

/-- What is left of one command is what there was before, less what has been
written, or nothing if a write has failed. -/
structure Sent (m : Modem) (outs : List Output) (m' : Modem) : Prop where
  unwritten : m'.unwritten <:+ m.unwritten
  rest : (∀ c ∈ m.transmitter.inHand, m.transmitter.rest <:+
    Text.bytes c.render.value) →
      ∀ c ∈ m'.transmitter.inHand, m'.transmitter.rest <:+
      Text.bytes c.render.value
  silent : m.unwritten = [] → writes outs = []
  unsent : m.unwritten.length ≤ 1 →
    (writes outs).flatten ++ m'.unsent = m.unsent ∨ m'.unwritten = [] ∧
    (writes outs).flatten <+: m.unsent

theorem Sent.refl (m : Modem) : Sent m [] m :=
  ⟨List.suffix_rfl, id, fun _ => rfl, fun _ => Or.inl rfl⟩

theorem Sent.trans {m' m'' : Modem} {outs outs' : List Output}
    (h : Sent m outs m') (h' : Sent m' outs' m'') :
    Sent m (outs ++ outs') m'' where
  unwritten := h'.unwritten.trans h.unwritten
  rest := h'.rest ∘ h.rest
  silent hnil := by
    have hnil' : m'.unwritten = [] := List.suffix_nil.1 (hnil ▸ h.unwritten)
    rw [writes_append, h.silent hnil, h'.silent hnil']
    rfl
  unsent hfew := by
    rw [writes_append, List.flatten_append]
    rcases h.unsent hfew with hsame | ⟨hnil, hpart⟩
    · rcases h'.unsent (Nat.le_trans h.unwritten.length_le hfew) with
          hsame' | ⟨hnil', hpart'⟩
      · exact Or.inl (by rw [List.append_assoc, hsame', hsame])
      · refine Or.inr ⟨hnil', ?_⟩
        rw [← hsame]
        exact (List.prefix_append_right_inj _).2 hpart'
    · rw [h'.silent hnil, List.flatten_nil, List.append_nil]
      exact Or.inr ⟨List.suffix_nil.1 (hnil ▸ h'.unwritten), hpart⟩

theorem Sending.sent {m' : Modem} {outs : List Output} (h : m.Sending outs m') :
    Sent m outs m' := by
  cases h with
  | @take command rest hidle hcommands =>
      have hhand : m.transmitter.inHand = [] := by rw [hidle]; rfl
      have hsilent : writes (command.render.shown.trace ++
          [.notice (.sending command.render.value)]) = [] := by
        rw [writes_append, writes_shown]
        rfl
      refine ⟨?_, fun _ c hc => ?_, fun _ => hsilent, fun _ => Or.inl ?_⟩
      · rw [unwritten, unwritten, hhand, hcommands]
        cases Text.bytes command.render.value with
        | nil => exact List.suffix_cons _ _
        | cons b bytes => exact List.suffix_rfl
      · refine ⟨[], ?_⟩
        rw [eq_of_mem_inHand_offering hc, Transmitter.rest_offering,
          List.nil_append]
      · rw [hsilent, unsent, unsent, Transmitter.rest_offering,
          rest_eq_nil_of_inHand hhand, hcommands]
        rfl
  | @write command rest ne_nil n hwriting hn =>
      have hhand : m.transmitter.inHand = [command] := by rw [hwriting]; rfl
      have hrest : m.transmitter.rest = rest := by rw [hwriting]; rfl
      refine ⟨?_, fun hsuffix c hc => ?_, fun hnil => ?_, fun _ => Or.inl ?_⟩
      · rw [unwritten, unwritten, hhand]
        cases rest.drop n with
        | nil => exact List.suffix_cons _ _
        | cons b bytes => exact List.suffix_rfl
      · rw [eq_of_mem_inHand_offering hc, Transmitter.rest_offering]
        have hbefore :=
          hsuffix command (by rw [hhand]; exact List.mem_singleton_self _)
        rw [hrest] at hbefore
        exact (List.drop_suffix n rest).trans hbefore
      · rw [unwritten, hhand] at hnil
        cases hnil
      · show (rest.take n ++ []) ++ Modem.unsent _ = _
        rw [unsent, unsent, Transmitter.rest_offering, hrest, List.append_nil,
          ← List.append_assoc, List.take_append_drop]
  | @failWrite command rest ne_nil hwriting _ =>
      have hhand : m.transmitter.inHand = [command] := by rw [hwriting]; rfl
      refine ⟨?_, fun _ c hc => absurd hc List.not_mem_nil, fun _ => rfl,
        fun hfew => Or.inr ⟨?_, List.nil_prefix⟩⟩
      · rw [unwritten, unwritten, hhand]
        exact List.suffix_cons _ _
      · rw [unwritten, hhand, List.length_append, List.length_singleton] at hfew
        have hqueue : m.link.commands = [] :=
          List.length_eq_zero_iff.1 (by omega)
        exact hqueue
  | flush hflushing _ | failFlush hflushing _ =>
      have hhand : m.transmitter.inHand = [] := by rw [hflushing]; rfl
      refine ⟨?_, fun _ c hc => absurd hc List.not_mem_nil, fun _ => rfl,
        fun _ => Or.inl ?_⟩
      · rw [unwritten, unwritten, hhand]
        exact List.suffix_rfl
      · rw [unsent, unsent, rest_eq_nil_of_inHand hhand]
        rfl

/-- A turn of the transmitter writes what is left, from its beginning on,
and nothing else. -/
theorem sent_transmit (m : Modem) : Sent m m.transmit.trace m.transmit.value :=
  transmit_induction (fun _ _ _ _ hsending hm => hm.trans hsending.sent)
    (.refl m)

/-! ### Everybody's part -/

theorem queue_listen (times : Nat) (m : Modem) :
    (listen times m).value.transmitter = m.transmitter ∧
      (listen times m).value.link.commands = m.link.commands := by
  induction times generalizing m with
  | zero => exact ⟨rfl, rfl⟩
  | succ times ih => exact ih _

/-- Nothing from outside has to do with commands. -/
theorem queue_act (m : Modem) (a : Action) :
    (m.act a).value.transmitter = m.transmitter ∧
      (m.act a).value.link.commands = m.link.commands := by
  cases a with
  | begin job =>
      show (m.begin job).value.transmitter = _ ∧
          (m.begin job).value.link.commands = _
      rw [value_begin]
      exact ⟨rfl, rfl⟩
  | arrive data =>
      rw [act, Traced.value_pure]
      split <;> exact ⟨rfl, rfl⟩
  | listen times => exact queue_listen times m
  | cancel id => exact ⟨rfl, rfl⟩
  | failRead => exact ⟨rfl, rfl⟩
  | close => exact ⟨rfl, rfl⟩
  | setTransmitting on => exact ⟨rfl, rfl⟩
  | setWriter w => exact ⟨rfl, rfl⟩
  | wake => exact ⟨rfl, rfl⟩
  | wait ms => exact ⟨rfl, rfl⟩

/-- Whoever leaves the transmitter and the queue as they are sends nothing. -/
theorem sent_of_queue {m' : Modem}
    (htransmitter : m'.transmitter = m.transmitter)
    (hcommands : m'.link.commands = m.link.commands) : Sent m [] m' := by
  have hsame : m'.unwritten = m.unwritten := by
    rw [unwritten, unwritten, htransmitter, hcommands]
  refine ⟨hsame ▸ List.suffix_rfl, ?_, fun _ => rfl, fun _ => Or.inl ?_⟩
  · rw [htransmitter]
    exact id
  · rw [unsent, unsent, htransmitter, hcommands]
    rfl

/-- Only in its own turn the transmitter does anything. -/
theorem transmitter_happen {x : Happening} (hx : x ≠ .turn .transmitter) :
    (m.happen x).value.transmitter = m.transmitter := by
  cases x with
  | action a => exact (m.queue_act a).1
  | turn p =>
      cases p with
      | transmitter => exact absurd rfl hx
      | receiver =>
          rw [happen_receiver]
          exact (received_receive m).transmitter
      | task id => exact (m.sameEnds_task id).transmitter

theorem rest_happen (x : Happening)
    (h : ∀ c ∈ m.transmitter.inHand, m.transmitter.rest <:+
      Text.bytes c.render.value) :
    ∀ c ∈ (m.happen x).value.transmitter.inHand,
      (m.happen x).value.transmitter.rest <:+ Text.bytes c.render.value := by
  by_cases hx : x = .turn .transmitter
  · rw [hx, happen_transmitter]
    exact (sent_transmit m).rest h
  · rw [transmitter_happen hx]
    exact h

theorem unwritten_happen {x : Happening}
    (hstuck : ∀ id, x = .turn (.task id) → m.poll (.task id) = none) :
    (m.happen x).value.unwritten <:+ m.unwritten := by
  cases x with
  | action a =>
      exact (sent_of_queue (m.queue_act a).1 (m.queue_act a).2).unwritten
  | turn p =>
      cases p with
      | receiver =>
          rw [happen_receiver]
          have hr := received_receive m
          exact (sent_of_queue hr.transmitter hr.commands).unwritten
      | transmitter =>
          rw [happen_transmitter]
          exact (sent_transmit m).unwritten
      | task id =>
          have hsame : m.happen (.turn (.task id)) = pure m := by
            rw [happen, hstuck id rfl]
            rfl
          rw [hsame]
          exact List.suffix_rfl

theorem serial_happen {x : Happening} (h : m.Serial)
    (hprompt : m.endsRun x = true → m.unwritten = []) :
    (m.happen x).value.Serial := by
  suffices hs : (m.happen x).value.HasEntered ∧ (m.happen x).value.IsSerial from
    ⟨orderly_happen h.orderly x, hs.1, hs.2, rest_happen x h.rest⟩
  have hother (htasks : (m.happen x).value.tasks = m.tasks)
      (hstuck : ∀ id, x = .turn (.task id) → m.poll (.task id) = none) :
      (m.happen x).value.HasEntered ∧ (m.happen x).value.IsSerial :=
    ⟨h.entered.of_tasks htasks,
      h.commands.of_tasks htasks (unwritten_happen hstuck)⟩
  rcases m.happen_cases x with ⟨job, rfl⟩ | ⟨id, rfl⟩ | ⟨ms, rfl⟩ | rfl |
      ⟨t, y, ht, rfl, _, hy, he⟩ | ⟨_, hstuck, hkept⟩
  · have hv : (m.happen (.action (.begin job))).value = (m.begin job).value :=
      rfl
    rw [hv, value_begin]
    refine ⟨fun t ht hrun => ?_, ?_⟩
    · rcases List.mem_append.1 ht with hold | hnew
      · exact h.entered t hold hrun
      · rw [List.mem_singleton.1 hnew] at hrun
        cases job <;> cases hrun
    · rcases h.commands with hnil | ⟨t, ht, hc⟩
      · exact Or.inl hnil
      · exact Or.inr ⟨t, List.mem_append_left _ ht, hc⟩
  · exact h.removeTask fun t ht hid hrun =>
      hprompt (List.any_eq_true.2 ⟨t, ht, by simp [hid, hrun]⟩)
  · exact hother rfl nofun
  · rw [happen_receiver] at hother ⊢
    exact hother (received_receive m).tasks nofun
  · rw [he]
    exact serial_pollTask h ht hy hprompt
  · exact hother hkept.tasks hstuck

/-- A run ends when its task is given up, or in a turn of its task that
shows its result. -/
theorem endsRun_cases {x : Happening} (h : m.endsRun x = true) :
    (∃ t ∈ m.tasks, x = .action (.cancel t.id) ∧ t.stage.isRunning = true) ∨
    ∃ t ∈ m.tasks, ∃ plan run result, t.stage = .running plan run ∧
      m.happen x = m.continueRun t.id plan run ∧
      (run.poll m.now m.link).value.2.2 = some result := by
  unfold endsRun at h
  split at h
  · next id =>
      rw [glance, if_pos rfl] at h
      cases hfind : m.tasks.find? (·.id == id) with
      | none =>
          rw [hfind] at h
          cases h
      | some t =>
          rw [hfind, Option.elim_some, glanceAt] at h
          split at h
          · next plan run hs =>
              split at h
              · next hmove =>
                  obtain ⟨result, hresult⟩ := Option.isSome_iff_exists.1 h
                  have hid : t.id = id := by simpa using List.find?_some hfind
                  refine Or.inr ⟨t, List.mem_of_find?_eq_some hfind, plan, run,
                    result, hs, ?_, hresult⟩
                  rw [happen, poll, hfind, Option.bind_some, pollTask, hs]
                  dsimp only
                  rw [if_pos hmove, hid]
                  rfl
              · cases h
          all_goals cases h
  · unfold givesUp at h
    split at h
    · next id _ =>
        obtain ⟨t, ht, hgone⟩ := List.any_eq_true.1 h
        rw [Bool.and_eq_true, beq_iff_eq] at hgone
        obtain ⟨rfl, hrun⟩ := hgone
        exact Or.inl ⟨t, ht, rfl, hrun⟩
    · cases h

/-- A run that ends before its command has been written leaves it for nobody. -/
theorem Serial.empty_of_endsRun {x : Happening} (h : m.Serial)
    (hx : m.endsRun x = true)
    (hserial : (m.happen x).value.IsSerial) : m.unwritten = [] := by
  rcases endsRun_cases hx with ⟨t, ht, rfl, hrun⟩ |
      ⟨t, ht, plan, run, result, hs, hv, hr⟩
  · rcases hserial with hnil | ⟨u, hu, c, hc, _⟩
    · exact hnil
    · -- Then another task would be running a request beside the one that
      -- was given up.
      obtain ⟨hold, hne⟩ := List.mem_filter.1 hu
      have hid := h.orderly.alone u hold t ht
        (hasLine_of_isRunning (isRunning_of_entered? hc))
        (hasLine_of_isRunning hrun)
      exact absurd hid (by simpa using hne)
  · have hothers := h.orderly.isRunning_eq_false ht (Or.inl (by rw [hs]; rfl))
    obtain ⟨_, _, hcommands⟩ := Run.commands_poll (h.queued ht hs) m.now m.link
    have hfew := h.commands.length_le
    cases hp : (run.poll m.now m.link).value with
    | mk run' rest =>
        obtain ⟨link, _⟩ := rest
        rw [hp] at hr hcommands
        cases hr
        rw [hv, (@value_continueRun_of_some m t.id plan
          run _ _ _ hp).1] at hserial
        have hsame : m.transmitter.inHand ++ link.commands = m.unwritten := by
          rw [hcommands]
          rfl
        have hfew' : (m.transmitter.inHand ++ link.commands).length ≤ 1 := by
          rw [hsame]
          exact hfew
        have hempty :=
          @empty_of_carryOut { m with link := link } t.id hothers
            hfew' _ hserial
        exact hsame.symm.trans hempty

theorem isPrompt_append (m : Modem) (hs hs' : List Happening) :
    m.IsPrompt (hs ++ hs') ↔ m.IsPrompt hs ∧
    (m.follow hs).value.IsPrompt hs' := by
  induction hs generalizing m with
  | nil => exact ⟨fun h => ⟨trivial, h⟩, fun h => h.2⟩
  | cons x hs ih =>
      show (_ ∧ (m.happen x).value.IsPrompt (hs ++ hs')) ↔
        (_ ∧ (m.happen x).value.IsPrompt hs) ∧
        ((m.happen x).value.follow hs).value.IsPrompt hs'
      rw [ih, and_assoc]

theorem serial_follow {hs : List Happening} (h : m.Serial)
    (hprompt : m.IsPrompt hs) : (m.follow hs).value.Serial := by
  induction hs generalizing m with
  | nil => exact h
  | cons x hs ih => exact ih (serial_happen h hprompt.1) hprompt.2

theorem isPrompt_of_serial {hs : List Happening} (h : m.Serial)
    (hall : ∀ past, past <+: hs → (m.follow past).value.IsSerial) :
    m.IsPrompt hs := by
  induction hs generalizing m with
  | nil => trivial
  | cons x hs ih =>
      have hprompt : m.endsRun x = true → m.unwritten = [] := fun hx =>
        h.empty_of_endsRun hx (hall [x] (List.prefix_append [x] hs))
      exact ⟨hprompt, ih (serial_happen h hprompt) fun past hpast =>
        hall (x :: past) (List.cons_prefix_cons.2 ⟨rfl, hpast⟩)⟩

/-! ## Commands on the wire -/

/-- What is written in a happening is the command of the run in progress, from
where it was left on and as far as it gets. -/
theorem Serial.writes_happen (h : m.Serial) (x : Happening) :
    writes (m.happen x).trace = [] ∨
      ∃ t ∈ m.tasks, ∃ c, t.stage.entered? = some c ∧ m.unwritten = [c] ∧
      (writes (m.happen x).trace).flatten <+: m.unsent ∧
      m.unsent <:+ Text.bytes c.render.value := by
  by_cases hx : x.source = .transmitter
  · rw [Happening.eq_of_transmitter hx, happen_transmitter]
    have hpart : (writes m.transmit.trace).flatten <+: m.unsent := by
      rcases (sent_transmit m).unsent h.commands.length_le with
          hsame | ⟨_, hpart⟩
      · exact ⟨_, hsame⟩
      · exact hpart
    rcases h.commands with hnil | ⟨t, ht, c, hc, hone⟩
    · exact Or.inl ((sent_transmit m).silent hnil)
    · refine Or.inr ⟨t, ht, c, hc, hone, hpart, ?_⟩
      rcases List.append_eq_singleton_iff.1 hone with
          ⟨hhand, hqueue⟩ | ⟨hhand, hqueue⟩
      · rw [unsent, rest_eq_nil_of_inHand hhand, hqueue]
        exact ⟨[], by simp⟩
      · rw [unsent, hqueue, List.flatMap_nil, List.append_nil]
        exact h.rest c (by rw [hhand]; exact List.mem_singleton_self c)
  · refine Or.inl (filterMap_happen (fun o ho => ?_) m hx)
    cases o <;> first | rfl | cases ho

/-- At every point of a history nothing is still to be written but the command
of the run in progress, just if at the end of each run all commands have been
written, those in the queue and the one in the transmitter's hand. Then
nothing is left of any command when a run begins, and whatever is written
belongs to the only run that is in progress: it goes on with its command from
where it was left. -/
theorem serial_iff_prompt (hs : List Happening) :
    ((∀ past, past <+: hs → (idle.follow past).value.IsSerial) ↔
      idle.IsPrompt hs) ∧
    (idle.IsPrompt hs → ∀ past x, past ++ [x] <+: hs →
      let m := (idle.follow past).value
      (m.beginsRun x = true → m.unwritten = []) ∧
      (writes (m.happen x).trace = [] ∨
        ∃ t ∈ m.tasks, ∃ c, t.stage.entered? = some c ∧
          (∀ u ∈ m.tasks, u.stage.isRunning = true → u = t) ∧
          m.unwritten = [c] ∧
          (writes (m.happen x).trace).flatten <+: m.unsent ∧
          m.unsent <:+ Text.bytes c.render.value)) := by
  refine ⟨⟨isPrompt_of_serial serial_idle, ?_⟩, ?_⟩
  · rintro hprompt past ⟨rest, rfl⟩
    exact (serial_follow serial_idle
      ((isPrompt_append _ _ _).1 hprompt).1).commands
  · rintro hprompt past x ⟨rest, rfl⟩ m
    rw [List.append_assoc, isPrompt_append] at hprompt
    obtain ⟨hpast, hends, _⟩ := hprompt
    have h : m.Serial := serial_follow serial_idle hpast
    refine ⟨fun hbegins => ?_, (h.writes_happen x).imp_right ?_⟩
    · rw [beginsRun, Bool.and_eq_true, Bool.or_eq_true,
        Bool.not_eq_true'] at hbegins
      rcases hbegins.2 with hrest | hend
      · rcases h.commands with hnil | ⟨t, ht, c, hc, _⟩
        · exact hnil
        · rw [isRunning_eq_true_iff.2 ⟨t, ht,
            isRunning_of_entered? hc⟩] at hrest
          cases hrest
      · exact hends hend
    · rintro ⟨t, ht, c, hc, hone⟩
      refine ⟨t, ht, c, hc, fun u hu hrun => h.orderly.eq_of_id hu ht ?_, hone⟩
      exact h.orderly.alone u hu t ht (hasLine_of_isRunning hrun)
        (hasLine_of_isRunning (isRunning_of_entered? hc))

/-- Two runs, the first of which comes to an end for lack of time after its
command was sent. -/
theorem serial_of_sent_commands :
    let past : List Happening :=
      [.action (.begin .hangUp), .turn (.task 0), .turn .transmitter,
      .action (.wait 5000), .turn (.task 0), .action (.begin .answer),
      .turn (.task 1)]
    let m := (idle.follow past).value
    idle.IsPrompt (past ++ [.turn .transmitter]) ∧ m.IsSerial ∧
    m.link.commands ≠ [] ∧
      writes (m.happen (.turn .transmitter)).trace =
      [Text.bytes "ATA\r\n"] := by
  intro past m
  have hprompt : idle.IsPrompt (past ++ [.turn .transmitter]) := by
    decide +kernel
  exact ⟨hprompt,
    (serial_iff_prompt _).1.2 hprompt past
    (List.prefix_append _ _), by decide +kernel, by decide +kernel⟩

/-- A command that could not be written in time is written in the middle
of the next run. -/
theorem stale_command_written :
    let first : List Happening := [.action (.begin .hangUp), .turn (.task 0),
      .action (.wait 5000), .turn (.task 0)]
    let m := (idle.follow (first ++ [.action (.begin .answer),
      .turn (.task 1)])).value
    (idle.follow first).value.tasks = [] ∧
      (idle.follow first).value.link.commands.map Command.text = ["ATH"] ∧
      m.isRunning = true ∧ m.link.commands.map Command.text = ["ATH", "ATA"] ∧
      ¬ m.IsSerial ∧
      writes (m.happen (.turn .transmitter)).trace =
        [Text.bytes "ATH\r\n", Text.bytes "ATA\r\n"] := by
  intro first m
  have htwo : m.unwritten.length = 2 := by decide +kernel
  refine ⟨List.isEmpty_iff.1 (by decide +kernel), by decide +kernel,
    by decide +kernel, by decide +kernel, fun h => ?_, by decide +kernel⟩
  have hfew := h.length_le
  rw [htwo] at hfew
  omega

-- So is one that the far end lets wait, although the queue is empty
-- when its run ends.
example :
    let first : List Happening :=
      [.action (.setWriter ⟨fun n => if n = 1 then .wait
        else .upTo 2, fun _ => .done, 0, 0⟩), .action (.begin .hangUp),
          .turn (.task 0), .turn .transmitter, .action (.wait 5000)]
    let hs := first ++ [.turn (.task 0), .action (.begin .answer),
      .turn (.task 1), .action .wake]
    (idle.follow first).value.link.commands = [] ∧ ¬ idle.IsPrompt hs ∧
      writes (idle.follow first).trace = [Text.bytes "AT"] ∧
      writes ((idle.follow hs).value.happen (.turn .transmitter)).trace =
        ["H\r", "\n", "AT", "A\r", "\n"].map Text.bytes := by
  decide +kernel

end Modem

end CellModem
