import CellModem.Modem.History
import CellModem.Proofs.Reception

/-!
# One task at a time

Whatever the order of turns, no two tasks ever have the line, and a run that is
under way has not seen its final result yet. As long as no task is given up, the
flag that tells the receiver where lines belong is set exactly while some task
is running a request.

All of this follows from what one turn of a task can do (`Turned`): it ends the
task or brings it to another stage, and touches nothing else but the link. A
turn that has to do with a run empties the queue of received lines, and what it
makes known is told by the stage alone.
-/

namespace CellModem

/-! ## What a plan may make known

A job holds its requests together with the notices given while they are entered.
A number that is too long gives one, but no request makes a message known by
being entered: that is left to the
line (`Job.isPlain_single`, `Job.isPlain_dial`). -/

/-- Whether entering the requests of a plan makes no message known. -/
def Plan.IsPlain : Plan → Prop
  | .single request => messages request.trace = []
  | .session _ entries _ => ∀ e ∈ entries, messages e.request.trace = []
  | .probe _ _ | .echoOff _ => True

/-- Whether entering the requests of a job makes no message known. -/
def Job.IsPlain : Job → Prop
  | .single request => messages request.trace = []
  | .session _ entries => ∀ e ∈ entries, messages e.request.trace = []
  | .bringUp | .nextUrc => True

theorem Job.isPlain_single (q : Request) : (Job.single (pure q)).IsPlain := rfl

theorem Job.isPlain_dial (number : String) : (Job.dial number).IsPlain := by
  show messages (Request.dial <$> PhoneNumber.enter number).trace = []
  rw [Traced.trace_map, PhoneNumber.enter, Traced.trace_bind, messages_append,
    Logged.trace_noteIf, messages_ite _ _ rfl]
  rfl

namespace Move

/-- Whether the next thing is to run a request. -/
def isRun : Move → Bool
  | .run _ _ _ => true
  | .pause _ _ | .finish _ => false

def IsPlain : Move → Prop
  | .run _ request rest => messages request.trace = [] ∧ rest.IsPlain
  | .pause _ rest => rest.IsPlain
  | .finish _ => True

end Move

namespace Plan

theorem isPlain_next {p : Plan} (h : p.IsPlain) : p.next.IsPlain := by
  cases p with
  | single request => exact ⟨h, h⟩
  | probe guard failed => exact ⟨rfl, trivial⟩
  | echoOff guard => exact ⟨rfl, trivial⟩
  | session guard entries results =>
      cases entries with
      | nil => exact trivial
      | cons e entries =>
          exact ⟨h e List.mem_cons_self,
            fun k hk => h k (List.mem_cons_of_mem e hk)⟩

theorem isPlain_resume {p : Plan} (h : p.IsPlain)
    (result : Except Failure Response) : (p.resume result).value.IsPlain := by
  cases p with
  | single request => exact trivial
  | probe guard failed =>
      cases result with
      | ok r => exact ⟨rfl, trivial⟩
      | error failure =>
          rw [resume]
          split
          · exact trivial
          · exact trivial
  | echoOff guard => cases result <;> exact trivial
  | session guard entries results =>
      exact isPlain_next (p := .session guard.restore entries _) h

theorem messages_resume (p : Plan) (result : Except Failure Response) :
    messages (p.resume result).trace = [] := by
  cases p with
  | single request => rfl
  | probe guard failed =>
      cases result with
      | ok r => rfl
      | error failure =>
          rw [resume]
          split
          · rfl
          · rfl
  | echoOff guard => cases result <;> rfl
  | session guard entries results => rfl

end Plan

/-! ## Stages -/

namespace Stage

/-- Whether a request is being run. -/
def isRunning : Stage → Bool
  | .running _ _ => true
  | .listening | .waiting _ | .pausing _ _ => false

/-- Whether a run that is under way is still without its final result. -/
def IsOpen : Stage → Prop
  | .running _ run => run.transaction.complete = false
  | .listening | .waiting _ | .pausing _ _ => True

def IsPlain : Stage → Prop
  | .listening => True
  | .waiting plan | .running plan _ | .pausing plan _ => plan.IsPlain

/-- Whether a turn at this stage empties the queue of received lines. -/
def empties : Stage → Bool
  | .listening => false
  | .waiting plan | .pausing plan _ => plan.next.isRun
  | .running _ _ => true

/-- The messages that a turn at this stage makes known. -/
def toldBy (l : Link) : Stage → List Urc
  | .listening => []
  | .waiting plan | .pausing plan _ =>
    if plan.next.isRun then l.replies.filterMap Urc.ofLine? else []
  | .running _ run => run.toldBy l

end Stage

namespace Modem

/-- Moves a task to another stage, or removes it. -/
def putStage (m : Modem) (id : Nat) : Option Stage → Modem
  | none => m.removeTask id
  | some stage => m.setStage id stage

/-! ## One turn of a task -/

theorem value_carryOut_run (m : Modem) (id : Nat) (timeout : Timeout)
    (request : Logged Request) (rest : Plan) :
    (m.carryOut id (.run timeout request rest)).value =
      { m with link := (Run.start request.value timeout m.now
        m.link).value.2 }.putStage id
          (some (.running rest
            (Run.start request.value timeout m.now m.link).value.1)) :=
  rfl

/-- What it takes to carry out a move. -/
structure Carried (m : Modem) (id : Nat) (move : Move)
    (outs : List Output) (m' : Modem) (stage? : Option Stage) : Prop where
  value : m' = { m with link := m'.link }.putStage id stage?
  hasLine : ∀ s ∈ stage?, s.hasLine = true
  isOpen : ∀ s ∈ stage?, s.IsOpen
  isRunning : stage?.any (·.isRunning) = move.isRun
  awaiting : m'.link.awaiting = (move.isRun || m.link.awaiting)
  replies : m'.link.replies = if move.isRun then [] else m.link.replies
  plain : move.IsPlain → ∀ s ∈ stage?, s.IsPlain
  published : move.IsPlain → published outs =
    if move.isRun then m.link.replies.filterMap Urc.ofLine? else []

theorem carried_carryOut (m : Modem) (id : Nat) (move : Move) :
    ∃ stage?, Carried m id move (m.carryOut id move).trace
    (m.carryOut id move).value stage? := by
  cases move with
  | run timeout request rest =>
      cases hs : (Run.start request.value timeout m.now m.link).value with
      | mk run link =>
          have hv : (m.carryOut id (.run timeout request rest)).value =
              { m with link := link }.setStage id (.running rest run) := by
            simp only [carryOut, Logged.shown, Traced.value_bind,
              Traced.value_mapTrace, Traced.value_pure, hs]
          have hstart := hs.symm.trans (Run.value_start _ _ _ _)
          have hrun := congrArg Prod.fst hstart
          have hlink := congrArg Prod.snd hstart
          dsimp only at hrun hlink
          refine ⟨some (.running rest run), ?_⟩
          rw [hv]
          refine ⟨rfl, ?_, ?_, rfl, ?_, ?_, ?_, ?_⟩
          · rintro s ⟨⟩
            rfl
          · rintro s ⟨⟩
            rw [Stage.IsOpen, hrun, Run.transaction_enqueue]
            rfl
          · show link.awaiting = true
            rw [hlink, Run.awaiting_enqueue]
            rfl
          · show link.replies = []
            rw [hlink, Run.replies_enqueue]
            rfl
          · rintro hplain s ⟨⟩
            exact hplain.2
          · intro hplain
            rw [carryOut, Traced.trace_bind, published_append,
              published_shown, hplain.1, Traced.trace_bind, published_append,
              published_shown, List.nil_append, Logged.shown,
              Traced.value_mapTrace, Run.messages_start]
            exact List.append_nil _
  | pause ms rest =>
      refine ⟨some (.pausing rest (m.now + ms)), rfl, ?_, ?_, rfl, rfl, rfl,
        ?_, fun _ => rfl⟩
      · rintro s ⟨⟩
        rfl
      · rintro s ⟨⟩
        exact trivial
      · rintro hplain s ⟨⟩
        exact hplain
  | finish outcome =>
      have hv : (m.carryOut id (.finish outcome)).value = m.removeTask id := rfl
      refine ⟨none, ?_⟩
      rw [hv]
      exact ⟨rfl, by simp, by simp, rfl, rfl, rfl, by simp, fun _ => rfl⟩

/-- What a turn of a task can do. -/
structure Turned (m : Modem) (t : Task) (outs : List Output) (m' : Modem)
    (stage? : Option Stage) : Prop where
  value : m' = { m with link := m'.link }.putStage t.id stage?
  hasLine : ∀ s ∈ stage?, s.hasLine = true ∧
    (t.stage.hasLine = true ∨ m.isTaken = false)
  isOpen : ∀ s ∈ stage?, s.IsOpen
  awaiting : (t.stage.isRunning = true → m.link.awaiting = true) →
    m'.link.awaiting =
    (stage?.any (·.isRunning) || (!t.stage.isRunning && m.link.awaiting))
  begins : t.stage.isRunning = false →
    m'.link.awaiting = (t.stage.empties || m.link.awaiting)
  replies : m'.link.replies = if t.stage.empties then [] else m.link.replies
  plain : t.stage.IsPlain → ∀ s ∈ stage?, s.IsPlain
  published : t.stage.IsPlain → published outs = t.stage.toldBy m.link

/-- Whether a task can go on with its plan, for the line is free or
its pause is over. -/
def CanGoOn (m : Modem) (t : Task) (plan : Plan) : Prop :=
  t.stage = .waiting plan ∧ m.isTaken = false ∨
    ∃ deadline, t.stage = .pausing plan deadline ∧ deadline ≤ m.now

theorem CanGoOn.isRunning {m : Modem} {t : Task} {plan : Plan}
    (h : m.CanGoOn t plan) : t.stage.isRunning = false := by
  rcases h with ⟨hs, _⟩ | ⟨_, hs, _⟩ <;> rw [hs] <;> rfl

theorem CanGoOn.hasLine {m : Modem} {t : Task} {plan : Plan}
    (h : m.CanGoOn t plan) : t.stage.hasLine = true ∨ m.isTaken = false := by
  rcases h with ⟨_, hfree⟩ | ⟨_, hs, _⟩
  · exact Or.inr hfree
  · rw [hs]
    exact Or.inl rfl

/-- All that a turn of a task can be. -/
theorem pollTask_cases {m : Modem} {t : Task} {x : Traced Output Modem}
    (h : m.pollTask t = some x) :
    (t.stage = .listening ∧ ∃ receipt urcs,
      x = { m with link := { m.link with urcs := urcs } }.carryOut t.id
        (.finish (.heard receipt))) ∨
    (∃ plan, m.CanGoOn t plan ∧ x = m.carryOut t.id plan.next) ∨
    ∃ plan run, t.stage = .running plan run ∧ run.canMove m.now m.link = true ∧
      x = m.continueRun t.id plan run := by
  unfold pollTask at h
  split at h
  · next hs =>
      split at h
      · cases h
      · next receipt urcs _ =>
          cases h
          exact Or.inl ⟨hs, receipt, urcs, rfl⟩
  · next plan hs =>
      split at h
      · cases h
      · next hfree =>
          cases h
          exact Or.inr (Or.inl ⟨plan, Or.inl ⟨hs, by simpa using hfree⟩, rfl⟩)
  · next plan deadline hs =>
      split at h
      · next hdue =>
          cases h
          exact Or.inr (Or.inl ⟨plan, Or.inr ⟨deadline, hs, hdue⟩, rfl⟩)
      · cases h
  · next plan run hs =>
      split at h
      · next hmove =>
          cases h
          exact Or.inr (Or.inr ⟨plan, run, hs, hmove, rfl⟩)
      · cases h

theorem value_continueRun_of_none {m : Modem} {id : Nat} {plan : Plan}
    {run run' : Run} {link : Link}
    (h : (run.poll m.now m.link).value = (run', link, none)) :
    (m.continueRun id plan run).value =
        { m with link := link }.setStage id (.running plan run') ∧
      published (m.continueRun id plan run).trace =
        messages (run.poll m.now m.link).trace := by
  have h' : (run.poll m.now m.link).shown.value = (run', link, none) := h
  rw [continueRun]
  constructor
  · rw [Traced.value_bind, h']
    rfl
  · rw [Traced.trace_bind, published_append, published_shown, h']
    exact List.append_nil _

theorem value_continueRun_of_some {m : Modem} {id : Nat} {plan : Plan}
    {run run' : Run} {link : Link} {result : Except Failure Response}
    (h : (run.poll m.now m.link).value = (run', link, some result)) :
    (m.continueRun id plan run).value =
        ({ m with link := link }.carryOut id (plan.resume result).value).value ∧
      published (m.continueRun id plan run).trace =
      messages (run.poll m.now m.link).trace ++
        published ({ m with link := link }.carryOut id
          (plan.resume result).value).trace := by
  have h' : (run.poll m.now m.link).shown.value = (run', link, some result) := h
  rw [continueRun]
  constructor
  · rw [Traced.value_bind, h']
    rfl
  · rw [Traced.trace_bind, published_append, published_shown, h',
      Traced.trace_bind, published_append, published_shown,
      Plan.messages_resume]
    rfl

/-- A turn at the end of which the line is free, or a new run is under way. -/
theorem turned_of_carried {m : Modem} {t : Task} {plan : Plan}
    {x : Traced Output Modem} (hs : m.CanGoOn t plan)
    (hx : x = m.carryOut t.id plan.next) :
    ∃ stage?, Turned m t x.trace x.value stage? := by
  subst hx
  obtain ⟨stage?, h⟩ := carried_carryOut m t.id plan.next
  have hempties : t.stage.empties = plan.next.isRun := by
    rcases hs with ⟨hs, _⟩ | ⟨_, hs, _⟩ <;> rw [hs] <;> rfl
  have hplain : t.stage.IsPlain → plan.next.IsPlain := by
    rcases hs with ⟨hs, _⟩ | ⟨_, hs, _⟩ <;> rw [hs] <;> exact Plan.isPlain_next
  have htold : t.stage.toldBy m.link =
      if plan.next.isRun then m.link.replies.filterMap Urc.ofLine? else [] := by
    rcases hs with ⟨hs, _⟩ | ⟨_, hs, _⟩ <;> rw [hs] <;> rfl
  refine ⟨stage?, h.value, fun s hmem => ⟨h.hasLine s hmem, hs.hasLine⟩,
    h.isOpen, fun _ => ?_, fun _ => ?_, ?_,
    fun hp => h.plain (hplain hp), fun hp => ?_⟩
  · rw [h.awaiting, h.isRunning, hs.isRunning]
    rfl
  · rw [h.awaiting, hempties]
  · rw [h.replies, hempties]
  · rw [h.published (hplain hp), htold]

theorem turned_running {m : Modem} {t : Task} {plan : Plan} {run : Run}
    (hs : t.stage = .running plan run) (hmove : run.canMove m.now m.link = true)
    (hopen : t.stage.IsOpen) :
    ∃ stage?, Turned m t (m.continueRun t.id plan run).trace
      (m.continueRun t.id plan run).value stage? := by
  rw [hs] at hopen
  obtain ⟨hreplies, hawaiting, hstill, htold⟩ := Run.poll_spec hopen hmove
  have hline : t.stage.hasLine = true := by rw [hs]; rfl
  have hrunning : t.stage.isRunning = true := by rw [hs]; rfl
  have hempties : t.stage.empties = true := by rw [hs]; rfl
  have htoldBy : t.stage.toldBy m.link = run.toldBy m.link := by rw [hs]; rfl
  have hplan : t.stage.IsPlain → plan.IsPlain := by
    rw [hs]
    exact id
  cases hp : (run.poll m.now m.link).value with
  | mk run' rest =>
      obtain ⟨link, result⟩ := rest
      rw [hp] at hreplies hawaiting hstill
      dsimp only at hreplies hawaiting hstill
      cases result with
      | none =>
          obtain ⟨hv, hpub⟩ := @value_continueRun_of_none m t.id plan run _ _ hp
          refine ⟨some (.running plan run'), ?_⟩
          rw [hv]
          refine ⟨rfl, ?_, ?_, fun hat => ?_,
            fun hno => absurd hrunning (by rw [hno]; simp), ?_, ?_, fun _ => ?_⟩
          · rintro s ⟨⟩
            exact ⟨rfl, Or.inl hline⟩
          · rintro s ⟨⟩
            exact hstill rfl
          · show link.awaiting = true
            rw [hawaiting, hat hrunning]
            rfl
          · rw [hempties]
            exact hreplies
          · rintro hplain s ⟨⟩
            exact hplan hplain
          · rw [hpub, htold, htoldBy]
      | some result =>
          obtain ⟨hv, hpub⟩ :=
            @value_continueRun_of_some m t.id plan run _ _ _ hp
          obtain ⟨stage?, h⟩ :=
            carried_carryOut { m with link := link } t.id
              (plan.resume result).value
          have hreplies' : link.replies.filterMap Urc.ofLine? = [] := by
            rw [hreplies]; rfl
          refine ⟨stage?, ?_⟩
          rw [hv]
          refine ⟨h.value, fun s hmem => ⟨h.hasLine s hmem, Or.inl hline⟩,
            h.isOpen, fun _ => ?_,
            fun hno => absurd hrunning (by rw [hno]; simp), ?_,
            fun hp => h.plain (Plan.isPlain_resume (hplan hp) _), fun hp => ?_⟩
          · rw [h.awaiting, h.isRunning, hrunning]
            show (_ || link.awaiting) = _
            rw [hawaiting]
            rfl
          · rw [h.replies, hempties, if_pos rfl]
            show (if _ then [] else link.replies) = []
            rw [hreplies]
            split <;> rfl
          · rw [hpub, htold, htoldBy,
              h.published (Plan.isPlain_resume (hplan hp) _)]
            show _ ++ (if _ then link.replies.filterMap Urc.ofLine? else []) = _
            rw [hreplies']
            split <;> exact List.append_nil _

theorem turned_pollTask {m : Modem} {t : Task} (hopen : t.stage.IsOpen)
    {x : Traced Output Modem} (h : m.pollTask t = some x) :
    ∃ stage?, Turned m t x.trace x.value stage? := by
  rcases pollTask_cases h with ⟨hs, receipt, urcs, rfl⟩ | ⟨plan, hs, hx⟩ |
      ⟨plan, run, hs, hmove, rfl⟩
  · refine ⟨none,
      rfl, by simp, by simp, fun _ => ?_, fun _ => ?_, ?_, by simp, fun _ => ?_⟩
    · rw [hs]
      rfl
    · rw [hs]
      rfl
    · rw [hs]
      rfl
    · rw [hs]
      rfl
  · exact turned_of_carried hs hx
  · exact turned_running hs hmove hopen

/-! ## What everything else leaves alone -/

/-- A happening that has nothing to do with the tasks, the lines or the flag. -/
structure Kept (m : Modem) (outs : List Output) (m' : Modem) : Prop where
  tasks : m'.tasks = m.tasks
  begun : m'.begun = m.begun
  awaiting : m'.link.awaiting = m.link.awaiting
  replies : m'.link.replies = m.link.replies
  receiver : m'.receiver = m.receiver
  now : m'.now = m.now
  published : published outs = []

theorem Kept.refl (m : Modem) : Kept m [] m :=
  ⟨rfl, rfl, rfl, rfl, rfl, rfl, rfl⟩

theorem Kept.trans {m m' m'' : Modem} {outs outs' : List Output}
    (h : Kept m outs m') (h' : Kept m' outs' m'') :
    Kept m (outs ++ outs') m'' where
  tasks := h'.tasks.trans h.tasks
  begun := h'.begun.trans h.begun
  awaiting := h'.awaiting.trans h.awaiting
  replies := h'.replies.trans h.replies
  receiver := h'.receiver.trans h.receiver
  now := h'.now.trans h.now
  published := by rw [published_append, h.published, h'.published]; rfl

theorem Sending.kept {m m' : Modem} {outs : List Output}
    (h : m.Sending outs m') :
    Kept m outs m' := by
  cases h with
  | @take command rest _ _ =>
      have hrender : published command.render.shown.trace = [] := by
        rw [published_shown, Command.render, Traced.trace_bind, messages_append,
          Logged.trace_noteIf, messages_ite _ _ rfl]
        rfl
      refine ⟨rfl, rfl, rfl, rfl, rfl, rfl, ?_⟩
      rw [published_append, hrender]
      rfl
  | write _ _ => exact ⟨rfl, rfl, rfl, rfl, rfl, rfl, rfl⟩
  | failWrite _ _ => exact ⟨rfl, rfl, rfl, rfl, rfl, rfl, rfl⟩
  | flush _ _ => exact ⟨rfl, rfl, rfl, rfl, rfl, rfl, rfl⟩
  | failFlush _ _ => exact ⟨rfl, rfl, rfl, rfl, rfl, rfl, rfl⟩

/-- What the transmitter keeps in each piece of its work, with the outputs made
so far, it keeps in a turn. -/
theorem transmit_induction {motive : List Output → Modem → Prop}
    (keeps : ∀ outs m outs' m', Sending m outs' m' → motive outs m →
      motive (outs ++ outs') m')
    {m : Modem} (h : motive [] m) : motive m.transmit.trace m.transmit.value :=
  Traced.exhaust_induction
    (fun outs m' _ hm hx => keeps outs m' _ _ (sending_transmitStep hx) hm)
    [] m h

theorem kept_transmit (m : Modem) : Kept m m.transmit.trace m.transmit.value :=
  transmit_induction (fun _ _ _ _ hsending hm => hm.trans hsending.kept)
    (.refl m)

theorem value_begin (m : Modem) (job : Job) : (m.begin job).value =
    { m with
        tasks := m.tasks ++ [⟨m.begun, firstStage job⟩]
        begun := m.begun + 1 } := by
  cases job <;> rfl

theorem kept_listen (times : Nat) (m : Modem) :
    Kept m (listen times m).trace (listen times m).value := by
  induction times generalizing m with
  | zero => exact .refl m
  | succ times ih =>
      have h := ih
          { m with link := { m.link with urcs := m.link.urcs.receive.2 } }
      exact ⟨h.tasks, h.begun, h.awaiting, h.replies, h.receiver,
        h.now, h.published⟩

/-- Apart from beginning a job, giving one up and time, nothing from outside has
to do with tasks. -/
theorem kept_act {m : Modem} {a : Action} (hbegin : ∀ job, a ≠ .begin job)
    (hcancel : ∀ id, a ≠ .cancel id) (hwait : ∀ ms, a ≠ .wait ms) :
    Kept m (m.act a).trace (m.act a).value := by
  cases a with
  | begin job => exact absurd rfl (hbegin job)
  | cancel id => exact absurd rfl (hcancel id)
  | wait ms => exact absurd rfl (hwait ms)
  | arrive data =>
      rw [act, Traced.trace_pure, Traced.value_pure]
      split
      · exact .refl m
      · exact ⟨rfl, rfl, rfl, rfl, rfl, rfl, rfl⟩
  | failRead => exact ⟨rfl, rfl, rfl, rfl, rfl, rfl, rfl⟩
  | close => exact ⟨rfl, rfl, rfl, rfl, rfl, rfl, rfl⟩
  | setTransmitting on => exact ⟨rfl, rfl, rfl, rfl, rfl, rfl, rfl⟩
  | setWriter w => exact ⟨rfl, rfl, rfl, rfl, rfl, rfl, rfl⟩
  | wake => exact ⟨rfl, rfl, rfl, rfl, rfl, rfl, rfl⟩
  | listen times => exact kept_listen times m

theorem happen_receiver (m : Modem) :
    m.happen (.turn .receiver) = m.receive := by
  rw [happen, poll]
  cases h : m.receiveStep with
  | none => exact (Traced.exhaust_of_none h).symm
  | some x => rfl

theorem happen_transmitter (m : Modem) :
    m.happen (.turn .transmitter) = m.transmit := by
  rw [happen, poll]
  cases h : m.transmitStep with
  | none => exact (Traced.exhaust_of_none h).symm
  | some x => rfl

theorem happen_cases (m : Modem) (h : Happening) :
    (∃ job, h = .action (.begin job)) ∨ (∃ id, h = .action (.cancel id)) ∨
    (∃ ms, h = .action (.wait ms)) ∨ h = .turn .receiver ∨
    (∃ t x, t ∈ m.tasks ∧ h = .turn (.task t.id) ∧
      m.tasks.find? (·.id == t.id) = some t ∧ m.pollTask t = some x ∧
      m.happen h = x) ∨
    (h ≠ .turn .receiver ∧
      (∀ id, h = .turn (.task id) → m.poll (.task id) = none) ∧
      Kept m (m.happen h).trace (m.happen h).value) := by
  cases h with
  | action a =>
      by_cases hbegin : ∃ job, a = .begin job
      · obtain ⟨job, rfl⟩ := hbegin
        exact Or.inl ⟨job, rfl⟩
      · by_cases hcancel : ∃ id, a = .cancel id
        · obtain ⟨id, rfl⟩ := hcancel
          exact Or.inr (Or.inl ⟨id, rfl⟩)
        · by_cases hwait : ∃ ms, a = .wait ms
          · obtain ⟨ms, rfl⟩ := hwait
            exact Or.inr (Or.inr (Or.inl ⟨ms, rfl⟩))
          · have hkept : Kept m (m.act a).trace (m.act a).value :=
              kept_act (fun job he => hbegin ⟨job, he⟩)
                (fun id he => hcancel ⟨id, he⟩) fun ms he => hwait ⟨ms, he⟩
            exact Or.inr
              (Or.inr (Or.inr (Or.inr (Or.inr ⟨nofun, nofun, hkept⟩))))
  | turn p =>
      cases p with
      | receiver => exact Or.inr (Or.inr (Or.inr (Or.inl rfl)))
      | transmitter =>
          rw [happen_transmitter]
          exact Or.inr
            (Or.inr (Or.inr (Or.inr (Or.inr ⟨nofun, nofun, kept_transmit m⟩))))
      | task id =>
          cases hp : m.poll (.task id) with
          | none =>
              have hpure : m.happen (.turn (.task id)) = pure m := by
                rw [happen, hp]; rfl
              have hstuck : ∀ k, Happening.turn (.task id) = .turn (.task k) →
                  m.poll (.task k) = none := by
                rintro k ⟨⟩
                exact hp
              rw [hpure]
              exact Or.inr
                (Or.inr (Or.inr (Or.inr (Or.inr ⟨nofun, hstuck, .refl m⟩))))
          | some x =>
              obtain ⟨t, hfind, hx⟩ := Option.bind_eq_some_iff.1 hp
              have hid : t.id = id := by simpa using List.find?_some hfind
              subst hid
              refine Or.inr (Or.inr (Or.inr (Or.inr (Or.inl
                ⟨t, x, List.mem_of_find?_eq_some hfind, rfl, hfind, hx, ?_⟩))))
              rw [happen, hp]
              rfl

/-! ## Tasks leave the ends of the line alone -/

/-- The same ends of the line, where bytes come in and go out. -/
structure SameEnds (m m' : Modem) : Prop where
  receiver : m'.receiver = m.receiver
  wire : m'.wire = m.wire
  transmitter : m'.transmitter = m.transmitter
  writer : m'.writer = m.writer

theorem sameEnds_carryOut (m : Modem) (id : Nat) (move : Move) :
    SameEnds m (m.carryOut id move).value := by
  cases move <;> exact ⟨rfl, rfl, rfl, rfl⟩

theorem sameEnds_continueRun (m : Modem) (id : Nat) (plan : Plan) (run : Run) :
    SameEnds m (m.continueRun id plan run).value := by
  cases hp : (run.poll m.now m.link).value with
  | mk run' rest =>
      obtain ⟨link, result⟩ := rest
      cases result with
      | none =>
          rw [(@value_continueRun_of_none m id plan run _ _ hp).1]
          exact ⟨rfl, rfl, rfl, rfl⟩
      | some result =>
          rw [(@value_continueRun_of_some m id plan run _ _ _ hp).1]
          have h := sameEnds_carryOut { m with link := link } id
              (plan.resume result).value
          exact ⟨h.receiver, h.wire, h.transmitter, h.writer⟩

theorem sameEnds_task (m : Modem) (id : Nat) :
    SameEnds m (m.happen (.turn (.task id))).value := by
  rw [happen]
  cases hp : m.poll (.task id) with
  | none => exact ⟨rfl, rfl, rfl, rfl⟩
  | some y =>
      obtain ⟨t, _, hy⟩ := Option.bind_eq_some_iff.1 hp
      show SameEnds m y.value
      rcases pollTask_cases hy with ⟨_, receipt, urcs, rfl⟩ | ⟨_, _, rfl⟩ |
          ⟨_, _, _, _, rfl⟩
      · have h := sameEnds_carryOut
          { m with link := { m.link with urcs := urcs } } t.id
          (.finish (.heard receipt))
        exact ⟨h.receiver, h.wire, h.transmitter, h.writer⟩
      · exact sameEnds_carryOut _ _ _
      · exact sameEnds_continueRun _ _ _ _

/-! ## The line belongs to one task -/

/-- What holds of the tasks at any time. -/
structure Orderly (m : Modem) : Prop where
  distinct : (m.tasks.map (·.id)).Nodup
  older : ∀ t ∈ m.tasks, t.id < m.begun
  alone : ∀ t ∈ m.tasks, ∀ t' ∈ m.tasks, t.stage.hasLine = true →
    t'.stage.hasLine = true → t.id = t'.id
  isOpen : ∀ t ∈ m.tasks, t.stage.IsOpen

/-- Whether the flag is set exactly while a request is being run. -/
def Attended (m : Modem) : Prop :=
  m.link.awaiting = true ↔ ∃ t ∈ m.tasks, t.stage.isRunning = true

theorem Orderly.eq_of_id {m : Modem} (h : m.Orderly) {t t' : Task}
    (ht : t ∈ m.tasks) (ht' : t' ∈ m.tasks) (hid : t.id = t'.id) : t = t' := by
  have hdistinct := List.pairwise_iff_getElem.1 (List.pairwise_map.1 h.distinct)
  obtain ⟨i, hi, rfl⟩ := List.mem_iff_getElem.1 ht
  obtain ⟨j, hj, rfl⟩ := List.mem_iff_getElem.1 ht'
  rcases Nat.lt_trichotomy i j with hlt | rfl | hlt
  · exact absurd hid (hdistinct i j hi hj hlt)
  · rfl
  · exact absurd hid.symm (hdistinct j i hj hi hlt)

theorem Orderly.find?_eq {m : Modem} (h : m.Orderly) {t : Task}
    (ht : t ∈ m.tasks) : m.tasks.find? (·.id == t.id) = some t := by
  cases hfind : m.tasks.find? (·.id == t.id) with
  | none => exact absurd (List.find?_eq_none.1 hfind t ht) (by simp)
  | some u =>
      have hid : u.id = t.id := by simpa using List.find?_some hfind
      rw [h.eq_of_id (List.mem_of_find?_eq_some hfind) ht hid]

/-! ### When all is quiet -/

theorem IsQuiet.receiveStep_eq_none {m : Modem} (h : m.IsQuiet) :
    m.receiveStep = none := by
  have hpoll := h .receiver (by
    rw [parties]
    exact List.mem_append_right _ List.mem_cons_self)
  rw [poll] at hpoll
  split at hpoll
  · next hnone => exact Option.isNone_iff_eq_none.1 hnone
  · cases hpoll

theorem IsQuiet.pollTask_eq_none {m : Modem} (h : m.IsQuiet)
    (ho : m.Orderly) {t : Task} (ht : t ∈ m.tasks) : m.pollTask t = none := by
  have hpoll := h (.task t.id) (by
    rw [parties, List.append_assoc]
    exact List.mem_append_left _ (List.mem_map_of_mem ht))
  rw [poll, ho.find?_eq ht] at hpoll
  exact hpoll

theorem canMove_of_pollTask {m : Modem} {id : Nat} {plan : Plan} {run : Run}
    (h : m.pollTask ⟨id, .running plan run⟩ = none) :
    run.canMove m.now m.link = false := by
  have hstay : (if run.canMove m.now m.link
    then some (m.continueRun id plan run) else none) =
      none := h
  split at hstay
  · cases hstay
  · next hstill => exact Bool.eq_false_iff.2 hstill

/-- Who has the line keeps everybody else from it. -/
theorem Orderly.cases_of_turn {m : Modem} (h : m.Orderly) {t u : Task}
    (ht : t ∈ m.tasks) (hline : t.stage.hasLine = true) (hu : u ∈ m.tasks)
    (hne : u.id ≠ t.id) {x : Traced Output Modem} (hx : m.pollTask u = some x) :
    ∃ receipt urcs, x =
      { m with link := { m.link with urcs := urcs } }.carryOut u.id
      (.finish (.heard receipt)) := by
  rcases pollTask_cases hx with ⟨_, receipt, urcs, hx⟩ | ⟨plan, hs, _⟩ |
      ⟨plan, run, hs, _⟩
  · exact ⟨receipt, urcs, hx⟩
  · rcases hs.hasLine with huline | hfree
    · exact absurd (h.alone u hu t ht huline hline) hne
    · exact absurd hline (by simpa using List.any_eq_false.1 hfree t ht)
  · exact absurd (h.alone u hu t ht (by rw [hs]; rfl) hline) hne

/-- All that a turn of a task can be while a request is being run: it goes on
with the run, or it is somebody else's who has heard a message. -/
theorem Orderly.turn_of_running {m : Modem} (h : m.Orderly) {id : Nat}
    {plan : Plan} {run : Run} (hmem : ⟨id, .running plan run⟩ ∈ m.tasks)
    {t : Task} (ht : t ∈ m.tasks) {x : Traced Output Modem}
    (hx : m.pollTask t = some x) :
    (t = ⟨id, .running plan run⟩ ∧ run.canMove m.now m.link = true ∧
      x = m.continueRun id plan run) ∨
    t.id ≠ id ∧ ∃ receipt urcs, x =
      { m with link := { m.link with urcs := urcs } }.carryOut t.id
      (.finish (.heard receipt)) := by
  by_cases hid : t.id = id
  · have hmine := h.eq_of_id ht hmem hid
    subst hmine
    rcases pollTask_cases hx with ⟨hs, _⟩ | ⟨_, hs, _⟩ |
        ⟨plan', run', hs, hmove, rfl⟩
    · cases hs
    · cases hs.isRunning
    · cases hs
      exact Or.inl ⟨rfl, hmove, rfl⟩
  · exact Or.inr ⟨hid, h.cases_of_turn hmem rfl ht hid hx⟩

/-- While a task has the line, or may take it, nobody else has it. -/
theorem Orderly.hasLine_eq_false {m : Modem} (h : m.Orderly) {t u : Task}
    (ht : t ∈ m.tasks) (hline : t.stage.hasLine = true ∨ m.isTaken = false)
    (hu : u ∈ m.tasks) (hne : u.id ≠ t.id) : u.stage.hasLine = false := by
  rcases hline with hline | hfree
  · cases huline : u.stage.hasLine with
    | false => rfl
    | true => exact absurd (h.alone u hu t ht huline hline) hne
  · simpa using List.any_eq_false.1 hfree u hu

theorem hasLine_of_isRunning {s : Stage} (h : s.isRunning = true) :
    s.hasLine = true := by
  cases s with
  | running plan run => rfl
  | listening => cases h
  | waiting plan => cases h
  | pausing plan deadline => cases h

theorem tasks_putStage (m : Modem) (link : Link) (id : Nat)
    (stage? : Option Stage) :
    ({ m with link := link }.putStage id stage?).tasks =
    (m.putStage id stage?).tasks := by
  cases stage? <;> rfl

theorem mem_putStage {m : Modem} {id : Nat} {stage? : Option Stage} {u : Task} :
    u ∈ (m.putStage id stage?).tasks ↔ (u ∈ m.tasks ∧ u.id ≠ id) ∨
      ∃ s ∈ stage?, u = ⟨id, s⟩ ∧ ∃ t ∈ m.tasks, t.id = id := by
  cases stage? with
  | none => simp [putStage, removeTask]
  | some s =>
      simp only [putStage, setStage, List.mem_map, Option.mem_def,
        Option.some.injEq, exists_eq_left']
      constructor
      · rintro ⟨t, ht, rfl⟩
        by_cases hid : t.id = id
        · rw [if_pos hid]
          exact Or.inr ⟨rfl, t, ht, hid⟩
        · rw [if_neg hid]
          exact Or.inl ⟨ht, hid⟩
      · rintro (⟨hu, hid⟩ | ⟨rfl, t, ht, hid⟩)
        · exact ⟨u, hu, if_neg hid⟩
        · exact ⟨t, ht, if_pos hid⟩

theorem distinct_putStage {m : Modem}
    (h : (m.tasks.map (·.id)).Nodup) (id : Nat) (stage? : Option Stage) :
    ((m.putStage id stage?).tasks.map (·.id)).Nodup := by
  cases stage? with
  | none => exact h.sublist (List.filter_sublist.map _)
  | some s =>
      have hids : (m.putStage id (some s)).tasks.map (·.id) =
          m.tasks.map (·.id) := by
        simp only [putStage, setStage, List.map_map]
        refine List.map_congr_left fun t _ => ?_
        by_cases hid : t.id = id <;> simp [hid]
      rw [hids]
      exact h

theorem Turned.receiver {m m' : Modem} {t : Task} {outs : List Output}
    {stage? : Option Stage} (h : Turned m t outs m' stage?) :
    m'.receiver = m.receiver := by
  rw [h.value]
  cases stage? <;> rfl

/-- The tasks when one of them has moved to another stage or ended. -/
theorem mem_tasks_putStage {m : Modem} {t u : Task}
    (ht : t ∈ m.tasks) {link : Link} {stage? : Option Stage} :
    u ∈ ({ m with link := link }.putStage t.id stage?).tasks ↔
      (u ∈ m.tasks ∧ u.id ≠ t.id) ∨ ∃ s ∈ stage?, u = ⟨t.id, s⟩ := by
  rw [tasks_putStage, mem_putStage]
  refine or_congr_right ⟨fun ⟨s, hs, hu, _⟩ => ⟨s, hs, hu⟩,
    fun ⟨s, hs, hu⟩ => ?_⟩
  exact ⟨s, hs, hu, t, ht, rfl⟩

theorem mem_putStage_self {m : Modem} {t : Task} (ht : t ∈ m.tasks)
    (link : Link) (s : Stage) :
    ⟨t.id, s⟩ ∈ ({ m with link := link }.putStage t.id (some s)).tasks :=
  (mem_tasks_putStage ht).2 (Or.inr ⟨s, rfl, rfl⟩)

theorem Turned.mem_tasks {m m' : Modem} {t u : Task} {outs : List Output}
    {stage? : Option Stage} (h : Turned m t outs m' stage?) (ht : t ∈ m.tasks) :
    u ∈ m'.tasks ↔ (u ∈ m.tasks ∧ u.id ≠ t.id) ∨
      ∃ s ∈ stage?, u = ⟨t.id, s⟩ := by
  rw [h.value]
  exact mem_tasks_putStage ht

theorem orderly_idle : idle.Orderly :=
  ⟨List.nodup_nil, fun _ h => absurd h List.not_mem_nil,
    fun _ h => absurd h List.not_mem_nil, fun _ h => absurd h List.not_mem_nil⟩

theorem orderly_of_tasks {m m' : Modem} (h : m.Orderly)
    (htasks : m'.tasks = m.tasks) (hbegun : m'.begun = m.begun) :
    m'.Orderly := by
  refine ⟨?_, ?_, ?_, ?_⟩
  · rw [htasks]
    exact h.distinct
  · rw [htasks, hbegun]
    exact h.older
  · rw [htasks]
    exact h.alone
  · rw [htasks]
    exact h.isOpen

theorem orderly_begin {m : Modem} (h : m.Orderly) (job : Job) :
    (m.begin job).value.Orderly := by
  have htasks : (m.begin job).value.tasks =
      m.tasks ++ [⟨m.begun, firstStage job⟩] := by
    rw [value_begin]
  have hbegun : (m.begin job).value.begun = m.begun + 1 := by rw [value_begin]
  have hnew : (firstStage job).hasLine = false := by cases job <;> rfl
  refine ⟨?_, ?_, ?_, ?_⟩
  · rw [htasks, List.map_append]
    refine List.nodup_append.2 ⟨h.distinct, List.pairwise_singleton _ _,
      fun a ha b hb hab => ?_⟩
    obtain ⟨t, ht, rfl⟩ := List.mem_map.1 ha
    rw [List.mem_singleton.1 hb] at hab
    exact absurd hab (Nat.ne_of_lt (h.older t ht))
  · rw [htasks, hbegun]
    intro t ht
    rcases List.mem_append.1 ht with hold | hmem
    · exact Nat.lt_succ_of_lt (h.older t hold)
    · rw [List.mem_singleton.1 hmem]
      exact Nat.lt_succ_self _
  · rw [htasks]
    intro t ht t' ht' hline hline'
    rcases List.mem_append.1 ht with hold | hmem
    · rcases List.mem_append.1 ht' with hold' | hmem'
      · exact h.alone t hold t' hold' hline hline'
      · rw [List.mem_singleton.1 hmem', hnew] at hline'
        cases hline'
    · rw [List.mem_singleton.1 hmem, hnew] at hline
      cases hline
  · rw [htasks]
    intro t ht
    rcases List.mem_append.1 ht with hold | hmem
    · exact h.isOpen t hold
    · rw [List.mem_singleton.1 hmem]
      cases job <;> exact trivial

theorem orderly_removeTask {m : Modem} (h : m.Orderly) (id : Nat) :
    (m.removeTask id).Orderly := by
  have hmem {t : Task} (ht : t ∈ (m.removeTask id).tasks) : t ∈ m.tasks :=
    (List.mem_filter.1 ht).1
  exact ⟨distinct_putStage h.distinct id none, fun t ht => h.older t (hmem ht),
    fun t ht t' ht' => h.alone t (hmem ht) t' (hmem ht'),
    fun t ht => h.isOpen t (hmem ht)⟩

/-- Another stage for a task that has the line or may take it, or none. -/
theorem orderly_putStage {m : Modem} {t : Task} {stage? : Option Stage}
    (h : m.Orderly) (ht : t ∈ m.tasks) (link : Link)
    (hline : ∀ s ∈ stage?, t.stage.hasLine = true ∨ m.isTaken = false)
    (hopen : ∀ s ∈ stage?, s.IsOpen) :
    ({ m with link := link }.putStage t.id stage?).Orderly := by
  -- Nobody else has the line, if the task that had its turn has it now.
  have hothers : ∀ s ∈ stage?, ∀ u ∈ m.tasks, u.id ≠ t.id →
      u.stage.hasLine = false :=
    fun s hs u hu hne => h.hasLine_eq_false ht (hline s hs) hu hne
  have hbegun :
      ({ m with link := link }.putStage t.id stage?).begun = m.begun := by
    cases stage? <;> rfl
  refine ⟨?_, ?_, ?_, ?_⟩
  · rw [tasks_putStage]
    exact distinct_putStage h.distinct _ _
  · intro u hu
    rw [hbegun]
    rcases (mem_tasks_putStage ht).1 hu with ⟨hold, _⟩ | ⟨s, _, rfl⟩
    · exact h.older u hold
    · exact h.older t ht
  · intro u hu u' hu' hu₁ hu₂
    rcases (mem_tasks_putStage ht).1 hu with ⟨hold, hne⟩ | ⟨s, hs, rfl⟩
    · rcases (mem_tasks_putStage ht).1 hu' with ⟨hold', _⟩ | ⟨s', hs', rfl⟩
      · exact h.alone u hold u' hold' hu₁ hu₂
      · rw [hothers s' hs' u hold hne] at hu₁
        cases hu₁
    · rcases (mem_tasks_putStage ht).1 hu' with ⟨hold', hne'⟩ | ⟨s', hs', rfl⟩
      · rw [hothers s hs u' hold' hne'] at hu₂
        cases hu₂
      · rfl
  · intro u hu
    rcases (mem_tasks_putStage ht).1 hu with ⟨hold, _⟩ | ⟨s, hs, rfl⟩
    · exact h.isOpen u hold
    · exact hopen s hs

theorem orderly_turned {m m' : Modem} {t : Task} {outs : List Output}
    {stage? : Option Stage} (h : m.Orderly) (ht : t ∈ m.tasks)
    (hturn : Turned m t outs m' stage?) : m'.Orderly := by
  rw [hturn.value]
  exact orderly_putStage h ht m'.link (fun s hs =>
    (hturn.hasLine s hs).2) hturn.isOpen

theorem orderly_happen {m : Modem} (h : m.Orderly) (x : Happening) :
    (m.happen x).value.Orderly := by
  rcases m.happen_cases x with ⟨job, rfl⟩ | ⟨id, rfl⟩ | ⟨ms, rfl⟩ | rfl |
      ⟨t, y, ht, rfl, _, hy, he⟩ | ⟨_, _, hkept⟩
  · exact orderly_begin h job
  · exact orderly_removeTask h id
  · exact orderly_of_tasks h rfl rfl
  · rw [happen_receiver]
    have hr := received_receive m
    exact orderly_of_tasks h hr.tasks hr.begun
  · obtain ⟨stage?, hturn⟩ := turned_pollTask (h.isOpen t ht) hy
    rw [he]
    exact orderly_turned h ht hturn
  · exact orderly_of_tasks h hkept.tasks hkept.begun

theorem orderly_follow {m : Modem} (h : m.Orderly) (hs : List Happening) :
    (m.follow hs).value.Orderly :=
  @follow_induction (fun _ m => m.Orderly)
    (fun _ _ x h => orderly_happen h x) hs [] m h

/-! ## Whether a request is being run -/

/-- Whether some request is being run. -/
def isRunning (m : Modem) : Bool := m.tasks.any (·.stage.isRunning)

theorem isRunning_eq_true_iff {m : Modem} :
    m.isRunning = true ↔ ∃ t ∈ m.tasks, t.stage.isRunning = true :=
  List.any_eq_true

theorem isRunning_of_tasks {m m' : Modem} (h : m'.tasks = m.tasks) :
    m'.isRunning = m.isRunning := by
  rw [isRunning, isRunning, h]

theorem isRunning_begin (m : Modem) (job : Job) :
    (m.begin job).value.isRunning = m.isRunning := by
  rw [value_begin, isRunning, isRunning]
  cases job <;> simp [firstStage, Stage.isRunning]

/-- Whether a request is being run after a turn is a matter of that task alone,
or of the others alone. -/
theorem Turned.isRunning_eq {m m' : Modem} {t : Task} {outs : List Output}
    {stage? : Option Stage} (ho : m.Orderly) (ht : t ∈ m.tasks)
    (hturn : Turned m t outs m' stage?) : m'.isRunning =
      (stage?.any (·.isRunning) || (!t.stage.isRunning && m.isRunning)) := by
  rw [Bool.eq_iff_iff, Bool.or_eq_true, Bool.and_eq_true, Bool.not_eq_true',
    isRunning_eq_true_iff, isRunning_eq_true_iff, Option.any_eq_true]
  constructor
  · rintro ⟨u, hu, hrun⟩
    rcases (hturn.mem_tasks ht).1 hu with ⟨hold, hne⟩ | ⟨s, hs, rfl⟩
    · refine Or.inr ⟨?_, u, hold, hrun⟩
      cases hmine : t.stage.isRunning with
      | false => rfl
      | true => exact absurd (ho.alone u hold t ht (hasLine_of_isRunning hrun)
          (hasLine_of_isRunning hmine)) hne
    · exact Or.inl ⟨s, hs, hrun⟩
  · rintro (⟨s, hs, hrun⟩ | ⟨hrest, u, hu, hrun⟩)
    · exact ⟨⟨t.id, s⟩, (hturn.mem_tasks ht).2 (Or.inr ⟨s, hs, rfl⟩), hrun⟩
    · refine ⟨u, (hturn.mem_tasks ht).2 (Or.inl ⟨hu, fun hid => ?_⟩), hrun⟩
      rw [ho.eq_of_id hu ht hid, hrest] at hrun
      cases hrun

/-! ## The flag -/

theorem attended_idle : idle.Attended :=
  ⟨nofun, fun ⟨_, h, _⟩ => absurd h List.not_mem_nil⟩

theorem attended_of_tasks {m m' : Modem} (h : m.Attended)
    (htasks : m'.tasks = m.tasks)
    (hawaiting : m'.link.awaiting = m.link.awaiting) : m'.Attended := by
  rw [Attended, htasks, hawaiting]
  exact h

theorem attended_begin {m : Modem} (h : m.Attended) (job : Job) :
    (m.begin job).value.Attended := by
  rw [Attended, ← isRunning_eq_true_iff, isRunning_begin,
    isRunning_eq_true_iff, value_begin]
  exact h

theorem Attended.awaiting_of_isRunning {m : Modem} (h : m.Attended) {t : Task}
    (ht : t ∈ m.tasks) (hrun : t.stage.isRunning = true) :
    m.link.awaiting = true :=
  h.2 ⟨t, ht, hrun⟩

theorem attended_turned {m m' : Modem} {t : Task} {outs : List Output}
    {stage? : Option Stage} (ho : m.Orderly) (h : m.Attended) (ht : t ∈ m.tasks)
    (hturn : Turned m t outs m' stage?) : m'.Attended := by
  have hflag : m.link.awaiting = m.isRunning :=
    Bool.eq_iff_iff.2 (h.trans isRunning_eq_true_iff.symm)
  have hawaiting := hturn.awaiting (h.awaiting_of_isRunning ht)
  rw [Attended, ← isRunning_eq_true_iff, hawaiting,
    hturn.isRunning_eq ho ht, hflag]

theorem attended_happen {m : Modem} (ho : m.Orderly) (h : m.Attended)
    {x : Happening} (hx : ∀ id, x ≠ .action (.cancel id)) :
    (m.happen x).value.Attended := by
  rcases m.happen_cases x with ⟨job, rfl⟩ | ⟨id, rfl⟩ | ⟨ms, rfl⟩ | rfl |
      ⟨t, y, ht, rfl, _, hy, he⟩ | ⟨_, _, hkept⟩
  · exact attended_begin h job
  · exact absurd rfl (hx id)
  · exact attended_of_tasks h rfl rfl
  · rw [happen_receiver]
    have hr := received_receive m
    exact attended_of_tasks h hr.tasks hr.awaiting
  · obtain ⟨stage?, hturn⟩ := turned_pollTask (ho.isOpen t ht) hy
    rw [he]
    exact attended_turned ho h ht hturn
  · exact attended_of_tasks h hkept.tasks hkept.awaiting

end Modem

end CellModem
