import CellModem.Proofs.Turns

/-!
# A run comes to what its transaction would

Between the wire and a run stand a buffer that is filled in pieces, a queue
that is shorter than many replies, and a receiver that stops when the queue is
full. A transaction that is simply shown all the lines, one after the other,
needs none of this. Yet the run comes to the same result and makes the same
messages known, whatever the order of turns, as long as time passes only when
nobody can do anything.

While the run is exchanging, every line framed so far is in one of four places:
taken by the transaction, queued, in the receiver's hand, or not framed yet of
what has been read (`Exchanging`). The receiver cannot run out of time with a
line in its hand, because a full queue means that the run can move.
-/

namespace CellModem

/-! ## Watching a run -/

/-- What is seen of a run: the pieces read meanwhile, the messages it makes
known while it takes lines, and the result. -/
structure Watched where
  reads : List (List UInt8)
  told : List Urc
  result : Option (Except Failure Response)

/-- What is seen first, and then. -/
def Watched.andThen (w v : Watched) : Watched :=
  ⟨w.reads ++ v.reads, w.told ++ v.told, v.result⟩

namespace Modem

/-- What is seen of a task's run when the task gets its turn. -/
def glanceAt (m : Modem) (t : Task) : Watched :=
  match t.stage with
  | .running _ run =>
    if run.canMove m.now m.link then
      ⟨[], messages (run.exchange m.link).trace,
        (run.poll m.now m.link).value.2.2⟩
    else ⟨[], [], none⟩
  | .listening | .waiting _ | .pausing _ _ => ⟨[], [], none⟩

/-- What is seen of a task's run in one happening. -/
def glance (m : Modem) (id : Nat) : Happening → Watched
  | .turn .receiver => ⟨CellModem.reads m.receive.trace, [], none⟩
  | .turn (.task k) =>
    if k = id then (m.tasks.find? (·.id == id)).elim ⟨[], [], none⟩ m.glanceAt
    else ⟨[], [], none⟩
  | .turn .transmitter | .action _ => ⟨[], [], none⟩

/-- What is seen of a task's run in a history, up to its result. -/
def watch (m : Modem) (id : Nat) : List Happening → Watched
  | [] => ⟨[], [], none⟩
  | h :: hs =>
    if (m.glance id h).result.isSome then m.glance id h
    else (m.glance id h).andThen ((m.happen h).value.watch id hs)

/-- Whether nobody has the line, and nothing is under way on it. -/
structure AtRest (m : Modem) : Prop where
  free : m.isTaken = false
  awaiting : m.link.awaiting = false
  commands : m.link.commands = []
  replies : m.link.replies = []
  receiver : m.receiver = .idle
  wire : m.wire = []

/-- A run that has not come to its result: each line is taken, outstanding
or still to come. -/
structure Exchanging (m : Modem) (id : Nat) (plan : Plan)
    (q : Request) (w : Watched) (taken : List Line) : Prop where
  orderly : m.Orderly
  running : ∃ run, ⟨id, .running plan run⟩ ∈ m.tasks ∧ run.queued = true ∧
    run.transaction = (Transaction.start q).value.after taken
  awaiting : m.link.awaiting = true
  inTime : m.receiver.InTime m.now
  notFinal : ∀ l ∈ taken, (Transaction.start q).value.final? l = none
  lines : ∀ more, linesIn (w.reads ++ more) =
    taken ++ m.outstanding ++ sentOn (m.receiver.reach more).1
  told : w.told = Run.told ((Transaction.start q).value.events taken)

end Modem

/-- Whether a run came to what its transaction would, were it shown the lines in
the pieces that were read, and any others behind them. -/
def Watched.Refines (w : Watched) (q : Request) (r : Except Failure Response) :
    Prop :=
  ∀ more, ∃ before result after,
    (Transaction.start q).value.events (linesIn (w.reads ++ more)) =
      before ++ .complete result :: after ∧
    (∀ e ∈ before, e.isComplete = false) ∧ r = result.mapError .modem ∧
    w.told = Run.told before

/-! ## Final results of a transaction that has moved on -/

namespace Transaction

theorem open_after {t : Transaction} (h : t.complete = false)
    {taken : List Line} (htaken : ∀ l ∈ taken, t.final? l = none) :
    (t.after taken).complete = false ∧ (t.after taken).final? = t.final? := by
  rw [after_of_not_final h htaken]
  exact ⟨rfl, rfl⟩

theorem isComplete_of_not_final {t : Transaction} (h : t.complete = false)
    {lines : List Line} (hlines : ∀ l ∈ lines, t.final? l = none) :
    ∀ e ∈ t.events lines, e.isComplete = false := by
  rw [events_of_not_final h hlines]
  intro e he
  obtain ⟨l, _, rfl⟩ := List.mem_map.1 he
  exact isComplete_openEvent t l

end Transaction

namespace Modem

/-! ## One happening -/

variable {m : Modem} {id : Nat} {plan : Plan} {q : Request} {w : Watched}
  {taken : List Line}

theorem Exchanging.of_same {m' : Modem} (h : m.Exchanging id plan q w taken)
    (ho : m'.Orderly) (htasks : ∀ t ∈ m.tasks, t.id = id → t ∈ m'.tasks)
    (hawaiting : m'.link.awaiting = m.link.awaiting)
    (hreplies : m'.link.replies = m.link.replies)
    (hreceiver : m'.receiver = m.receiver)
    (hinTime : m'.receiver.InTime m'.now) :
    m'.Exchanging id plan q (w.andThen ⟨[], [], none⟩) taken where
  orderly := ho
  running := by
    obtain ⟨run, hmem, hrun⟩ := h.running
    exact ⟨run, htasks _ hmem rfl, hrun⟩
  awaiting := hawaiting.trans h.awaiting
  inTime := hinTime
  notFinal := h.notFinal
  lines more := by
    rw [Watched.andThen, List.append_nil, h.lines, hreceiver, outstanding,
      outstanding, hreplies, hreceiver]
  told := (List.append_nil _).trans h.told

theorem Exchanging.receive (h : m.Exchanging id plan q w taken) :
    m.receive.value.Exchanging id plan q
      (w.andThen ⟨CellModem.reads m.receive.trace, [], none⟩) taken := by
  have hr := received_receive m
  obtain ⟨hnot, hinTime⟩ := hr.inTime h.inTime
  refine ⟨orderly_of_tasks h.orderly hr.tasks hr.begun, ?_,
    hr.awaiting.trans h.awaiting, hinTime, h.notFinal, fun more => ?_, ?_⟩
  · rw [hr.tasks]
    exact h.running
  · have hout : m.receive.value.outstanding =
        m.outstanding ++ sentOn (framed m.receive.trace) := by
      rw [hr.outstanding hnot, h.awaiting, if_pos rfl]
    rw [Watched.andThen, List.append_assoc, h.lines, hr.reach, hout,
      sentOn_append]
    simp only [List.append_assoc]
  · exact (List.append_nil _).trans h.told

/-- If nobody can do anything, the run waits for lines and so
does the receiver. -/
theorem Exchanging.of_isQuiet (h : m.Exchanging id plan q w taken)
    (hquiet : m.IsQuiet) :
    m.link.replies = [] ∧ m.receiver.phase = .reading := by
  obtain ⟨run, hmem, hqueued, _⟩ := h.running
  have hstill := canMove_of_pollTask (hquiet.pollTask_eq_none h.orderly hmem)
  rw [Run.canMove, hqueued, if_pos rfl, Bool.or_eq_false_iff] at hstill
  have hreplies : m.link.replies = [] := by simpa using hstill.1
  refine ⟨hreplies, reading_of_receiveStep hquiet.receiveStep_eq_none ?_⟩
  rw [hreplies]
  decide

theorem Exchanging.exchange_of_not_final {run : Run}
    (h : m.Exchanging id plan q w taken) (hqueued : run.queued = true)
    (hrun : run.transaction = (Transaction.start q).value.after taken)
    (hlines : ∀ l ∈ m.link.replies,
      (Transaction.start q).value.final? l = none) :
    (run.exchange m.link).value =
        ({ run with transaction := run.transaction.after m.link.replies },
          { m.link with replies := [] }.publishAll
            (Run.told (run.transaction.events m.link.replies)), none) ∧
      messages (run.exchange m.link).trace =
        Run.told (run.transaction.events m.link.replies) := by
  obtain ⟨hopen, hsame⟩ := @Transaction.open_after _ rfl _ h.notFinal
  rw [← hrun] at hopen hsame
  have he := Run.enqueue_of_queued hqueued m.link
  have hexchange :=
    @Run.exchange_of_not_final run m.link (by rw [he]; exact hqueued) hopen
      (by rw [hsame]; exact hlines)
  rw [he] at hexchange
  exact hexchange

/-- A turn in which the run takes all that is queued, and goes on waiting. -/
theorem Exchanging.stay {run : Run} (h : m.Exchanging id plan q w taken)
    (hmem : ⟨id, .running plan run⟩ ∈ m.tasks) (hqueued : run.queued = true)
    (hrun : run.transaction = (Transaction.start q).value.after taken)
    (hlines : ∀ l ∈ m.link.replies, (Transaction.start q).value.final? l = none)
    (hdue : run.isDue m.now = false)
    (ho : (m.continueRun id plan run).value.Orderly) :
    (m.continueRun id plan run).value.Exchanging id plan q
      (w.andThen ⟨[], messages (run.exchange m.link).trace, none⟩)
      (taken ++ m.link.replies) := by
  obtain ⟨hv, hm⟩ := h.exchange_of_not_final hqueued hrun hlines
  obtain ⟨hpoll, _⟩ := @Run.poll_of_waiting _ _ _ _ m.now hv hdue
  obtain ⟨hvalue, _⟩ := @value_continueRun_of_none m id plan run _ _ hpoll
  refine ⟨ho, ?_, ?_, ?_, ?_, ?_, ?_⟩
  · rw [hvalue]
    refine ⟨{ run with transaction := run.transaction.after m.link.replies },
      mem_putStage_self hmem _ _, hqueued, ?_⟩
    rw [Transaction.after_append, hrun]
  · rw [hvalue]
    exact h.awaiting
  · rw [hvalue]
    exact h.inTime
  · intro l hl
    rcases List.mem_append.1 hl with hold | hnew
    · exact h.notFinal l hold
    · exact hlines l hnew
  · intro more
    rw [hvalue]
    show linesIn ((w.reads ++ []) ++ more) =
      taken ++ m.link.replies ++ m.receiver.inHand ++
      sentOn (m.receiver.reach more).1
    rw [List.append_nil, h.lines, outstanding, ← List.append_assoc taken]
  · show w.told ++ messages (run.exchange m.link).trace = _
    rw [hm, h.told, ← Run.told_append, hrun, ← Transaction.events_append]

theorem Exchanging.refines {run : Run} (h : m.Exchanging id plan q w taken)
    (hqueued : run.queued = true)
    (hrun : run.transaction = (Transaction.start q).value.after taken)
    {before after : List Line} {line : Line} {result : FinalResult}
    (hreplies : m.link.replies = before ++ line :: after)
    (hbefore : ∀ l ∈ before, (Transaction.start q).value.final? l = none)
    (hline : (Transaction.start q).value.final? line = some result) :
    ∃ r, (run.poll m.now m.link).value.2.2 = some r ∧
      (w.andThen ⟨[], messages (run.exchange m.link).trace,
        some r⟩).Refines q r := by
  obtain ⟨hopen, hsame⟩ := @Transaction.open_after _ rfl _ h.notFinal
  rw [← hrun] at hopen hsame
  have he := Run.enqueue_of_queued hqueued m.link
  obtain ⟨hv, hm⟩ :=
    Run.exchange_of_final (by rw [he]; exact hqueued) hopen hreplies
      (by rw [hsame]; exact hbefore) (by rw [hsame]; exact hline)
  obtain ⟨hpoll, _⟩ := @Run.poll_of_some _ _ _ _ _ m.now hv
  have hall : ∀ l ∈ taken ++ before,
      (Transaction.start q).value.final? l = none := by
    intro l hl
    rcases List.mem_append.1 hl with hold | hnew
    · exact h.notFinal l hold
    · exact hbefore l hnew
  refine ⟨_, by rw [hpoll], fun more => ?_⟩
  have hlines : linesIn ((w.reads ++ []) ++ more) =
      (taken ++ before) ++ line :: (after ++ m.receiver.inHand ++
        sentOn (m.receiver.reach more).1) := by
    rw [List.append_nil, h.lines, outstanding, hreplies]
    simp only [List.append_assoc, List.cons_append]
  obtain ⟨hevents, _⟩ :=
    @Transaction.events_of_final _ rfl _ (after ++ m.receiver.inHand ++
      sentOn (m.receiver.reach more).1) _ _ hall hline
  have hresponse : run.transaction.after before =
      (Transaction.start q).value.after (taken ++ before) := by
        rw [hrun, Transaction.after_append]
  refine ⟨_, _, _, (congrArg _ hlines).trans hevents,
    Transaction.isComplete_of_not_final rfl hall, ?_, ?_⟩
  · rw [hresponse, Transaction.after_of_not_final rfl hall]
  · show w.told ++ messages (run.exchange m.link).trace = _
    rw [hm, h.told, ← Run.told_append, hrun, ← Transaction.events_append]

/-- The result of a run is what a job of a single request comes to. -/
theorem finished_continueRun {request : Logged Request} {run : Run}
    {r : Except Failure Response}
    (h : (run.poll m.now m.link).value.2.2 = some r) :
    .finished id (.single r) ∈
      (m.continueRun id (.single request) run).trace := by
  have h' : (run.poll m.now m.link).shown.value.2.2 = some r := h
  rw [continueRun, Traced.trace_bind]
  refine List.mem_append_right _ ?_
  dsimp only
  rw [h']
  exact List.mem_cons_self

theorem Exchanging.own_turn {run : Run} (h : m.Exchanging id plan q w taken)
    (hmem : ⟨id, .running plan run⟩ ∈ m.tasks) (hqueued : run.queued = true)
    (hrun : run.transaction = (Transaction.start q).value.after taken)
    (ho : (m.continueRun id plan run).value.Orderly) :
    ((run.poll m.now m.link).value.2.2 = none ∧ ∃ taken',
      (m.continueRun id plan run).value.Exchanging id plan q
        (w.andThen ⟨[], messages (run.exchange m.link).trace, none⟩) taken') ∨
    ∃ r, (run.poll m.now m.link).value.2.2 = some r ∧ (r ≠ .error .timeout →
      (w.andThen ⟨[], messages (run.exchange m.link).trace,
        some r⟩).Refines q r) := by
  rcases Transaction.exists_first_final (Transaction.start q).value
      m.link.replies with
      hlines | ⟨before, line, after, result, hreplies, hbefore, hline⟩
  · obtain ⟨hv, _⟩ := h.exchange_of_not_final hqueued hrun hlines
    cases hdue : run.isDue m.now with
    | false =>
        obtain ⟨hpoll, _⟩ := @Run.poll_of_waiting _ _ _ _ m.now hv hdue
        exact Or.inl ⟨by rw [hpoll], _, h.stay hmem hqueued hrun hlines hdue ho⟩
    | true =>
        obtain ⟨hpoll, _⟩ := @Run.poll_of_due _ _ _ _ m.now hv hdue
        exact Or.inr ⟨_, by rw [hpoll], fun hne => absurd rfl hne⟩
  · obtain ⟨r, hr, hrefines⟩ := h.refines hqueued hrun hreplies hbefore hline
    exact Or.inr ⟨r, hr, fun _ => hrefines⟩

/-- What is seen of a run that moves. -/
theorem glance_of_canMove {run : Run}
    (hfind : m.tasks.find? (·.id == id) = some ⟨id, .running plan run⟩)
    (hmove : run.canMove m.now m.link = true) : m.glance id (.turn (.task id)) =
      ⟨[], messages (run.exchange m.link).trace,
        (run.poll m.now m.link).value.2.2⟩ := by
  rw [glance, if_pos rfl, hfind, Option.elim_some, glanceAt]
  exact if_pos hmove

/-- A turn of the task that has the run shows nothing if the task has
to go on waiting. -/
theorem Exchanging.glance_of_stuck (h : m.Exchanging id plan q w taken)
    {x : Happening} (hreceiver : x ≠ .turn .receiver)
    (hstuck : ∀ k, x = .turn (.task k) → m.poll (.task k) = none) :
    m.glance id x = ⟨[], [], none⟩ := by
  cases x with
  | action a => rfl
  | turn p =>
      cases p with
      | receiver => exact absurd rfl hreceiver
      | transmitter => rfl
      | task k =>
          rw [glance]
          split
          · next hk =>
              subst hk
              obtain ⟨run, hmem, _⟩ := h.running
              have hfind : m.tasks.find? (·.id == k) =
                  some ⟨k, .running plan run⟩ :=
                h.orderly.find?_eq hmem
              have hpoll := hstuck k rfl
              rw [poll, hfind, Option.bind_some] at hpoll
              rw [hfind, Option.elim_some, glanceAt]
              exact if_neg (Bool.eq_false_iff.1 (canMove_of_pollTask hpoll))
          · rfl

/-- One happening leaves the run exchanging, or shows its result. -/
theorem Exchanging.happen (h : m.Exchanging id plan q w taken) {x : Happening}
    (hx : ∀ k, x ≠ .action (.cancel k))
    (hslow : ∀ ms, x = .action (.wait ms) → m.IsQuiet) :
    ((m.glance id x).result = none ∧
      ∃ taken', (m.happen x).value.Exchanging id plan q
        (w.andThen (m.glance id x)) taken') ∨
    ∃ r, (m.glance id x).result = some r ∧
      (∀ request, plan = .single request →
        .finished id (.single r) ∈ (m.happen x).trace) ∧
      (r ≠ .error .timeout → (w.andThen (m.glance id x)).Refines q r) := by
  have ho := orderly_happen h.orderly x
  rcases m.happen_cases x with ⟨job, rfl⟩ | ⟨k, rfl⟩ | ⟨ms, rfl⟩ | rfl |
      ⟨t, y, ht, rfl, hfind, hy, he⟩ | ⟨hreceiver, hstuck, hkept⟩
  · have hv : (m.happen (.action (.begin job))).value = (m.begin job).value :=
      rfl
    rw [hv, value_begin] at ho ⊢
    exact Or.inl ⟨rfl, taken,
      h.of_same ho (fun t ht _ => List.mem_append_left _ ht) rfl rfl rfl
      h.inTime⟩
  · exact absurd rfl (hx k)
  · -- Time passes only when nobody can do anything, and then no line is in
    -- the receiver's hand.
    obtain ⟨_, hphase⟩ := h.of_isQuiet (hslow ms rfl)
    refine Or.inl ⟨rfl, taken, h.of_same ho (fun t ht _ => ht) rfl rfl rfl ?_⟩
    intro line deadline chunk hp
    have hp' : m.receiver.phase = .handing line deadline chunk := hp
    rw [hphase] at hp'
    cases hp'
  · rw [happen_receiver]
    exact Or.inl ⟨rfl, taken, h.receive⟩
  · obtain ⟨run, hmem, hqueued, hrun⟩ := h.running
    rw [he] at ho ⊢
    rcases h.orderly.turn_of_running hmem ht hy with ⟨rfl, hmove, rfl⟩ |
        ⟨hid, receipt, urcs, rfl⟩
    · rw [glance_of_canMove hfind hmove]
      rcases h.own_turn hmem hqueued hrun ho with
          ⟨hnone, hstill⟩ | ⟨r, hr, hrefines⟩
      · rw [hnone]
        exact Or.inl ⟨rfl, hstill⟩
      · refine Or.inr ⟨r, hr, fun request hplan => ?_, fun hne => ?_⟩
        · subst hplan
          exact finished_continueRun hr
        · rw [hr]
          exact hrefines hne
    · have hglance : m.glance id (.turn (.task t.id)) = ⟨[], [], none⟩ := by
        rw [glance, if_neg hid]
      rw [hglance]
      refine Or.inl ⟨rfl, taken,
        h.of_same ho (fun u hu hk => ?_) rfl rfl rfl h.inTime⟩
      have hne : u.id ≠ t.id := fun hut => hid (hut.symm.trans hk)
      exact List.mem_filter.2 ⟨hu, by simpa using hne⟩
  · rw [h.glance_of_stuck hreceiver hstuck]
    refine Or.inl ⟨rfl, taken,
      h.of_same ho (fun t ht _ => ?_) hkept.awaiting hkept.replies
      hkept.receiver ?_⟩
    · rw [hkept.tasks]
      exact ht
    · rw [hkept.receiver, hkept.now]
      exact h.inTime

/-! ## A whole history -/

theorem isSlow_cons {x : Happening} {hs : List Happening}
    (h : m.IsSlow (x :: hs)) :
    (∀ ms, x = .action (.wait ms) → m.IsQuiet) ∧
    (m.happen x).value.IsSlow hs := by
  cases x with
  | turn p => exact ⟨nofun, h⟩
  | action a =>
      cases a with
      | wait ms => exact ⟨fun _ _ => h.1, h.2⟩
      | begin job => exact ⟨nofun, h⟩
      | cancel id => exact ⟨nofun, h⟩
      | arrive data => exact ⟨nofun, h⟩
      | failRead => exact ⟨nofun, h⟩
      | close => exact ⟨nofun, h⟩
      | setTransmitting on => exact ⟨nofun, h⟩
      | setWriter w => exact ⟨nofun, h⟩
      | wake => exact ⟨nofun, h⟩
      | listen times => exact ⟨nofun, h⟩

/-- Either the run is still exchanging, or the history has shown its result. -/
theorem Exchanging.watch (hs : List Happening)
    (h : m.Exchanging id plan q w taken)
    (hcancel : ∀ k, .action (.cancel k) ∉ hs) (hslow : m.IsSlow hs) :
    ((m.watch id hs).result = none →
      ∃ taken', (m.follow hs).value.Exchanging id plan q
        (w.andThen (m.watch id hs)) taken') ∧
    ∀ r, (m.watch id hs).result = some r →
      (∀ request, plan = .single request →
        .finished id (.single r) ∈ (m.follow hs).trace) ∧
      (r ≠ .error .timeout → (w.andThen (m.watch id hs)).Refines q r) := by
  induction hs generalizing m w taken with
  | nil =>
      refine ⟨fun _ => ⟨taken, ?_⟩,
        fun r hr => absurd hr.symm (Option.some_ne_none r)⟩
      exact h.of_same h.orderly (fun t ht _ => ht) rfl rfl rfl h.inTime
  | cons x hs ih =>
      obtain ⟨hquiet, hslow'⟩ := isSlow_cons hslow
      have hx : ∀ k, x ≠ .action (.cancel k) := by
        rintro k rfl
        exact hcancel k List.mem_cons_self
      have hcancel' : ∀ k, .action (.cancel k) ∉ hs := fun k hk =>
        hcancel k (List.mem_cons_of_mem x hk)
      have htrace : (m.follow (x :: hs)).trace =
          (m.happen x).trace ++ ((m.happen x).value.follow hs).trace := by
        rw [follow, Traced.trace_bind]
      rw [htrace]
      rcases h.happen hx hquiet with ⟨hnone, taken', h'⟩ |
          ⟨r, hr, hfinished, hrefines⟩
      · have hwatch : m.watch id (x :: hs) =
            (m.glance id x).andThen ((m.happen x).value.watch id hs) := by
          rw [Modem.watch, hnone]
          rfl
        have hassoc : w.andThen (m.watch id (x :: hs)) =
            (w.andThen (m.glance id x)).andThen
            ((m.happen x).value.watch id hs) := by
          rw [hwatch]
          simp only [Watched.andThen, List.append_assoc]
        obtain ⟨hstill, hresult⟩ := ih h' hcancel' hslow'
        rw [hassoc, hwatch]
        refine ⟨hstill, fun r hr => ?_⟩
        obtain ⟨hfinished, hrefines⟩ := hresult r hr
        exact ⟨fun request hplan =>
          List.mem_append_right _ (hfinished request hplan), hrefines⟩
      · have hwatch : m.watch id (x :: hs) = m.glance id x := by
          rw [Modem.watch, hr]
          rfl
        rw [hwatch, hr]
        refine ⟨fun hnone => absurd hnone (Option.some_ne_none r),
          fun r' he => ?_⟩
        cases he
        exact ⟨fun request hplan =>
          List.mem_append_left _ (hfinished request hplan), hrefines⟩

/-- The turn in which a run begins on a modem at rest leaves it exchanging. -/
theorem exchanging_begin {rest : Plan} {timeout : Timeout}
    {request : Logged Request} (ho : m.Orderly) (hrest : m.AtRest)
    (htask : ⟨id, .waiting plan⟩ ∈ m.tasks)
    (hnext : plan.next = .run timeout request rest) :
    (m.happen (.turn (.task id))).value.Exchanging id rest request.value
      ⟨[], [], none⟩ [] := by
  have ho' := orderly_happen ho (.turn (.task id))
  have hpoll : m.poll (.task id) =
      some (m.carryOut id (.run timeout request rest)) := by
    have hfind : m.tasks.find? (·.id == id) = some ⟨id, .waiting plan⟩ :=
      ho.find?_eq htask
    rw [poll, hfind, Option.bind_some, ← hnext]
    exact if_neg (by rw [hrest.free]; exact Bool.false_ne_true)
  have hlink : ({ m.link with awaiting := true, replies := [] }.publishAll
      (m.link.replies.filterMap Urc.ofLine?)) =
        { m.link with awaiting := true, replies := [] } := by
    rw [hrest.replies]
    rfl
  have hstart : (Run.start request.value timeout m.now m.link).value =
      (⟨request.value, (Transaction.start request.value).value, true,
        timeout.deadline m.now⟩, { m.link with
          awaiting := true,
          replies := [],
          commands := [(Transaction.start request.value).value.command] }) := by
    rw [Run.value_start, hlink, Run.enqueue, Link.acceptsCommand,
      hrest.commands]
    rfl
  have hv : (m.happen (.turn (.task id))).value =
      { m with link := (Run.start request.value timeout m.now
        m.link).value.2 }.setStage id
          (.running rest
            (Run.start request.value timeout m.now m.link).value.1) := by
    rw [happen, hpoll]
    rfl
  rw [hv, hstart] at ho' ⊢
  refine ⟨ho', ⟨_, mem_putStage_self htask _ _, rfl, rfl⟩, rfl, ?_,
    fun l hl => absurd hl List.not_mem_nil, fun more => ?_, rfl⟩
  · show m.receiver.InTime m.now
    intro line deadline chunk hp
    rw [hrest.receiver] at hp
    cases hp
  · show linesIn more = [] ++ ([] ++ m.receiver.inHand) ++
        sentOn (m.receiver.reach more).1
    rw [hrest.receiver]
    rfl

/-- A run that begins on a modem at rest, and does not fail for lack of time,
comes to what its transaction would: its result is that of the first event that
completes the transaction, and the messages that it makes known are those among
the events before. The result is what the job comes to, if it is a single
request. If nobody can do anything and there is no result, then there is no
event that completes the transaction. -/
theorem run_refines_transaction {past hs : List Happening} {id : Nat}
    {plan rest : Plan} {timeout : Timeout} {request : Logged Request}
    (hrest : (idle.follow past).value.AtRest)
    (htask : ⟨id, .waiting plan⟩ ∈ (idle.follow past).value.tasks)
    (hnext : plan.next = .run timeout request rest)
    (hcancel : ∀ k, .action (.cancel k) ∉ hs)
    (hslow : ((idle.follow past).value.happen
      (.turn (.task id))).value.IsSlow hs) :
    let m := ((idle.follow past).value.happen (.turn (.task id))).value
    let w := m.watch id hs
    (∀ r, w.result = some r →
      (∀ request', rest = .single request' →
        .finished id (.single r) ∈ (m.follow hs).trace) ∧
      (r ≠ .error .timeout → w.Refines request.value r)) ∧
    (w.result = none → (m.follow hs).value.IsQuiet →
      let events :=
        (Transaction.start request.value).value.events (linesIn w.reads)
      (∀ e ∈ events, e.isComplete = false) ∧ w.told = Run.told events) := by
  intro m w
  have hbegin :=
    exchanging_begin (orderly_follow orderly_idle past) hrest htask hnext
  obtain ⟨hstill, hrefines⟩ := hbegin.watch hs hcancel hslow
  refine ⟨hrefines, fun hnone hquiet => ?_⟩
  obtain ⟨taken, h⟩ := hstill hnone
  obtain ⟨hreplies, hphase⟩ := h.of_isQuiet hquiet
  have hlines : linesIn w.reads = taken := by
    have hall := h.lines []
    rw [outstanding, hreplies, Receiver.reach, Receiver.upcoming,
      Receiver.inHand, hphase, List.append_nil] at hall
    exact hall.trans (by simp [sentOn, LineBuffer.readAll])
  rw [hlines]
  exact ⟨Transaction.isComplete_of_not_final rfl h.notFinal, h.told⟩

/-- Ten messages before the final result are more than the queue of
received lines holds. -/
theorem run_refines_transaction_of_long_reply :
    let m := ((idle.follow [.action (.begin .hangUp)]).value.happen
      (.turn (.task 0))).value
    let reply :=
      (List.replicate 10 (Text.bytes "RING\n")).flatten ++ Text.bytes "OK\n"
    let w := m.watch 0 [.turn .transmitter, .action (.arrive reply),
      .turn .receiver, .turn (.task 0), .turn .receiver, .turn (.task 0)]
    w.result = some (.ok .plain) ∧ w.told.length = 10 ∧
    w.Refines .hangUp (.ok .plain) := by
  intro m reply w
  have hresult : w.result = some (.ok .plain) := by
    have hplain : (match w.result with
        | some (.ok .plain) => true
        | _ => false) = true := by decide +kernel
    generalize w.result = result at hplain ⊢
    split at hplain
    · rfl
    · cases hplain
  refine ⟨hresult, by decide +kernel, ?_⟩
  have hrest : (idle.follow [.action (.begin .hangUp)]).value.AtRest := by
    constructor <;> decide +kernel
  exact (@run_refines_transaction [.action (.begin .hangUp)] _ 0
    (.single (pure .hangUp)) _ _ _ hrest List.mem_cons_self rfl (by simp)
    (by simp [IsSlow])).1 _ hresult |>.2 nofun

end Modem

end CellModem
