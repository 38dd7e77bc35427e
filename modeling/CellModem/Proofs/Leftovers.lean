import CellModem.Proofs.Refinement

/-!
# What a run finds and what it leaves

A run that was given up, or that ended in time only for itself, may leave
anything behind: a flag that is set, and lines in the queue that nobody has
asked for. And lines may be queued behind the one that ends a run. Neither does
any harm. A run sorts out what it finds before its command goes into the queue,
and when it ends it sorts out what is left and takes the flag down
(`run_leaves_nothing_behind`).

So the lines in the queue are of three kinds: those that were there when the run
began, those that joined it later and were shown to the transaction, and those
that were left when the run came to its result. The first and the last are
sorted out, line by line and in their order. In between only two things happen
to the queue, whatever the order of turns: the receiver adds to its end, and a
poll of the run takes its lines (`Underway`).

A line that the receiver still has in its hand is not in the queue. What may
become of it is a matter of the order in which messages are published.
-/

namespace CellModem

/-! ## Lines that are sorted out -/

/-- What is noticed of a line that no command has use for. -/
def Line.leftover (l : Line) : Notice :=
  match Urc.ofLine? l with
  | some urc => .published urc
  | none => .staleLine l.bytes

/-- The notices that do not tell of a number being too long. -/
def exceptCuts (ns : List Notice) : List Notice :=
  ns.filter fun n => decide (n ≠ .numberCut)

theorem exceptCuts_append (xs ys : List Notice) :
    exceptCuts (xs ++ ys) = exceptCuts xs ++ exceptCuts ys :=
  List.filter_append ..

theorem exceptCuts_readLine (l : Line) :
    exceptCuts (Urc.readLine l).trace = [] := by
  rw [exceptCuts, List.filter_eq_nil_iff]
  intro n hn
  rw [mem_readLine hn]
  decide

namespace Link

theorem exceptCuts_sortOut (l : Link) (line : Line) :
    exceptCuts (l.sortOut line).trace = [line.leftover] := by
  rw [sortOut, Traced.trace_bind, exceptCuts_append, exceptCuts_readLine,
    Urc.value_readLine, Line.leftover]
  cases Urc.ofLine? line <;> rfl

/-- Each line that is sorted out is noticed once, in the order of the queue. -/
theorem exceptCuts_sortOutAll (l : Link) (lines : List Line) :
    exceptCuts (l.sortOutAll lines).trace = lines.map Line.leftover := by
  induction lines generalizing l with
  | nil => rfl
  | cons line rest ih =>
      rw [sortOutAll, Traced.trace_bind, exceptCuts_append,
        exceptCuts_sortOut, ih]
      rfl

end Link

namespace Run

/-! ## One poll -/

/-- The notices with which a run is closed. -/
def closing (r : Run) : Except Failure Response → List Notice
  | .ok _ => [.runCompleted r.request]
  | .error failure => [.runCompleted r.request, .runFailed r.request failure]

/-- Whether lines end a reply, the last of them and no other, with a result. -/
def Ends (t : Transaction) (lines : List Line)
    (result : Except Failure Response) : Prop :=
  ∃ before line final, lines = before ++ [line] ∧
    (∀ k ∈ before, t.final? k = none) ∧ t.final? line = some final ∧
    result =
      (Transaction.conclude (t.after before).response final).mapError .modem

/-- What a poll does in which a run comes to its result: the transaction handles
some of the lines in the queue, and those behind them are sorted out. -/
structure Returned (r : Run) (now : Nat) (l : Link)
    (result : Except Failure Response) (handled behind : List Line) : Prop where
  replies : l.replies = handled ++ behind
  /-- The last line that is handled is the final result, or there is none and
  the time is up. -/
  cause : Ends r.transaction handled result ∨
    (∀ k ∈ handled, r.transaction.final? k = none) ∧ r.isDue now = true ∧
    result = .error .timeout
  transaction : (r.poll now l).value.1.transaction = r.transaction.after handled
  awaiting : (r.poll now l).value.2.1.awaiting = false
  emptied : (r.poll now l).value.2.1.replies = []
  urcs : (r.poll now l).value.2.1.urcs =
    (told (r.transaction.events handled) ++ behind.filterMap Urc.ofLine?).foldl
    Backlog.push l.urcs
  told : messages (r.exchange l).trace = told (r.transaction.events handled)
  /-- Behind what is noticed of the lines that are handled comes one notice for
  each line that is left. -/
  notices : exceptCuts (r.poll now l).trace =
    exceptCuts (r.exchange l).trace ++ behind.map Line.leftover ++
    r.closing result

theorem exceptCuts_finish (r : Run)
    (result : Except Failure Response) (l : Link) :
    exceptCuts (r.finish result l).trace = l.replies.map Line.leftover ++
      r.closing result := by
  rw [finish, Traced.trace_bind, exceptCuts_append, Link.clearReplies,
    Link.exceptCuts_sortOutAll]
  cases result <;> rfl

section Poll

variable {r r' : Run} {now : Nat} {l l' : Link} {handled : List Line}

/-- A poll that ends with `finish` comes to a result, whatever the reason. -/
theorem returned_of_finish {result : Except Failure Response}
    (hvalue : (r.poll now l).value =
      (r', (r'.finish result l').value, some result))
    (htrace : (r.poll now l).trace = (r.exchange l).trace ++
      (r'.finish result l').trace)
    (hrequest : r'.request = r.request)
    (hreplies : l.replies = handled ++ l'.replies)
    (htransaction : r'.transaction = r.transaction.after handled)
    (hurcs : l'.urcs = (told (r.transaction.events handled)).foldl
      Backlog.push l.urcs)
    (htold : messages (r.exchange l).trace =
      told (r.transaction.events handled))
    (hcause : Ends r.transaction handled result ∨
      (∀ k ∈ handled, r.transaction.final? k = none) ∧ r.isDue now = true ∧
      result = .error .timeout) :
    r.Returned now l result handled l'.replies where
  replies := hreplies
  cause := hcause
  transaction := by rw [hvalue, htransaction]
  awaiting := by rw [hvalue, value_finish]; rfl
  emptied := by rw [hvalue, value_finish]; rfl
  urcs := by
    rw [hvalue, value_finish, List.foldl_append, ← hurcs]
    rfl
  told := htold
  notices := by
    have hclosing : r'.closing result = r.closing result := by
      cases result <;> simp only [closing, hrequest]
    rw [htrace, exceptCuts_append, exceptCuts_finish, hclosing,
      List.append_assoc]

/-- All that a poll can be of a run whose reply has not ended: either the
run goes on and its transaction has handled some of the lines, or it has
come to its result. -/
theorem poll_cases (r : Run) (now : Nat) (l : Link)
    (h : r.transaction.complete = false) : ((r.poll now l).value.2.2 = none ∧
      ∃ handled, l.replies = handled ++ (r.poll now l).value.2.1.replies ∧
        (r.poll now l).value.1.transaction = r.transaction.after handled ∧
        ∀ k ∈ handled, r.transaction.final? k = none) ∨
    ∃ result handled behind, (r.poll now l).value.2.2 = some result ∧
      r.Returned now l result handled behind := by
  cases hq : (r.enqueue l).1.queued with
  | false =>
      have hv : (r.exchange l).value = (r, l, none) := by
        rw [exchange_of_not_queued hq]; rfl
      cases hdue : r.isDue now with
      | false =>
          rw [(poll_of_waiting hv hdue).1]
          exact Or.inl ⟨rfl, [], rfl, rfl, nofun⟩
      | true =>
          obtain ⟨hvalue, _⟩ := poll_of_due hv hdue
          refine Or.inr ⟨.error .timeout, [], l.replies, by rw [hvalue], ?_⟩
          refine returned_of_finish hvalue (trace_poll_of_due hv hdue) rfl
            rfl rfl rfl ?_ (Or.inr ⟨nofun, hdue, rfl⟩)
          rw [exchange_of_not_queued hq]
          rfl
  | true =>
      rcases Transaction.exists_first_final r.transaction l.replies with
          hlines | ⟨before, line, after, final, hreplies, hbefore, hline⟩
      · obtain ⟨hv, hm⟩ := exchange_of_not_final hq h hlines
        cases hdue : r.isDue now with
        | false =>
            rw [(poll_of_waiting hv (by simpa [isDue] using hdue)).1]
            exact Or.inl ⟨rfl, l.replies, (List.append_nil _).symm, rfl, hlines⟩
        | true =>
            have hdue' : isDue { (r.enqueue l).1 with
                transaction := r.transaction.after l.replies } now = true := by
              simpa [isDue] using hdue
            obtain ⟨hvalue, _⟩ := poll_of_due hv hdue'
            refine Or.inr ⟨.error .timeout, l.replies, [], by rw [hvalue], ?_⟩
            refine returned_of_finish hvalue (trace_poll_of_due hv hdue')
              (request_enqueue r l)
              (List.append_nil _).symm rfl ?_ hm (Or.inr ⟨hlines, hdue, rfl⟩)
            rw [← urcs_enqueue r l]
            rfl
      · obtain ⟨hv, hm⟩ := exchange_of_final hq h hreplies hbefore hline
        obtain ⟨hvalue, _⟩ := @poll_of_some _ _ _ _ _ now hv
        -- The final result is no message.
        have htold : told (r.transaction.events (before ++ [line])) =
            told (r.transaction.events before) := by
          rw [(Transaction.events_of_final h hbefore hline).1, told_append]
          exact List.append_nil _
        refine Or.inr ⟨_, before ++ [line], after, by rw [hvalue], ?_⟩
        refine returned_of_finish hvalue (trace_poll_of_some hv)
          (request_enqueue r l) ?_ rfl ?_ ?_ (Or.inl ⟨before, line, final, rfl,
            hbefore, hline, rfl⟩)
        · rw [hreplies, List.append_assoc]
          rfl
        · rw [htold, ← urcs_enqueue r l]
          rfl
        · rw [htold, hm]

/-- A run that cannot move comes to no result. -/
theorem canMove_of_poll {result : Except Failure Response}
    (h : (r.poll now l).value.2.2 = some result) : r.canMove now l = true := by
  cases hmove : r.canMove now l with
  | true => rfl
  | false =>
      rw [canMove, Bool.or_eq_false_iff] at hmove
      obtain ⟨hidle, hdue⟩ := hmove
      have hstay : ∃ l', (r.exchange l).value = (r, l', none) := by
        cases hq : r.queued with
        | true =>
            rw [hq, if_pos rfl] at hidle
            have hreplies : l.replies = [] := by simpa using hidle
            rw [exchange, enqueue_of_queued hq]
            dsimp only
            rw [if_pos hq, hreplies]
            exact ⟨_, rfl⟩
        | false =>
            have hspace : l.acceptsCommand = false := by simpa [hq] using hidle
            have hsame : r.enqueue l = (r, l) := by simp [enqueue, hspace]
            rw [exchange_of_not_queued (by rw [hsame]; exact hq)]
            exact ⟨l, rfl⟩
      obtain ⟨l', hv⟩ := hstay
      rw [(poll_of_waiting hv hdue).1] at h
      cases h

end Poll

end Run

namespace Modem

/-! ## Lines that join the queue -/

/-- The lines that join the queue of received lines in a happening. -/
def joining (m : Modem) : Happening → List Line
  | .turn .receiver => m.receive.value.link.replies.drop m.link.replies.length
  | .turn (.task _) | .turn .transmitter | .action _ => []

/-- The lines that join the queue in a history, in order. -/
def joined (m : Modem) : List Happening → List Line
  | [] => []
  | x :: hs => m.joining x ++ (m.happen x).value.joined hs

theorem replies_receiveStep {m : Modem} {x : Traced Output Modem}
    (h : m.receiveStep = some x) : m.link.replies <+: x.value.link.replies := by
  unfold receiveStep at h
  split at h
  · split at h
    · cases h
    · cases h
      exact List.prefix_rfl
    · cases h
      exact List.prefix_rfl
    · cases h
      exact List.prefix_rfl
  · next chunk _ =>
      cases h
      rw [Traced.value_bind]
      cases (m.receiver.buffer.fill Channel.ofBytes chunk).shown.value with
      | mk filled rest =>
          cases filled with
          | data => exact List.prefix_rfl
          | done => exact List.prefix_rfl
  · next chunk _ =>
      cases h
      rw [Traced.value_bind]
      cases m.receiver.buffer.consumeLine.shown.value with
      | mk line? buffer =>
          cases line? with
          | none => exact List.prefix_rfl
          | some line =>
              show m.link.replies <+:
                  (m.route buffer line.kept chunk).value.link.replies
              rcases m.route_cases buffer line.kept chunk with
                  ⟨_, hr⟩ | ⟨_, _, hr⟩ | ⟨_, _, hr⟩ | ⟨_, _, hvalue, _⟩
              · rw [hr]
                exact List.prefix_rfl
              · rw [hr]
                exact List.prefix_append _ _
              · rw [hr]
                exact List.prefix_rfl
              · rw [hvalue]
                exact List.prefix_rfl
  · split at h
    · cases h
      exact List.prefix_append _ _
    · split at h
      · cases h
        exact List.prefix_rfl
      · cases h

/-- The receiver adds to the end of the queue, and takes nothing out of it. -/
theorem replies_receive (m : Modem) :
    m.receive.value.link.replies = m.link.replies ++
      m.joining (.turn .receiver) := by
  have hprefix : m.link.replies <+: m.receive.value.link.replies :=
    @Traced.exhaust_induction _ _ receiveStep load load_receiveStep_lt
      (fun _ m' => m.link.replies <+: m'.link.replies)
      (fun _ _ _ hm hx => hm.trans (replies_receiveStep hx))
      [] m List.prefix_rfl
  obtain ⟨new, hnew⟩ := hprefix
  rw [joining, ← hnew, List.drop_left]

theorem joining_of_ne {m : Modem} {x : Happening} (h : x ≠ .turn .receiver) :
    m.joining x = [] := by
  cases x with
  | action a => rfl
  | turn p =>
      cases p with
      | task k => rfl
      | transmitter => rfl
      | receiver => exact absurd rfl h

/-! ## A run under way -/

/-- A run that has not come to its result. Of the lines that joined the queue
since it began, the transaction has handled the first, and those that it has not
are all that the queue holds. -/
structure Underway (m : Modem) (id : Nat) (plan : Plan) (q : Request)
    (since taken : List Line) : Prop where
  orderly : m.Orderly
  running : ∃ run, ⟨id, .running plan run⟩ ∈ m.tasks ∧
    run.transaction = (Transaction.start q).value.after taken
  notFinal : ∀ l ∈ taken, (Transaction.start q).value.final? l = none
  lines : since = taken ++ m.link.replies

variable {m : Modem} {id : Nat} {plan : Plan} {q : Request}
  {since taken : List Line}

theorem Underway.of_same {m' : Modem} (h : m.Underway id plan q since taken)
    (ho : m'.Orderly) (htasks : ∀ t ∈ m.tasks, t.id = id → t ∈ m'.tasks)
    {new : List Line} (hreplies : m'.link.replies = m.link.replies ++ new) :
    m'.Underway id plan q (since ++ new) taken where
  orderly := ho
  running := by
    obtain ⟨run, hmem, hrun⟩ := h.running
    exact ⟨run, htasks _ hmem rfl, hrun⟩
  notFinal := h.notFinal
  lines := by rw [h.lines, hreplies, List.append_assoc]

/-- A poll that comes to no result. -/
theorem Underway.stay {run : Run} (h : m.Underway id plan q since taken)
    (hmem : ⟨id, .running plan run⟩ ∈ m.tasks)
    (hrun : run.transaction = (Transaction.start q).value.after taken)
    (hnone : (run.poll m.now m.link).value.2.2 = none)
    (ho : (m.continueRun id plan run).value.Orderly) :
    ∃ taken', (m.continueRun id plan run).value.Underway id plan q
      since taken' := by
  obtain ⟨hopen, hsame⟩ := @Transaction.open_after _ rfl _ h.notFinal
  rw [← hrun] at hopen hsame
  rcases Run.poll_cases run m.now m.link hopen with
      ⟨_, handled, hreplies, htransaction, hfinal⟩ | ⟨result, _, _, hsome, _⟩
  · cases hp : (run.poll m.now m.link).value with
    | mk run' rest =>
        obtain ⟨link, result⟩ := rest
        rw [hp] at hnone hreplies htransaction
        dsimp only at hnone hreplies htransaction
        subst hnone
        obtain ⟨hvalue, _⟩ := @value_continueRun_of_none m id plan run _ _ hp
        refine ⟨taken ++ handled, ho, ⟨run', ?_, ?_⟩, fun l hl => ?_, ?_⟩
        · rw [hvalue]
          exact mem_putStage_self hmem _ _
        · rw [htransaction, hrun, Transaction.after_append]
        · rcases List.mem_append.1 hl with hold | hnew
          · exact h.notFinal l hold
          · rw [← hsame]
            exact hfinal l hnew
        · rw [hvalue, h.lines, hreplies, List.append_assoc]
          rfl
  · rw [hnone] at hsome
    cases hsome

/-- One happening leaves the run under way, unless it shows its result. -/
theorem Underway.happen (h : m.Underway id plan q since taken) {x : Happening}
    (hx : x ≠ .action (.cancel id)) (hnone : (m.glance id x).result = none) :
    ∃ taken', (m.happen x).value.Underway id plan q
      (since ++ m.joining x) taken' := by
  -- Only the receiver and a poll of the run itself touch the queue.
  have ho := orderly_happen h.orderly x
  rcases m.happen_cases x with ⟨job, rfl⟩ | ⟨k, rfl⟩ | ⟨ms, rfl⟩ | rfl |
      ⟨t, y, ht, rfl, hfind, hy, he⟩ | ⟨hreceiver, _, hkept⟩
  · have hv : (m.happen (.action (.begin job))).value = (m.begin job).value :=
      rfl
    rw [hv, value_begin] at ho ⊢
    exact ⟨taken, h.of_same ho (fun t ht _ => List.mem_append_left _ ht)
      (List.append_nil _).symm⟩
  · have hne : k ≠ id := fun hk => hx (hk ▸ rfl)
    refine ⟨taken, h.of_same ho (fun t ht hid => List.mem_filter.2 ⟨ht, ?_⟩)
      (List.append_nil _).symm⟩
    simpa [hid] using hne.symm
  · exact ⟨taken, h.of_same ho (fun t ht _ => ht) (List.append_nil _).symm⟩
  · rw [happen_receiver] at ho ⊢
    have hr := received_receive m
    refine ⟨taken, h.of_same ho (fun t ht _ => ?_) m.replies_receive⟩
    rw [hr.tasks]
    exact ht
  · obtain ⟨run, hmem, hrun⟩ := h.running
    rw [he] at ho ⊢
    have hjoining : m.joining (.turn (.task t.id)) = [] := rfl
    rw [hjoining]
    rcases h.orderly.turn_of_running hmem ht hy with ⟨rfl, hmove, rfl⟩ |
        ⟨hid, receipt, urcs, rfl⟩
    · rw [glance_of_canMove hfind hmove] at hnone
      rw [List.append_nil]
      exact h.stay hmem hrun hnone ho
    · refine ⟨taken, h.of_same ho (fun u hu hk => ?_) (List.append_nil _).symm⟩
      have hne : u.id ≠ t.id := fun hut => hid (hut.symm.trans hk)
      exact List.mem_filter.2 ⟨hu, by simpa using hne⟩
  · refine ⟨taken, h.of_same ho (fun t ht _ => ?_) ?_⟩
    · rw [hkept.tasks]
      exact ht
    · rw [joining_of_ne hreceiver, List.append_nil, hkept.replies]

/-- A run stays under way until a history shows its result, or
gives its task up. -/
theorem Underway.follow (hs : List Happening)
    (h : m.Underway id plan q since taken) (hcancel : .action (.cancel id) ∉ hs)
    (hnone : (m.watch id hs).result = none) :
    ∃ taken', (m.follow hs).value.Underway id plan q
      (since ++ m.joined hs) taken' := by
  induction hs generalizing m since taken with
  | nil =>
      rw [joined, List.append_nil]
      exact ⟨taken, h⟩
  | cons x hs ih =>
      have hx : x ≠ .action (.cancel id) :=
        fun he => hcancel (he ▸ List.mem_cons_self)
      have hcancel' : .action (.cancel id) ∉ hs := fun hmem =>
        hcancel (List.mem_cons_of_mem x hmem)
      rw [watch] at hnone
      cases hglance : (m.glance id x).result with
      | some result =>
          rw [hglance, Option.isSome_some, if_pos rfl, hglance] at hnone
          cases hnone
      | none =>
          rw [hglance] at hnone
          obtain ⟨taken', h'⟩ := h.happen hx hglance
          obtain ⟨taken'', h''⟩ := ih h' hcancel' hnone
          rw [List.append_assoc] at h''
          exact ⟨taken'', h''⟩

/-- However the queue is left, a run begins with a transaction that has handled
nothing, and with nothing in the queue. -/
theorem underway_carryOut {t : Task} (ho : m.Orderly) (ht : t ∈ m.tasks)
    (hline : t.stage.hasLine = true ∨ m.isTaken = false) (timeout : Timeout)
    (request : Logged Request) (rest : Plan) :
    (m.carryOut t.id (.run timeout request rest)).value.Underway t.id rest
      request.value [] [] := by
  have htransaction :
      (Run.start request.value timeout m.now m.link).value.1.transaction =
      (Transaction.start request.value).value := by
    rw [Run.value_start, Run.transaction_enqueue]
  rw [value_carryOut_run]
  refine ⟨orderly_putStage ho ht _ (fun _ _ => hline) ?_,
    ⟨_, mem_putStage_self ht _ _, htransaction⟩, nofun, ?_⟩
  · rintro s ⟨⟩
    rw [Stage.IsOpen, htransaction]
    rfl
  · show [] = (Run.start request.value timeout m.now m.link).value.2.replies
    rw [Run.value_start, Run.replies_enqueue]
    rfl

/-- Whatever the flag says and whatever is queued, a run sorts out all lines in
the queue, in their order, before its command goes there. What its transaction
handles has joined the queue later. And whenever a poll of the run comes to its
result, the flag is down and the queue is empty, and the lines behind those that
the transaction handled are sorted out, once and in their order. -/
theorem run_leaves_nothing_behind {t : Task} (ho : m.Orderly) (ht : t ∈ m.tasks)
    (hline : t.stage.hasLine = true ∨ m.isTaken = false) (timeout : Timeout)
    (request : Logged Request) (rest : Plan) :
    let q := request.value
    let started := Run.start q timeout m.now m.link
    let begun := (m.carryOut t.id (.run timeout request rest)).value
    (exceptCuts started.trace =
        m.link.replies.map Line.leftover ++
        exceptCuts (Transaction.start q).trace ∧
      started.value = Run.enqueue ⟨q, (Transaction.start q).value, false,
        timeout.deadline m.now⟩
          ({ m.link with awaiting := true, replies := [] }.publishAll
            (m.link.replies.filterMap Urc.ofLine?)) ∧
      begun.link = started.value.2) ∧
    ∀ hs, .action (.cancel t.id) ∉ hs → (begun.watch t.id hs).result = none →
      let m' := (begun.follow hs).value
      ∃ run taken,
        ⟨t.id, .running rest run⟩ ∈ m'.tasks ∧
        begun.joined hs = taken ++ m'.link.replies ∧
        run.transaction = (Transaction.start q).value.after taken ∧
        ∀ result, (run.poll m'.now m'.link).value.2.2 = some result →
          m'.happen (.turn (.task t.id)) = m'.continueRun t.id rest run ∧
          ∃ handled behind,
            run.Returned m'.now m'.link result handled behind := by
  intro q started begun
  refine ⟨⟨?_, Run.value_start .., rfl⟩, fun hs hcancel hnone => ?_⟩
  · have htrace : started.trace = m.link.clearReplies.trace ++
        ((Transaction.start q).trace ++ []) := rfl
    rw [htrace, List.append_nil, exceptCuts_append, Link.clearReplies,
      Link.exceptCuts_sortOutAll]
  · intro m'
    obtain ⟨taken, h⟩ :=
      (underway_carryOut ho ht hline timeout request rest).follow
        hs hcancel hnone
    obtain ⟨run, hmem, hrun⟩ := h.running
    refine ⟨run, taken, hmem, h.lines, hrun, fun result hresult => ⟨?_, ?_⟩⟩
    · have hfind : m'.tasks.find? (·.id == t.id) =
          some ⟨t.id, .running rest run⟩ :=
        h.orderly.find?_eq hmem
      have hpoll : m'.poll (.task t.id) =
          some (m'.continueRun t.id rest run) := by
        rw [poll, hfind, Option.bind_some]
        exact if_pos (Run.canMove_of_poll hresult)
      rw [Modem.happen, hpoll, Option.getD_some]
    · have hopen : run.transaction.complete = false := h.orderly.isOpen _ hmem
      rcases Run.poll_cases run m'.now m'.link hopen with ⟨hnone', _⟩ |
          ⟨result', handled, behind, hsome, hreturned⟩
      · rw [hresult] at hnone'
        cases hnone'
      · rw [hresult] at hsome
        cases hsome
        exact ⟨handled, behind, hreturned⟩

/-- A run is given up with a message, a line that is none, and a final
result in its queue. -/
theorem run_leaves_nothing_behind_of_given_up_run :
    let past : List Happening := [.action (.begin .hangUp), .turn (.task 0),
      .action (.arrive (Text.bytes "RING\nJUNK\nOK\n")), .turn .receiver,
      .action (.cancel 0)]
    let hs : List Happening :=
      [.action (.arrive (Text.bytes "OK\nRING\n")), .turn .receiver]
    let m := ((idle.follow past).value.begin .answer).value
    let begun :=
      (m.carryOut 1 (.run .standard (pure .answer)
        (.single (pure .answer)))).value
    let m' := (begun.follow hs).value
    m.link.awaiting = true ∧
    m.link.replies = [.ofText "RING", .ofText "JUNK", .ofText "OK"] ∧
    exceptCuts (Run.start .answer .standard m.now m.link).trace =
      [.ofText "RING", .ofText "JUNK", .ofText "OK"].map Line.leftover ++
        exceptCuts (Transaction.start .answer).trace ∧
    (begun.watch 1 (hs ++ [.turn (.task 1)])).result.isSome = true ∧
    ∃ run taken, ⟨1, .running (.single (pure .answer)) run⟩ ∈ m'.tasks ∧
      begun.joined hs = taken ++ m'.link.replies ∧
      run.transaction = (Transaction.start .answer).value.after taken ∧
      ∀ result, (run.poll m'.now m'.link).value.2.2 = some result →
        m'.happen (.turn (.task 1)) =
          m'.continueRun 1 (.single (pure .answer)) run ∧
        ∃ handled behind,
          run.Returned m'.now m'.link result handled behind := by
  intro past hs m begun m'
  have hbegun : (idle.follow past).value.begun = 1 := by decide +kernel
  have ht : ⟨(idle.follow past).value.begun,
    .waiting (.single (pure .answer))⟩ ∈ m.tasks :=
    List.mem_append_right _ List.mem_cons_self
  rw [hbegun] at ht
  have hreplies : m.link.replies = [.ofText "RING", .ofText "JUNK",
    .ofText "OK"] := by
    decide +kernel
  obtain ⟨⟨htrace, _⟩, hend⟩ := run_leaves_nothing_behind
    (orderly_begin (orderly_follow orderly_idle past) .answer) ht
    (Or.inr (by decide +kernel)) .standard (pure .answer)
    (.single (pure .answer))
  refine ⟨by decide +kernel, hreplies, ?_, by decide +kernel, ?_⟩
  · rw [← hreplies]
    exact htrace
  · exact hend hs (by simp [hs])
      (Option.isNone_iff_eq_none.1 (by decide +kernel))

end Modem

end CellModem
