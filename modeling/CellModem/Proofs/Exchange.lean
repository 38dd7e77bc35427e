import CellModem.Proofs.Reply
import CellModem.Run

/-!
# What a run makes of its lines

A run shows the lines that are queued for it to its transaction, and stops at
the final result. So what it comes to, and what it makes known on the way, is
told by the events of the transaction alone: the messages among them up to the
final result are published, and no other notice that is given on the way is
about a message. What is sorted out in the end, or before a run begins, is
published if it is a message and otherwise dropped.

A run that is polled and can move always leaves the queue empty behind it.
-/

namespace CellModem

/-! ## Messages among notices -/

/-- The message that a notice makes known, if it is about one. -/
def Notice.message? : Notice → Option Urc
  | .published urc => some urc
  | _ => none

/-- The messages made known by notices, in order. -/
def messages (notices : List Notice) : List Urc :=
  notices.filterMap Notice.message?

/-- The message that a line turned out to be, if it was one. -/
def Event.message? : Event → Option Urc
  | .unsolicited urc => some urc
  | .echo | .intermediate | .complete _ | .noise => none

/-- What the reply amounts to, if this is its end. -/
def Event.result? : Event → Option (Except ModemError Response)
  | .complete result => some result
  | .echo | .intermediate | .unsolicited _ | .noise => none

@[simp] theorem messages_nil : messages [] = [] := rfl

@[simp] theorem messages_append (xs ys : List Notice) :
    messages (xs ++ ys) = messages xs ++ messages ys :=
  List.filterMap_append

theorem messages_ite (c : Bool) (n : Notice) (h : n.message? = none) :
    messages (if c then [n] else []) = [] := by
  cases c
  · rfl
  · simp [messages, h]

@[simp] theorem messages_read (s : String) :
    messages (Urc.read s).trace = [] := by
  simp only [Urc.read, Traced.trace_bind, Logged.trace_noteIf,
    Traced.trace_pure, List.append_nil]
  exact messages_ite _ _ rfl

@[simp] theorem messages_readLine (l : Line) :
    messages (Urc.readLine l).trace = [] := by
  unfold Urc.readLine
  split
  · rfl
  · exact messages_read _

theorem messages_readFinal (s : String) :
    messages (FinalResult.read s).trace = [] := by
  unfold FinalResult.read
  split <;> rfl

theorem messages_acceptCall (list : CallList) (l : Line) :
    messages (list.accept l).trace = [] := by
  unfold CallList.accept
  split
  · split
    · simp only [CallList.add, Traced.trace_bind, Logged.trace_noteIf,
        Traced.trace_pure, List.append_nil, messages_append]
      rw [messages_ite _ _ rfl, messages_ite _ _ rfl]
      rfl
    · rfl
  · rfl

theorem messages_acceptConfig (l : Line) :
    messages (ConfigValue.accept l).trace = [] := by
  unfold ConfigValue.accept
  split
  · rfl
  · unfold ConfigValue.read
    split
    · rfl
    · simp only [Traced.trace_bind, Logged.trace_noteIf, Traced.trace_pure,
        List.append_nil]
      exact messages_ite _ _ rfl

theorem messages_accept (r : Response) (l : Line) :
    messages (r.accept l).trace = [] := by
  cases r with
  | plain => rfl
  | calls list =>
      rw [Response.accept, Traced.trace_bind, messages_append,
        messages_acceptCall]
      rfl
  | config value =>
      rw [Response.accept, Traced.trace_bind, messages_append,
        messages_acceptConfig]
      rfl
  | sim status => rfl
  | registration r => rfl

namespace Transaction

theorem messages_aside (s : String) : messages (aside s).trace = [] := by
  rw [aside, Traced.trace_bind, messages_append, messages_read, Urc.value_read]
  cases Urc.ofText? s <;> rfl

/-- A transaction makes no message known: it only says which
lines are messages. -/
theorem messages_handle (t : Transaction) (l : Line) :
    messages (t.handle l).trace = [] := by
  unfold handle
  split
  · rfl
  · next s _ =>
      split
      · rfl
      · split
        · rw [Traced.trace_bind, messages_append, messages_aside]
          rfl
        · unfold handleOpen
          split
          · rfl
          · rw [Traced.trace_bind, messages_append, messages_readFinal]
            split
            · rfl
            · rw [Traced.trace_bind, messages_append, messages_accept]
              split
              · rfl
              · rw [Traced.trace_bind, messages_append, messages_aside]
                rfl

end Transaction

/-! ## Publishing -/

namespace Link

/-- Makes messages known, one after the other. -/
def publishAll (l : Link) (urcs : List Urc) : Link :=
  { l with urcs := urcs.foldl Backlog.push l.urcs }

theorem publishAll_append (l : Link) (us vs : List Urc) :
    l.publishAll (us ++ vs) = (l.publishAll us).publishAll vs := by
  rw [publishAll, List.foldl_append]
  rfl

theorem value_sortOut (l : Link) (line : Line) :
    (l.sortOut line).value = l.publishAll (Urc.ofLine? line).toList := by
  rw [sortOut, Traced.value_bind, Urc.value_readLine]
  cases Urc.ofLine? line <;> rfl

theorem messages_sortOut (l : Link) (line : Line) :
    messages (l.sortOut line).trace = (Urc.ofLine? line).toList := by
  rw [sortOut, Traced.trace_bind, messages_append, messages_readLine,
    Urc.value_readLine]
  cases Urc.ofLine? line <;> rfl

/-- Of the lines that are sorted out, the messages are published. -/
theorem sortOutAll_eq (l : Link) (lines : List Line) :
    (l.sortOutAll lines).value = l.publishAll (lines.filterMap Urc.ofLine?) ∧
      messages (l.sortOutAll lines).trace = lines.filterMap Urc.ofLine? := by
  induction lines generalizing l with
  | nil => exact ⟨rfl, rfl⟩
  | cons line rest ih =>
      have hcons : (line :: rest).filterMap Urc.ofLine? =
          (Urc.ofLine? line).toList ++ rest.filterMap Urc.ofLine? := by
        cases h : Urc.ofLine? line <;> simp [h]
      obtain ⟨hvalue, hmessages⟩ := ih (l.publishAll (Urc.ofLine? line).toList)
      rw [sortOutAll, hcons, publishAll_append]
      constructor
      · rw [Traced.value_bind, value_sortOut, hvalue]
      · rw [Traced.trace_bind, messages_append, messages_sortOut,
          value_sortOut, hmessages]

theorem value_clearReplies (l : Link) :
    l.clearReplies.value =
      { l with replies := [] }.publishAll (l.replies.filterMap Urc.ofLine?) :=
  (sortOutAll_eq _ _).1

theorem messages_clearReplies (l : Link) :
    messages l.clearReplies.trace = l.replies.filterMap Urc.ofLine? :=
  (sortOutAll_eq _ _).2

end Link

namespace Run

/-! ## Taking lines -/

theorem value_takeLine (t : Transaction) (line : Line) (l : Link) :
    (takeLine t line l).value = ((t.handle line).value.1,
      l.publishAll (t.handle line).value.2.message?.toList,
      (t.handle line).value.2.result?) := by
  rw [takeLine, Traced.value_bind]
  cases (t.handle line).value with
  | mk t' event => cases event <;> rfl

theorem messages_takeLine (t : Transaction) (line : Line) (l : Link) :
    messages (takeLine t line l).trace =
      (t.handle line).value.2.message?.toList := by
  rw [takeLine, Traced.trace_bind, messages_append, Transaction.messages_handle]
  cases (t.handle line).value with
  | mk t' event =>
      cases event with
      | noise =>
          simp only [Traced.trace_bind, Logged.trace_noteIf, Traced.trace_pure,
            List.append_nil]
          rw [messages_ite _ _ rfl]
          rfl
      | echo => rfl
      | intermediate => rfl
      | complete result => rfl
      | unsolicited urc => rfl

/-- The messages among what lines turned out to be. -/
def told (events : List Event) : List Urc := events.filterMap Event.message?

theorem told_cons (e : Event) (es : List Event) :
    told (e :: es) = e.message?.toList ++ told es := by
  unfold told
  cases h : e.message? <;> simp [h]

theorem result?_openEvent (t : Transaction) (l : Line) :
    (t.openEvent l).result? = none := by
  have h := Transaction.isComplete_openEvent t l
  cases he : t.openEvent l with
  | complete result => rw [he] at h; cases h
  | echo => rfl
  | intermediate => rfl
  | unsolicited urc => rfl
  | noise => rfl

/-- Without a final result all lines are taken, and the transaction is
where they bring it. -/
theorem takeLines_of_not_final {t : Transaction} (h : t.complete = false)
    {lines : List Line} (hlines : ∀ l ∈ lines, t.final? l = none) (l : Link) :
    (takeLines t l lines).value =
        (t.after lines,
          { l with replies := [] }.publishAll (told (t.events lines)), none) ∧
      messages (takeLines t l lines).trace = told (t.events lines) := by
  induction lines generalizing t l with
  | nil => exact ⟨rfl, rfl⟩
  | cons line rest ih =>
      have hv := Transaction.handle_of_not_final h
          (hlines line List.mem_cons_self)
      have hopen : (t.handle line).value.1.complete = false := by rw [hv]
      have hrest : ∀ k ∈ rest, (t.handle line).value.1.final? k = none := by
        rw [hv]
        exact fun k hk => hlines k (List.mem_cons_of_mem line hk)
      have hnone : (t.handle line).value.2.result? = none := by
        rw [hv]
        exact result?_openEvent t line
      obtain ⟨hvalue, hmessages⟩ :=
        ih hopen hrest (l.publishAll (t.handle line).value.2.message?.toList)
      rw [Transaction.events, told_cons]
      constructor
      · rw [takeLines, Traced.value_bind, value_takeLine, hnone]
        dsimp only
        rw [hvalue, Link.publishAll_append]
        rfl
      · rw [takeLines, Traced.trace_bind, messages_append, messages_takeLine,
          value_takeLine, hnone]
        dsimp only
        rw [hmessages]

/-- Up to the final result lines are taken, and those behind it are
left in the queue. -/
theorem takeLines_of_final {t : Transaction} (h : t.complete = false)
    {before after : List Line} {line : Line} {result : FinalResult}
    (hbefore : ∀ l ∈ before, t.final? l = none)
    (hline : t.final? line = some result) (l : Link) :
    (takeLines t l (before ++ line :: after)).value =
        (t.after (before ++ [line]),
          { l with replies := after }.publishAll (told (t.events before)),
          some (Transaction.conclude (t.after before).response result)) ∧
      messages (takeLines t l (before ++ line :: after)).trace =
        told (t.events before) := by
  induction before generalizing t l with
  | nil =>
      have hv := Transaction.handle_of_final h hline
      have hresult : (t.handle line).value.2.result? =
          some (Transaction.conclude t.response result) := by
        rw [hv]
        rfl
      have hmessage : (t.handle line).value.2.message? = none := by
        rw [hv]
        rfl
      rw [List.nil_append, takeLines]
      constructor
      · rw [Traced.value_bind, value_takeLine, hresult, hmessage]
        rfl
      · rw [Traced.trace_bind, messages_append, messages_takeLine,
          value_takeLine, hresult, hmessage]
        rfl
  | cons k before ih =>
      have hv := Transaction.handle_of_not_final h
          (hbefore k List.mem_cons_self)
      have hopen : (t.handle k).value.1.complete = false := by rw [hv]
      have hrest : ∀ j ∈ before, (t.handle k).value.1.final? j = none := by
        rw [hv]
        exact fun j hj => hbefore j (List.mem_cons_of_mem k hj)
      have hline' : (t.handle k).value.1.final? line = some result := by
        rw [hv]
        exact hline
      have hnone : (t.handle k).value.2.result? = none := by
        rw [hv]
        exact result?_openEvent t k
      obtain ⟨hvalue, hmessages⟩ :=
        ih hopen hrest hline'
          (l.publishAll (t.handle k).value.2.message?.toList)
      rw [List.cons_append, Transaction.events, told_cons, takeLines]
      constructor
      · rw [Traced.value_bind, value_takeLine, hnone]
        dsimp only
        rw [hvalue, Link.publishAll_append]
        rfl
      · rw [Traced.trace_bind, messages_append, messages_takeLine,
          value_takeLine, hnone]
        dsimp only
        rw [hmessages]

/-! ## One poll -/

@[simp] theorem transaction_enqueue (r : Run) (l : Link) :
    (r.enqueue l).1.transaction = r.transaction := by
  unfold enqueue
  split <;> rfl

@[simp] theorem deadline_enqueue (r : Run) (l : Link) :
    (r.enqueue l).1.deadline = r.deadline := by
  unfold enqueue
  split <;> rfl

@[simp] theorem awaiting_enqueue (r : Run) (l : Link) :
    (r.enqueue l).2.awaiting = l.awaiting := by
  unfold enqueue
  split <;> rfl

@[simp] theorem replies_enqueue (r : Run) (l : Link) :
    (r.enqueue l).2.replies = l.replies := by
  unfold enqueue
  split <;> rfl

@[simp] theorem request_enqueue (r : Run) (l : Link) :
    (r.enqueue l).1.request = r.request := by
  unfold enqueue
  split <;> rfl

@[simp] theorem urcs_enqueue (r : Run) (l : Link) :
    (r.enqueue l).2.urcs = l.urcs := by
  unfold enqueue
  split <;> rfl

theorem enqueue_of_queued {r : Run} (h : r.queued = true) (l : Link) :
    r.enqueue l = (r, l) := by
  rw [enqueue, h]
  rfl

theorem enqueue_of_not_queued {r : Run} {l : Link}
    (h : (r.enqueue l).1.queued = false) : r.enqueue l = (r, l) := by
  unfold enqueue at h ⊢
  split
  · next hc =>
      rw [if_pos hc] at h
      cases h
  · rfl

/-- A run that can move, but whose command still finds no place, is overdue. -/
theorem isDue_of_canMove {r : Run} {now : Nat} {l : Link}
    (h : r.canMove now l = true) (hq : (r.enqueue l).1.queued = false) :
    r.isDue now = true := by
  have he := enqueue_of_not_queued hq
  rw [he] at hq
  rw [canMove, hq] at h
  by_cases hspace : l.acceptsCommand = true
  · rw [enqueue, hq, hspace] at he
    have := congrArg (fun x => x.1.queued) he
    exact absurd (this.trans hq) (by simp)
  · simpa [hspace] using h

theorem exchange_of_not_final {r : Run} {l : Link}
    (hq : (r.enqueue l).1.queued = true) (h : r.transaction.complete = false)
    (hlines : ∀ k ∈ l.replies, r.transaction.final? k = none) :
    (r.exchange l).value =
        ({ (r.enqueue l).1 with transaction := r.transaction.after l.replies },
          { (r.enqueue l).2 with replies := [] }.publishAll
          (told (r.transaction.events l.replies)), none) ∧
      messages (r.exchange l).trace =
        told (r.transaction.events l.replies) := by
  obtain ⟨hvalue, hmessages⟩ := takeLines_of_not_final h hlines (r.enqueue l).2
  simp only [exchange, hq, if_true, transaction_enqueue, replies_enqueue]
  constructor
  · rw [Traced.value_bind, hvalue]
    rfl
  · rw [Traced.trace_bind, messages_append, hmessages]
    exact List.append_nil _

theorem exchange_of_final {r : Run} {l : Link}
    (hq : (r.enqueue l).1.queued = true) (h : r.transaction.complete = false)
    {before after : List Line} {line : Line} {result : FinalResult}
    (hreplies : l.replies = before ++ line :: after)
    (hbefore : ∀ k ∈ before, r.transaction.final? k = none)
    (hline : r.transaction.final? line = some result) : (r.exchange l).value =
        ({ (r.enqueue l).1 with
          transaction := r.transaction.after (before ++ [line]) },
          { (r.enqueue l).2 with replies := after }.publishAll
          (told (r.transaction.events before)),
          some (Transaction.conclude
            (r.transaction.after before).response result)) ∧
      messages (r.exchange l).trace = told (r.transaction.events before) := by
  obtain ⟨hvalue, hmessages⟩ :=
    @takeLines_of_final _ h _ after _ _ hbefore hline (r.enqueue l).2
  simp only [exchange, hq, if_true, transaction_enqueue,
    replies_enqueue, hreplies]
  constructor
  · rw [Traced.value_bind, hvalue]
    rfl
  · rw [Traced.trace_bind, messages_append, hmessages]
    exact List.append_nil _

theorem exchange_of_not_queued {r : Run} {l : Link}
    (hq : (r.enqueue l).1.queued = false) :
    r.exchange l = pure (r, l, none) := by
  have he := enqueue_of_not_queued hq
  have hr : r.queued = false := by
    rw [he] at hq
    exact hq
  simp only [exchange, he, hr, Bool.false_eq_true, if_false]

theorem value_finish (r : Run) (result : Except Failure Response) (l : Link) :
    (r.finish result l).value =
      { l with awaiting := false, replies := [] }.publishAll
        (l.replies.filterMap Urc.ofLine?) := by
  cases result <;> exact Link.value_clearReplies _

theorem messages_finish (r : Run)
    (result : Except Failure Response) (l : Link) :
    messages (r.finish result l).trace = l.replies.filterMap Urc.ofLine? := by
  rw [finish, Traced.trace_bind, messages_append, Link.messages_clearReplies]
  cases result <;> exact List.append_nil _

theorem trace_poll_of_some {r r' : Run} {l l' : Link}
    {result : Except ModemError Response} {now : Nat}
      (h : (r.exchange l).value = (r', l', some result)) :
      (r.poll now l).trace = (r.exchange l).trace ++
        (r'.finish (result.mapError .modem) l').trace := by
  rw [poll, Traced.trace_bind, h]
  simp only [Traced.trace_bind, Traced.trace_pure, List.append_nil]

theorem trace_poll_of_due {r r' : Run} {l l' : Link} {now : Nat}
    (h : (r.exchange l).value = (r', l', none)) (hdue : r'.isDue now = true) :
    (r.poll now l).trace = (r.exchange l).trace ++
      (r'.finish (.error .timeout) l').trace := by
  rw [poll, Traced.trace_bind, h]
  simp only [hdue, if_true, Traced.trace_bind, Traced.trace_pure,
    List.append_nil]

theorem poll_of_some {r r' : Run} {l l' : Link}
    {result : Except ModemError Response} {now : Nat}
    (h : (r.exchange l).value = (r', l', some result)) : (r.poll now l).value =
        (r', (r'.finish (result.mapError .modem) l').value,
          some (result.mapError .modem)) ∧
      messages (r.poll now l).trace =
        messages (r.exchange l).trace ++ l'.replies.filterMap Urc.ofLine? := by
  constructor
  · rw [poll, Traced.value_bind, h]
    rfl
  · rw [trace_poll_of_some h, messages_append, messages_finish]

theorem poll_of_due {r r' : Run} {l l' : Link} {now : Nat}
    (h : (r.exchange l).value = (r', l', none)) (hdue : r'.isDue now = true) :
    (r.poll now l).value =
        (r', (r'.finish (.error .timeout) l').value, some (.error .timeout)) ∧
      messages (r.poll now l).trace =
        messages (r.exchange l).trace ++ l'.replies.filterMap Urc.ofLine? := by
  constructor
  · rw [poll, Traced.value_bind, h]
    simp only [hdue, if_true]
    rfl
  · rw [trace_poll_of_due h hdue, messages_append, messages_finish]

theorem poll_of_waiting {r r' : Run} {l l' : Link} {now : Nat}
    (h : (r.exchange l).value = (r', l', none)) (hdue : r'.isDue now = false) :
    (r.poll now l).value = (r', l', none) ∧
      messages (r.poll now l).trace = messages (r.exchange l).trace := by
  rw [poll]
  constructor
  · rw [Traced.value_bind, h]
    simp only [hdue, Bool.false_eq_true, if_false, Traced.value_pure]
  · rw [Traced.trace_bind, messages_append, h]
    simp only [hdue, Bool.false_eq_true, if_false,
      Traced.trace_pure, messages_nil, List.append_nil]

/-- The messages that a poll makes known: those that the transaction tells
apart, or all that are in the queue if the command never found its place. -/
def toldBy (r : Run) (l : Link) : List Urc :=
  if (r.enqueue l).1.queued then told (r.transaction.events l.replies)
  else l.replies.filterMap Urc.ofLine?

theorem told_append (es fs : List Event) :
    told (es ++ fs) = told es ++ told fs :=
  List.filterMap_append

theorem told_ofStray (lines : List Line) :
    told (lines.map .ofStray) = lines.filterMap Urc.ofLine? := by
  rw [told, List.filterMap_map]
  congr 1
  funext l
  show (Event.ofStray l).message? = Urc.ofLine? l
  rw [Event.ofStray]
  cases Urc.ofLine? l <;> rfl

/-- A run that moves empties the queue. It goes on as long as it has no result,
and otherwise gives the line up. -/
theorem poll_spec {r : Run} {now : Nat} {l : Link}
    (h : r.transaction.complete = false) (hmove : r.canMove now l = true) :
    (r.poll now l).value.2.1.replies = [] ∧
    (r.poll now l).value.2.1.awaiting =
      ((r.poll now l).value.2.2.isNone && l.awaiting) ∧
    ((r.poll now l).value.2.2 = none →
      (r.poll now l).value.1.transaction.complete = false) ∧
    messages (r.poll now l).trace = r.toldBy l := by
  cases hq : (r.enqueue l).1.queued with
  | false =>
      have hv : (r.exchange l).value = (r, l, none) := by
        rw [exchange_of_not_queued hq]; rfl
      obtain ⟨hvalue, hmessages⟩ := poll_of_due hv (isDue_of_canMove hmove hq)
      rw [hvalue, hmessages, value_finish,
        exchange_of_not_queued hq, toldBy, hq]
      exact ⟨rfl, rfl, nofun, rfl⟩
  | true =>
      rw [toldBy, hq, if_pos rfl]
      rcases Transaction.exists_first_final r.transaction l.replies with
          hlines | ⟨before, line, after, result, hreplies, hbefore, hline⟩
      · obtain ⟨hv, hm⟩ := exchange_of_not_final hq h hlines
        have hopen : (r.transaction.after l.replies).complete = false := by
          rw [Transaction.after_of_not_final h hlines]
        cases hdue : r.isDue now with
        | true =>
            obtain ⟨hvalue, hmessages⟩ := @poll_of_due _ _ _ _ now hv
              (by simpa [isDue] using hdue)
            rw [hvalue, hmessages, value_finish, hm]
            exact ⟨rfl, rfl, nofun, List.append_nil _⟩
        | false =>
            obtain ⟨hvalue, hmessages⟩ := @poll_of_waiting _ _ _ _ now hv
              (by simpa [isDue] using hdue)
            rw [hvalue, hmessages, hm]
            refine ⟨rfl, ?_, fun _ => hopen, rfl⟩
            exact awaiting_enqueue r l
      · obtain ⟨hv, hm⟩ := exchange_of_final hq h hreplies hbefore hline
        obtain ⟨hvalue, hmessages⟩ := @poll_of_some _ _ _ _ _ now hv
        have htold : told (r.transaction.events l.replies) =
            told (r.transaction.events before) ++
            after.filterMap Urc.ofLine? := by
          rw [hreplies, (Transaction.events_of_final h hbefore hline).1,
            told_append, told_cons, told_ofStray]
          rfl
        rw [hvalue, hmessages, value_finish, hm, htold]
        exact ⟨rfl, rfl, nofun, rfl⟩

/-! ## The beginning -/

theorem messages_encode (q : Request) : messages q.encode.trace = [] := by
  have h (pieces : List String) (c : Command) :
      messages (c.pushAll pieces).trace = [] := by
    induction pieces generalizing c with
    | nil => rfl
    | cons piece pieces ih =>
        rw [Command.pushAll, Traced.trace_bind, messages_append,
          ih, Command.push, Traced.trace_bind, messages_append,
          Logged.trace_noteIf, messages_ite _ _ rfl]
        rfl
  exact h q.pieces .empty

theorem value_start (q : Request) (timeout : Timeout) (now : Nat) (l : Link) :
    (start q timeout now l).value =
      enqueue ⟨q, (Transaction.start q).value, false, timeout.deadline now⟩
        ({ l with awaiting := true, replies := [] }.publishAll
          (l.replies.filterMap Urc.ofLine?)) := by
  rw [start, Traced.value_bind, Link.value_clearReplies]
  rfl

theorem messages_start (q : Request) (timeout : Timeout)
    (now : Nat) (l : Link) :
    messages (start q timeout now l).trace =
      l.replies.filterMap Urc.ofLine? := by
  rw [start, Traced.trace_bind, messages_append, Link.messages_clearReplies,
    Traced.trace_bind, messages_append, Transaction.start]
  simp only [Traced.trace_bind, Logged.trace_note, Traced.trace_pure,
    List.append_nil, messages_append, messages_encode]
  exact List.append_nil _

end Run

end CellModem
