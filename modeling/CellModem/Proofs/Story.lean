import CellModem.Proofs.Leftovers

/-!
# The story of a plan

A job that has the line does one thing after the other: it begins a request,
takes lines of the reply, comes to a result, pauses, and in the end it finishes.
Written down with the time of each, that is a story, and the plan of the job
says which stories there are (`Story`).

A request comes to the result that the lines taken for it amount to. For lack of
time it fails only when its deadline has come and none of the lines was a final
result (`Served.Sound`). What time is too late for that depends on the clock, so
here it is any relation between a deadline and a time.

A story is told from its beginning, and a turn adds to its end. What a turn adds
depends on what the task set out to do last, and no more than that of the story
so far (`Story.exists_last`). So each kind of turn is looked at once
(`continued_pollTask`).
-/

namespace CellModem

/-- What a task does with the line. -/
inductive Deed where
  | begins (request : Request) (timeout : Timeout)
  | takes (line : Line)
  | ends (result : Except Failure Response)
  | pauses (ms : Nat)
  | finishes (outcome : Outcome)

/-- How a task sets out to do the next thing in its plan. -/
def Move.deed : Move → Deed
  | .run timeout request _ => .begins request.value timeout
  | .pause ms _ => .pauses ms
  | .finish outcome => .finishes outcome

/-- The lines that a run takes out of the queue when it is polled. -/
def Run.takings (r : Run) (l : Link) : List Line :=
  l.replies.take (l.replies.length - (r.exchange l).value.2.1.replies.length)

/-- The time at which a task has waited long enough. -/
def Stage.deadline? : Stage → Option Nat
  | .running _ run => run.deadline
  | .pausing _ deadline => some deadline
  | .listening | .waiting _ => none

namespace Modem

/-- What a task does with the line in a turn in which it can do something. -/
def deeds (m : Modem) (t : Task) : List Deed :=
  match t.stage with
  | .listening => []
  | .waiting plan | .pausing plan _ => [plan.next.deed]
  | .running plan run => (run.takings m.link).map .takes ++
    match (run.poll m.now m.link).value.2.2 with
    | none => []
    | some result => [.ends result, (plan.resume result).value.deed]

end Modem

/-! ## Stories -/

/-- A request from its beginning to its result, and the lines that were
taken meanwhile. -/
structure Served where
  request : Request
  timeout : Timeout
  began : Nat
  takings : List (Nat × Line)
  ended : Nat
  result : Except Failure Response

/-- A line that was taken at a time. -/
def taking (x : Nat × Line) : Nat × Deed := (x.1, .takes x.2)

namespace Served

def lines (c : Served) : List Line := c.takings.map Prod.snd

def deeds (c : Served) : List (Nat × Deed) :=
  (c.began, .begins c.request c.timeout) :: (c.takings.map taking ++
    [(c.ended, .ends c.result)])

/-- Whether a request came to its result as it should, and in time: by a final
result, which no line before it was, or for lack of time and without any. -/
structure Sound (timely : Nat → Nat → Prop) (c : Served) : Prop where
  ends : c.result ≠ .error .timeout →
    Run.Ends (Transaction.start c.request).value c.lines c.result
  timesOut : c.result = .error .timeout →
    (∀ l ∈ c.lines, (Transaction.start c.request).value.final? l = none) ∧
      ∃ due ∈ c.timeout.deadline c.began, due ≤ c.ended
  inTime : ∀ due ∈ c.timeout.deadline c.began, timely due c.ended

end Served

/-- A run that began with a request at a time, and has taken lines none of which
was a final result. -/
structure Run.Pending (r : Run) (q : Request) (timeout : Timeout) (began : Nat)
    (lines : List Line) : Prop where
  request : r.request = q
  deadline : r.deadline = timeout.deadline began
  transaction : r.transaction = (Transaction.start q).value.after lines
  notFinal : ∀ l ∈ lines, (Transaction.start q).value.final? l = none

/-- What a task can have done since it set out to make a move, and the stage
where it is now; there is none if it has finished. -/
inductive Story (timely : Nat → Nat → Prop) :
    Move → List (Nat × Deed) → Option Stage → Prop
  | finish {outcome} (t : Nat) :
      Story timely (.finish outcome) [(t, .finishes outcome)] none
  | pausing {ms rest} (t : Nat) :
      Story timely (.pause ms rest) [(t, .pauses ms)]
      (some (.pausing rest (t + ms)))
  | paused {ms rest deeds stage?} (t : Nat)
      (hlate : ∀ d ∈ deeds.head?, t + ms ≤ d.1 ∧ timely (t + ms) d.1)
      (hrest : Story timely rest.next deeds stage?) :
      Story timely (.pause ms rest) ((t, .pauses ms) :: deeds) stage?
  | running {timeout request rest} (t : Nat)
      (takings : List (Nat × Line)) (run : Run)
      (h : run.Pending request.value timeout t (takings.map Prod.snd)) :
      Story timely (.run timeout request rest)
        ((t, .begins request.value timeout) :: takings.map taking)
        (some (.running rest run))
  | ran {request rest deeds stage?} (c : Served)
      (hrequest : c.request = request.value) (hc : c.Sound timely)
      (hnext : ∀ d ∈ deeds.head?, d.1 = c.ended)
      (hrest : Story timely (rest.resume c.result).value deeds stage?) :
      Story timely (.run c.timeout request rest) (c.deeds ++ deeds) stage?

/-- What a task set out to do last, if it is at a stage where
it has the line. -/
inductive Leg : Move → List (Nat × Deed) → Stage → Prop
  | pausing {ms rest} (t : Nat) :
      Leg (.pause ms rest) [(t, .pauses ms)] (.pausing rest (t + ms))
  | running {timeout request rest} (t : Nat)
      (takings : List (Nat × Line)) (run : Run)
      (h : run.Pending request.value timeout t (takings.map Prod.snd)) :
      Leg (.run timeout request rest)
        ((t, .begins request.value timeout) :: takings.map taking)
        (.running rest run)

namespace Story

variable {timely : Nat → Nat → Prop} {move : Move} {deeds : List (Nat × Deed)}
  {stage? : Option Stage} {s : Stage}

/-- What begins with a story that is at a stage begins in the same way if only
the end of the story is another. -/
theorem head?_append {before last last' : List (Nat × Deed)}
    (h : last'.head? = last.head?) :
    (before ++ last').head? = (before ++ last).head? := by
  rw [List.head?_append, List.head?_append, h]

/-- Whoever has not finished can tell what it set out to do last, and a story
may go on from there in another way, as long as it sets out at the same time. -/
theorem exists_last (h : Story timely move deeds (some s)) :
    ∃ first before last, deeds = before ++ last ∧ Leg first last s ∧
      ∀ last' stage?, last'.head? = last.head? →
      Story timely first last' stage? →
        Story timely move (before ++ last') stage? := by
  generalize hs : some s = stage? at h
  induction h with
  | finish t => cases hs
  | pausing t =>
      cases hs
      exact ⟨_, [], _, rfl, .pausing t, fun _ _ _ h => h⟩
  | running t takings run hrun =>
      cases hs
      exact ⟨_, [], _, rfl, .running t takings run hrun, fun _ _ _ h => h⟩
  | paused t hlate _ ih =>
      obtain ⟨first, before, last, rfl, hleg, hgo⟩ := ih hs
      refine ⟨first, _ :: before, last, rfl, hleg,
        fun last' stage? hhead hlast => ?_⟩
      rw [← head?_append hhead] at hlate
      exact .paused t hlate (hgo last' stage? hhead hlast)
  | ran c hrequest hc hnext _ ih =>
      obtain ⟨first, before, last, rfl, hleg, hgo⟩ := ih hs
      refine ⟨first, c.deeds ++ before, last, (List.append_assoc ..).symm, hleg,
        fun last' stage? hhead hlast => ?_⟩
      rw [List.append_assoc]
      rw [← head?_append hhead] at hnext
      exact .ran c hrequest hc hnext (hgo last' stage? hhead hlast)

/-- A story that begins with a request: it is still under way, or it has come to
a result and the plan says what comes next. -/
theorem run_cases {timeout : Timeout} {request : Logged Request} {rest : Plan}
    (h : Story timely (.run timeout request rest) deeds stage?) :
    (∃ (t : Nat) (takings : List (Nat × Line)) (run : Run),
      run.Pending request.value timeout t (takings.map Prod.snd) ∧
      deeds = (t, .begins request.value timeout) :: takings.map taking ∧
      stage? = some (.running rest run)) ∨
    ∃ (c : Served) (later : List (Nat × Deed)), c.request = request.value ∧
      c.timeout = timeout ∧ c.Sound timely ∧ deeds = c.deeds ++ later ∧
      (∀ d ∈ later.head?, d.1 = c.ended) ∧
      Story timely (rest.resume c.result).value later stage? := by
  cases h with
  | running t takings run hrun => exact Or.inl ⟨t, takings, run, hrun, rfl, rfl⟩
  | ran c hrequest hc hnext hrest =>
      exact Or.inr ⟨c, _, hrequest, rfl, hc, rfl, hnext, hrest⟩

end Story

/-! ## One poll of a run -/

namespace Run

theorem takings_eq {r : Run} {l : Link} {handled rest : List Line}
    (hreplies : l.replies = handled ++ rest)
    (hrest : (r.exchange l).value.2.1.replies = rest) :
    r.takings l = handled := by
  rw [takings, hrest, hreplies, List.length_append, Nat.add_sub_cancel,
    List.take_left]

/-- What an exchange does to a run, and what it comes to, is told by the
lines that it takes. -/
theorem exchange_cases (r : Run) (l : Link)
    (h : r.transaction.complete = false) :
    (r.exchange l).value.1.request = r.request ∧
    (r.exchange l).value.1.deadline = r.deadline ∧
    (r.exchange l).value.1.transaction = r.transaction.after (r.takings l) ∧
    (((r.exchange l).value.2.2 = none ∧
      ∀ k ∈ r.takings l, r.transaction.final? k = none) ∨
        ∃ result, (r.exchange l).value.2.2 = some result ∧
        Ends r.transaction (r.takings l) (result.mapError .modem)) := by
  cases hq : (r.enqueue l).1.queued with
  | false =>
      have hv : (r.exchange l).value = (r, l, none) := by
        rw [exchange_of_not_queued hq]; rfl
      have htakings : r.takings l = [] := @takings_eq r l [] _ rfl (by rw [hv])
      rw [hv, htakings]
      exact ⟨rfl, rfl, rfl, Or.inl ⟨rfl, nofun⟩⟩
  | true =>
      rcases Transaction.exists_first_final r.transaction l.replies with
          hlines | ⟨before, line, after, final, hreplies, hbefore, hline⟩
      · obtain ⟨hv, _⟩ := exchange_of_not_final hq h hlines
        have htakings : r.takings l = l.replies :=
          takings_eq (List.append_nil _).symm (by rw [hv]; rfl)
        rw [hv, htakings]
        exact ⟨request_enqueue r l, deadline_enqueue r l, rfl,
          Or.inl ⟨rfl, hlines⟩⟩
      · obtain ⟨hv, _⟩ := exchange_of_final hq h hreplies hbefore hline
        have htakings : r.takings l = before ++ [line] :=
          @takings_eq r l _ after (by rw [hreplies, List.append_assoc]; rfl)
            (by rw [hv]; rfl)
        rw [hv, htakings]
        exact ⟨request_enqueue r l, deadline_enqueue r l, rfl,
          Or.inr ⟨_, rfl, before, line, final, rfl, hbefore, hline, rfl⟩⟩

/-- Lines that were taken before do not matter to what ends a reply. -/
theorem Ends.append {q : Request} {lines taken : List Line}
    {result : Except Failure Response}
    (hlines : ∀ l ∈ lines, (Transaction.start q).value.final? l = none)
    (h : Ends ((Transaction.start q).value.after lines) taken result) :
    Ends (Transaction.start q).value (lines ++ taken) result := by
  obtain ⟨_, hsame⟩ := @Transaction.open_after _ rfl _ hlines
  obtain ⟨before, line, final, rfl, hbefore, hline, rfl⟩ := h
  rw [hsame] at hline
  refine ⟨lines ++ before, line, final, (List.append_assoc ..).symm,
    fun k hk => ?_, hline, ?_⟩
  · rcases List.mem_append.1 hk with hold | hnew
    · exact hlines k hold
    · rw [← hsame]
      exact hbefore k hnew
  · rw [Transaction.after_append]

section Poll

variable {r : Run} {q : Request} {timeout : Timeout} {began : Nat}
  {lines : List Line}

/-- A reply that ends does not end for lack of time. -/
theorem Ends.ne_timeout {t : Transaction} {result : Except Failure Response}
    (h : Ends t lines result) : result ≠ .error .timeout := by
  obtain ⟨before, line, final, _, _, _, rfl⟩ := h
  intro he
  cases h : Transaction.conclude (t.after before).response final with
  | ok r =>
      rw [h] at he
      cases he
  | error failure =>
      rw [h] at he
      cases he

/-- A poll adds lines to those that the run has taken. Either none of them is a
final result, and the run stays pending or is overdue, or they end the reply. -/
theorem Pending.poll (h : r.Pending q timeout began lines)
    (now : Nat) (l : Link) : ((r.poll now l).value.2.2 = none ∧
      (r.poll now l).value.1.Pending q timeout began (lines ++ r.takings l) ∧
        ∀ due ∈ timeout.deadline began, now < due) ∨
    ∃ result, (r.poll now l).value.2.2 = some result ∧
      (Ends (Transaction.start q).value (lines ++ r.takings l) result ∨
        (∀ k ∈ lines ++ r.takings l,
          (Transaction.start q).value.final? k = none) ∧
          result = .error .timeout ∧ ∃ due ∈ timeout.deadline began,
            due ≤ now) := by
  obtain ⟨hopen, hsame⟩ := @Transaction.open_after _ rfl _ h.notFinal
  rw [← h.transaction] at hopen hsame
  obtain ⟨hrequest, hdeadline, htransaction, hcases⟩ := exchange_cases r l hopen
  cases hv : (r.exchange l).value with
  | mk r' rest =>
      obtain ⟨l', result?⟩ := rest
      rw [hv] at hrequest hdeadline htransaction hcases
      dsimp only at hrequest hdeadline htransaction hcases
      rcases hcases with ⟨rfl, htaken⟩ | ⟨result, rfl, hends⟩
      · have hall : ∀ k ∈ lines ++ r.takings l,
            (Transaction.start q).value.final? k = none := by
          intro k hk
          rcases List.mem_append.1 hk with hold | hnew
          · exact h.notFinal k hold
          · rw [← hsame]
            exact htaken k hnew
        have hdue : r'.isDue now = (timeout.deadline began).any (· ≤ now) := by
          rw [isDue, hdeadline, h.deadline]
        cases hnow : r'.isDue now with
        | false =>
            rw [(poll_of_waiting hv hnow).1]
            refine Or.inl ⟨rfl,
              ⟨hrequest.trans h.request, hdeadline.trans h.deadline, ?_, hall⟩,
              fun due hmem => Nat.lt_of_not_le fun hle => ?_⟩
            · rw [htransaction, h.transaction, Transaction.after_append]
            · rw [hnow, hmem] at hdue
              exact absurd hdue.symm (by simpa using hle)
        | true =>
            rw [hnow, eq_comm, Option.any_eq_true] at hdue
            obtain ⟨due, hmem, hle⟩ := hdue
            rw [(poll_of_due hv hnow).1]
            exact Or.inr ⟨_, rfl,
              Or.inr ⟨hall, rfl, due, hmem, by simpa using hle⟩⟩
      · rw [(poll_of_some hv).1]
        rw [h.transaction] at hends
        exact Or.inr ⟨_, rfl, Or.inl (hends.append h.notFinal)⟩

/-- A run begins with no line taken. -/
theorem pending_start (q : Request) (timeout : Timeout) (now : Nat) (l : Link) :
    (start q timeout now l).value.1.Pending q timeout now [] := by
  rw [value_start]
  exact ⟨request_enqueue _ _, deadline_enqueue _ _,
    transaction_enqueue _ _, nofun⟩

end Poll

end Run

/-! ## One turn -/

theorem Timeout.le_deadline {timeout : Timeout} {now due : Nat}
    (h : due ∈ timeout.deadline now) :
    now ≤ due := by
  cases timeout with
  | never => cases h
  | after ms =>
      cases h
      exact Nat.le_add_right now ms

namespace Modem

variable {timely : Nat → Nat → Prop} {m : Modem} {t : Task} {move : Move}
  {mine : List (Nat × Deed)}

/-- What a task makes of its story when it gets on. -/
structure Continued (timely : Nat → Nat → Prop) (m : Modem)
    (id : Nat) (move : Move) (mine : List (Nat × Deed)) (m' : Modem)
    (stage? : Option Stage) : Prop where
  value : m' = { m with link := m'.link }.putStage id stage?
  hasLine : ∀ s ∈ stage?, s.hasLine = true
  ahead : ∀ s ∈ stage?, ∀ due ∈ s.deadline?, m.now ≤ due
  story : Story timely move mine stage?

theorem continued_carryOut (timely : Nat → Nat → Prop) (m : Modem) (id : Nat)
    (move : Move) :
    ∃ stage?, Continued timely m id move [(m.now, move.deed)]
      (m.carryOut id move).value stage? := by
  cases move with
  | run timeout request rest =>
      have hrun := Run.pending_start request.value timeout m.now m.link
      refine ⟨some (.running rest
        (Run.start request.value timeout m.now m.link).value.1), ?_, ?_, ?_,
          .running m.now [] _ hrun⟩
      · rw [value_carryOut_run]
        rfl
      · rintro s ⟨⟩
        rfl
      · rintro s ⟨⟩ due hdue
        rw [Stage.deadline?, hrun.deadline] at hdue
        exact Timeout.le_deadline hdue
  | pause ms rest =>
      refine ⟨some (.pausing rest (m.now + ms)), rfl, ?_, ?_, .pausing m.now⟩
      · rintro s ⟨⟩
        rfl
      · rintro s ⟨⟩ due ⟨⟩
        exact Nat.le_add_right m.now ms
  | finish outcome =>
      have hv : (m.carryOut id (.finish outcome)).value = m.removeTask id := rfl
      refine ⟨none, ?_⟩
      rw [hv]
      exact ⟨rfl, by simp, by simp, .finish m.now⟩

/-- A turn in which a run goes on takes some lines, and one in which it comes to
its result takes some lines and does the next thing in the plan. -/
theorem continued_continueRun {id : Nat} {timeout : Timeout}
    {request : Logged Request} {plan : Plan} {began : Nat}
    {takings : List (Nat × Line)} {run : Run}
    (h : run.Pending request.value timeout began (takings.map Prod.snd))
    (hdue : ∀ due ∈ timeout.deadline began, timely due m.now) :
    ∃ stage?, Continued timely m id (.run timeout request plan)
      ((began, .begins request.value timeout) :: takings.map taking ++
        (m.deeds ⟨id, .running plan run⟩).map (m.now, ·))
      (m.continueRun id plan run).value stage? := by
  have hlines : (takings ++ (run.takings m.link).map (m.now, ·)).map Prod.snd =
      takings.map Prod.snd ++ run.takings m.link := by
    rw [List.map_append, List.map_map]
    exact congrArg _ (List.map_id _)
  have htakings : (takings ++ (run.takings m.link).map (m.now, ·)).map taking =
      takings.map taking ++ ((run.takings m.link).map .takes).map
      (m.now, ·) := by
    rw [List.map_append, List.map_map, List.map_map]
    rfl
  cases hp : (run.poll m.now m.link).value with
  | mk run' rest =>
      obtain ⟨link, result?⟩ := rest
      have hpoll := h.poll m.now m.link
      rw [hp, ← hlines] at hpoll
      dsimp only at hpoll
      rw [deeds]
      dsimp only
      rw [hp]
      dsimp only
      rcases hpoll with ⟨rfl, hrun, hahead⟩ | ⟨result, rfl, hcause⟩
      · rw [(value_continueRun_of_none hp).1, List.append_nil,
          List.cons_append, ← htakings]
        refine ⟨some (.running plan run'), rfl, ?_, ?_,
          .running began _ run' hrun⟩
        · rintro s ⟨⟩
          rfl
        · rintro s ⟨⟩ due hmem
          rw [Stage.deadline?, hrun.deadline] at hmem
          exact Nat.le_of_lt (hahead due hmem)
      · rw [(value_continueRun_of_some hp).1]
        obtain ⟨stage?, hnext⟩ :=
          continued_carryOut timely { m with link := link } id
            (plan.resume result).value
        let c : Served := ⟨request.value, timeout, began,
          takings ++ (run.takings m.link).map (m.now, ·), m.now, result⟩
        have hc : c.Sound timely := by
          refine ⟨fun hne => ?_, fun he => ?_, hdue⟩
          · rcases hcause with hends | ⟨_, he, _⟩
            · exact hends
            · exact absurd he hne
          · rcases hcause with hends | ⟨hall, _, hlate⟩
            · exact absurd he hends.ne_timeout
            · exact ⟨hall, hlate⟩
        have hdeeds :
            (began, .begins request.value timeout) :: takings.map taking ++
              ((run.takings m.link).map Deed.takes ++ [Deed.ends result,
                (plan.resume result).value.deed]).map (m.now, ·) =
            c.deeds ++ [(m.now, (plan.resume result).value.deed)] := by
          rw [Served.deeds, htakings]
          simp only [c, List.map_append, List.cons_append, List.append_assoc,
            List.map_cons, List.map_nil, List.nil_append]
        rw [hdeeds]
        refine ⟨stage?, hnext.value, hnext.hasLine, hnext.ahead,
          .ran c rfl hc ?_ hnext.story⟩
        rintro d ⟨⟩
        rfl

/-- A task that is at a stage where it has the line goes on with its story when
it has its turn. -/
theorem continued_pollTask (h : Story timely move mine (some t.stage))
    (hdue : ∀ due ∈ t.stage.deadline?, timely due m.now)
    {x : Traced Output Modem} (hx : m.pollTask t = some x) :
    ∃ stage?, Continued timely m t.id move
      (mine ++ (m.deeds t).map (m.now, ·)) x.value stage? := by
  obtain ⟨id, s⟩ := t
  obtain ⟨first, before, last, rfl, hleg, hgo⟩ := h.exists_last
  dsimp only at hleg hdue hx
  have hcontinue {last' : List (Nat × Deed)} {m' : Modem}
      (hhead : last'.head? = last.head?) :
      (∃ stage?, Continued timely m id first last' m' stage?) →
        ∃ stage?, Continued timely m id move (before ++ last') m' stage? :=
    fun ⟨stage?, h⟩ => ⟨stage?, h.value, h.hasLine, h.ahead,
      hgo last' stage? hhead h.story⟩
  rw [List.append_assoc]
  cases hleg with
  | @pausing ms rest began =>
      rcases pollTask_cases hx with
          ⟨hs, _⟩ | ⟨plan, ⟨hs, _⟩ | ⟨due, hs, hle⟩, rfl⟩ | ⟨plan, run, hs, _⟩
      · cases hs
      · cases hs
      · cases hs
        obtain ⟨stage?, hnext⟩ := continued_carryOut timely m id rest.next
        refine hcontinue rfl ⟨stage?, hnext.value, hnext.hasLine, hnext.ahead,
          .paused began ?_ hnext.story⟩
        rintro d ⟨⟩
        exact ⟨hle, hdue _ rfl⟩
      · cases hs
  | @running timeout request rest began takings run hrun =>
      rcases pollTask_cases hx with
          ⟨hs, _⟩ | ⟨plan, ⟨hs, _⟩ | ⟨due, hs, _⟩, _⟩ | ⟨plan, run, hs, _, rfl⟩
      · cases hs
      · cases hs
      · cases hs
      · cases hs
        refine hcontinue rfl
          (continued_continueRun hrun fun due hmem => hdue due ?_)
        rw [Stage.deadline?, hrun.deadline]
        exact hmem

/-- Nobody else does anything with the line while a task has it. -/
theorem Orderly.deeds_eq_nil (h : m.Orderly) (ht : t ∈ m.tasks)
    (hline : t.stage.hasLine = true) {u : Task} (hu : u ∈ m.tasks)
    (hne : u.id ≠ t.id) {x : Traced Output Modem} (hx : m.pollTask u = some x) :
    m.deeds u = [] := by
  have hfree : u.stage.hasLine = false :=
    h.hasLine_eq_false ht (Or.inl hline) hu hne
  rcases pollTask_cases hx with ⟨hs, _⟩ | ⟨plan, ⟨_, hnone⟩ | ⟨due, hs, _⟩, _⟩ |
      ⟨plan, run, hs, _⟩
  · rw [deeds, hs]
  · exact absurd hline (by simpa using List.any_eq_false.1 hnone t ht)
  · rw [hs] at hfree
    cases hfree
  · rw [hs] at hfree
    cases hfree

/-! ### What finishes -/

theorem finished_not_mem_shown {α : Type} {x : Logged α} {id : Nat}
    {outcome : Outcome} : .finished id outcome ∉ x.shown.trace := by
  intro h
  rw [Logged.shown, Traced.trace_mapTrace] at h
  obtain ⟨n, _, hn⟩ := List.mem_map.1 h
  cases hn

theorem finished_carryOut {id k : Nat} {outcome : Outcome}
    (h : .finished k outcome ∈ (m.carryOut id move).trace) :
    k = id ∧ move.deed = .finishes outcome := by
  cases move with
  | run timeout request rest =>
      rw [carryOut, Traced.trace_bind, Traced.trace_bind] at h
      rcases List.mem_append.1 h with hmem | hmem
      · exact absurd hmem finished_not_mem_shown
      · rcases List.mem_append.1 hmem with hmem | hmem
        · exact absurd hmem finished_not_mem_shown
        · cases hmem
  | pause ms rest => cases h
  | finish outcome =>
      cases List.mem_singleton.1 h
      exact ⟨rfl, rfl⟩

theorem finished_pollTask {k : Nat} {outcome : Outcome}
    {x : Traced Output Modem} (hx : m.pollTask t = some x)
    (h : .finished k outcome ∈ x.trace) :
    k = t.id ∧ (t.stage ≠ .listening → .finishes outcome ∈ m.deeds t) := by
  rcases pollTask_cases hx with ⟨hs, receipt, urcs, rfl⟩ | ⟨plan, hs, rfl⟩ |
      ⟨plan, run, hs, _, rfl⟩
  · exact ⟨(finished_carryOut h).1, fun hne => absurd hs hne⟩
  · obtain ⟨hid, hdeed⟩ := finished_carryOut h
    refine ⟨hid, fun _ => ?_⟩
    rw [← hdeed, deeds]
    rcases hs with
        ⟨hs, _⟩ | ⟨due, hs, _⟩ <;> rw [hs] <;> exact List.mem_cons_self
  · rw [deeds, hs]
    rw [continueRun, Traced.trace_bind] at h
    rcases List.mem_append.1 h with hmem | hmem
    · exact absurd hmem finished_not_mem_shown
    · have hvalue : (run.poll m.now m.link).shown.value =
          (run.poll m.now m.link).value := rfl
      rw [hvalue] at hmem
      dsimp only
      cases hp : (run.poll m.now m.link).value with
      | mk run' rest =>
          obtain ⟨link, result?⟩ := rest
          rw [hp] at hmem
          cases result? with
          | none => cases hmem
          | some result =>
              rcases List.mem_append.1 hmem with hmem | hmem
              · exact absurd hmem finished_not_mem_shown
              · obtain ⟨hid, hdeed⟩ := finished_carryOut hmem
                refine ⟨hid, fun _ => List.mem_append_right _ ?_⟩
                rw [← hdeed]
                exact List.mem_cons_of_mem _ List.mem_cons_self

end Modem

end CellModem
