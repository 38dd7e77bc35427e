import CellModem.Transaction

/-!
# A transaction over a whole reply

A transaction sees one line at a time, but its law is about all of them. The
first final result decides: it completes the transaction, with the response that
the lines before it have filled, and it is the only line that does. Before it, a
line either fills the response or leaves the transaction exactly as it was, so
lines of the second kind can come and go without a trace. Behind it the
transaction never changes again, and every line is on its own.

Whether a response takes a line does not depend on what it holds already, which
is why the lines that are taken can be told from the request alone.
-/

namespace CellModem

/-- Whether this is the end of the reply. -/
def Event.isComplete : Event → Bool
  | .complete _ => true
  | .echo | .intermediate | .unsolicited _ | .noise => false

/-- What a line is to somebody who waits for no reply. -/
def Event.ofStray (l : Line) : Event :=
  match Urc.ofLine? l with
  | some urc => .unsolicited urc
  | none => .noise

/-- The response with a line added to it, or as it was if the line is
not meant for it. -/
def Response.absorb (r : Response) (l : Line) : Response :=
  (r.accept l).value.getD r

/-! ## What a response takes -/

theorem CallList.isSome_accept (list : CallList) (l : Line) :
    (list.accept l).value.isSome = l.startsWith Call.lead := by
  unfold accept
  split
  · next h =>
      rw [h]
      split <;> rfl
  · next h => simp [h]

theorem isSome_accept_calls (list : CallList) (l : Line) :
    ((Response.calls list).accept l).value.isSome = l.startsWith Call.lead := by
  rw [Response.accept, Traced.value_bind, Traced.value_pure, Option.isSome_map,
    list.isSome_accept]

theorem isSome_accept_absorb (r : Response) (k l : Line) :
    ((r.absorb k).accept l).value.isSome = (r.accept l).value.isSome := by
  unfold Response.absorb
  cases h : (r.accept k).value with
  | none => rfl
  | some r' =>
      rw [Option.getD_some]
      cases r with
      | plain => cases h
      | calls list =>
          simp only [Response.accept, Traced.value_bind, Traced.value_pure,
            Option.map_eq_some_iff] at h
          obtain ⟨list', _, rfl⟩ := h
          rw [isSome_accept_calls, isSome_accept_calls]
      | config value =>
          simp only [Response.accept, Traced.value_bind, Traced.value_pure,
            Option.map_eq_some_iff] at h
          obtain ⟨value', _, rfl⟩ := h
          rfl
      | sim status =>
          simp only [Response.accept, Traced.value_pure,
            Option.map_eq_some_iff] at h
          obtain ⟨status', _, rfl⟩ := h
          rfl
      | registration reg =>
          simp only [Response.accept, Traced.value_pure,
            Option.map_eq_some_iff] at h
          obtain ⟨reg', _, rfl⟩ := h
          rfl

theorem isSome_accept_foldl (r : Response) (ks : List Line) (l : Line) :
    ((ks.foldl Response.absorb r).accept l).value.isSome =
      (r.accept l).value.isSome := by
  induction ks generalizing r with
  | nil => rfl
  | cons k ks ih => rw [List.foldl_cons, ih, isSome_accept_absorb]

theorem accept_empty (r : Response) : (r.accept ⟨[]⟩).value = none := by
  cases r <;> rfl

namespace Transaction

/-- The final result that a line is to the transaction: text, and not
its own command. -/
def final? (t : Transaction) (l : Line) : Option FinalResult :=
  (l.text?.filter (· ≠ t.command.text)).bind FinalResult.ofText?

/-- Whether the line is text, not the command, and taken by the response. -/
def takes (t : Transaction) (l : Line) : Bool :=
  l.text?.any (· ≠ t.command.text) && (t.response.accept l).value.isSome

/-- Whether the transaction has no use for a line: no text, nothing at
all, its own command, or anything else that neither ends the reply nor
fills the response. -/
def Idle (t : Transaction) (l : Line) : Prop :=
  l.text? = none ∨ l.bytes = [] ∨ l.text? = some t.command.text ∨
    t.final? l = none ∧ t.takes l = false

/-- Where the transaction stands after lines. -/
def after (t : Transaction) (ls : List Line) : Transaction :=
  ls.foldl (fun t l => (t.handle l).value.1) t

/-- What lines turn out to be, one after the other. -/
def events (t : Transaction) : List Line → List Event
  | [] => []
  | l :: ls => (t.handle l).value.2 :: events (t.handle l).value.1 ls

theorem after_cons (t : Transaction) (l : Line) (ls : List Line) :
    t.after (l :: ls) = (t.handle l).value.1.after ls := rfl

theorem after_append (t : Transaction) (xs ys : List Line) :
    t.after (xs ++ ys) = (t.after xs).after ys :=
  List.foldl_append

theorem events_append (t : Transaction) (xs ys : List Line) :
    t.events (xs ++ ys) = t.events xs ++ (t.after xs).events ys := by
  induction xs generalizing t with
  | nil => rfl
  | cons x xs ih => rw [List.cons_append, events, ih]; rfl

theorem length_events (t : Transaction) (ls : List Line) :
    (t.events ls).length = ls.length := by
  induction ls generalizing t with
  | nil => rfl
  | cons l ls ih => rw [events, List.length_cons, ih, List.length_cons]

/-! ## One line -/

theorem value_aside (s : String) (l : Line) (h : l.text? = some s) :
    (aside s).value = .ofStray l := by
  simp only [aside, Traced.value_bind, Urc.value_read, Event.ofStray,
    Urc.ofLine?, h, Option.bind_some]
  cases Urc.ofText? s <;> rfl

/-- What an open transaction makes of a line that does not end the reply. -/
def openEvent (t : Transaction) (l : Line) : Event :=
  if t.takes l then .intermediate
  else if l.text? = some t.command.text ∧ l.bytes ≠ [] then .echo
  else .ofStray l

theorem text?_eq_some_empty {l : Line} (h : l.text? = some "") : l = ⟨[]⟩ := by
  have hb := Text.bytes_of_ofBytes? h
  cases l with
  | mk bytes => exact congrArg Line.mk hb.symm

theorem ofStray_of_text?_none {l : Line} (h : l.text? = none) :
    Event.ofStray l = .noise := by
  rw [Event.ofStray, Urc.ofLine?, h]
  rfl

theorem ofStray_empty : Event.ofStray ⟨[]⟩ = .noise := by
  have h : Urc.ofLine? ⟨[]⟩ = none := by decide +kernel
  rw [Event.ofStray, h]

theorem handle_of_complete {t : Transaction}
    (h : t.complete = true) (l : Line) :
    (t.handle l).value = (t, .ofStray l) := by
  unfold handle
  split
  · next hn =>
      rw [ofStray_of_text?_none hn]
      rfl
  · next s hs =>
      split
      · next he =>
          subst he
          rw [text?_eq_some_empty hs, ofStray_empty]
          rfl
      · rw [Traced.value_bind, value_aside s l hs]
        rfl

theorem handle_of_final {t : Transaction} (h : t.complete = false) {l : Line}
    {result : FinalResult} (hf : t.final? l = some result) :
    (t.handle l).value =
      (⟨t.command, t.response, true⟩,
        .complete (conclude t.response result)) := by
  obtain ⟨s, hs, hr⟩ := Option.bind_eq_some_iff.1 hf
  obtain ⟨hs, hne⟩ := Option.filter_eq_some_iff.1 hs
  have hne : s ≠ t.command.text := by simpa using hne
  have hse : s ≠ "" := by
    rintro rfl
    have hnone : FinalResult.ofText? "" = none := by decide +kernel
    rw [hnone] at hr
    cases hr
  simp only [handle, hs, hse, h, handleOpen, hne, if_false, Bool.false_eq_true,
    Traced.value_bind, FinalResult.value_read, hr]
  rfl

theorem handle_of_not_final {t : Transaction}
    (h : t.complete = false) {l : Line} (hf : t.final? l = none) :
    (t.handle l).value =
      (⟨t.command, if t.takes l then t.response.absorb l
        else t.response, false⟩, t.openEvent l) := by
  have ht : (⟨t.command, t.response, false⟩ : Transaction) = t := by rw [← h]
  unfold handle
  split
  · next hn =>
      have htakes : t.takes l = false := by simp [takes, hn]
      simp only [openEvent, htakes, hn, reduceCtorEq, false_and, if_false,
        Bool.false_eq_true, ofStray_of_text?_none hn, ht]
      rfl
  · next s hs =>
      split
      · next he =>
          subst he
          have hl := text?_eq_some_empty hs
          subst hl
          have htakes : t.takes ⟨[]⟩ = false := by simp [takes, accept_empty]
          simp only [openEvent, htakes, ne_eq, not_true_eq_false,
            and_false, if_false, Bool.false_eq_true, ofStray_empty, ht]
          rfl
      · next he =>
          rw [if_neg (by simp [h])]
          unfold handleOpen
          split
          · next hc =>
              have htakes : t.takes l = false := by simp [takes, hs, hc]
              have hb : l.bytes ≠ [] := by
                intro hb
                rw [Line.text?, hb] at hs
                exact he (Option.some.inj
                  (hs.symm.trans (Text.ofBytes?_bytes "")))
              simp only [openEvent, htakes, Bool.false_eq_true, if_false, hs,
                hc, ne_eq, hb, not_false_eq_true, and_self, if_true, ht]
              rfl
          · next hc =>
              have hr : FinalResult.ofText? s = none := by
                simpa [final?, hs, hc] using hf
              simp only [Traced.value_bind, FinalResult.value_read, hr]
              have hany : t.takes l = (t.response.accept l).value.isSome := by
                simp [takes, hs, hc]
              cases hacc : (t.response.accept l).value with
              | some r =>
                  rw [hacc] at hany
                  simp only [openEvent, hany, Option.isSome_some, if_true,
                    Response.absorb, hacc, Option.getD_some, h]
                  rfl
              | none =>
                  rw [hacc] at hany
                  simp only [openEvent, hany, Option.isSome_none,
                    Bool.false_eq_true, if_false, hs, Option.some.injEq, hc,
                    false_and, ht, Traced.value_bind, value_aside s l hs]
                  rfl

theorem command_handle (t : Transaction) (l : Line) :
    (t.handle l).value.1.command = t.command := by
  cases hc : t.complete with
  | true => rw [handle_of_complete hc]
  | false =>
      cases hf : t.final? l with
      | some result => rw [handle_of_final hc hf]
      | none => rw [handle_of_not_final hc hf]

/-! ## Many lines -/

theorem after_of_complete {t : Transaction} (h : t.complete = true)
    (ls : List Line) : t.after ls = t := by
  induction ls with
  | nil => rfl
  | cons l ls ih =>
      rw [after_cons, handle_of_complete h]
      exact ih

theorem events_of_complete {t : Transaction} (h : t.complete = true)
    (ls : List Line) : t.events ls = ls.map .ofStray := by
  induction ls with
  | nil => rfl
  | cons l ls ih => rw [events, handle_of_complete h, ih, List.map_cons]

/-- Up to the final result, the lines that are taken are all that counts. -/
theorem after_of_not_final {t : Transaction} (h : t.complete = false)
    {ls : List Line} (hls : ∀ l ∈ ls, t.final? l = none) :
    t.after ls =
      ⟨t.command, (ls.filter t.takes).foldl Response.absorb t.response,
      false⟩ := by
  induction ls generalizing t with
  | nil => rw [after, List.foldl_nil, ← h]; rfl
  | cons l ls ih =>
      have hrest : ∀ k ∈ ls, t.final? k = none :=
        fun k hk => hls k (List.mem_cons_of_mem l hk)
      rw [after_cons, handle_of_not_final h (hls l List.mem_cons_self)]
      dsimp only
      by_cases htakes : t.takes l = true
      · have hsame : (⟨t.command, t.response.absorb l, false⟩ :
          Transaction).takes = t.takes := by
          funext k
          rw [takes, takes, isSome_accept_absorb]
        rw [if_pos htakes,
          ih (t := ⟨t.command, t.response.absorb l, false⟩) rfl hrest, hsame,
          List.filter_cons_of_pos htakes, List.foldl_cons]
      · rw [if_neg htakes, ih (t := ⟨t.command, t.response, false⟩) rfl hrest,
          List.filter_cons_of_neg htakes]
        rfl

/-- What a line before the final result turns out to be does not depend on the
lines before it. -/
theorem events_of_not_final {t : Transaction} (h : t.complete = false)
    {ls : List Line} (hls : ∀ l ∈ ls, t.final? l = none) :
    t.events ls = ls.map t.openEvent := by
  induction ls generalizing t with
  | nil => rfl
  | cons l ls ih =>
      have hrest : ∀ k ∈ ls, t.final? k = none :=
        fun k hk => hls k (List.mem_cons_of_mem l hk)
      rw [events, handle_of_not_final h (hls l List.mem_cons_self)]
      dsimp only
      rw [ih (t := ⟨t.command, if t.takes l then t.response.absorb l
        else t.response, false⟩)
        rfl hrest, List.map_cons]
      congr 1
      refine List.map_congr_left fun k _ => ?_
      rw [openEvent, openEvent]
      split
      · rw [takes, takes, isSome_accept_absorb]
      · rfl

/-- A reply up to its final result, and whatever comes behind it. -/
theorem events_of_final {t : Transaction} (h : t.complete = false)
    {before after : List Line} {l : Line} {result : FinalResult}
    (hbefore : ∀ k ∈ before, t.final? k = none)
    (hl : t.final? l = some result) :
    t.events (before ++ l :: after) = t.events before ++
      .complete (conclude
        ((before.filter t.takes).foldl Response.absorb t.response) result) ::
          after.map .ofStray ∧
    (t.after (before ++ l :: after)).complete = true := by
  let response := (before.filter t.takes).foldl Response.absorb t.response
  have hl' := handle_of_final (t := ⟨t.command, response, false⟩) rfl hl
  rw [events_append, after_append, after_of_not_final h hbefore]
  constructor
  · rw [events, hl', events_of_complete (t := ⟨t.command, response, true⟩) rfl]
  · rw [after_cons, hl',
      after_of_complete (t := ⟨t.command, response, true⟩) rfl]

theorem isComplete_ofStray (l : Line) :
    (Event.ofStray l).isComplete = false := by
  unfold Event.ofStray
  split <;> rfl

theorem isComplete_openEvent (t : Transaction) (l : Line) :
    (t.openEvent l).isComplete = false := by
  unfold openEvent
  split
  · rfl
  · split
    · rfl
    · exact isComplete_ofStray l

theorem exists_first_final (t : Transaction) (ls : List Line) :
    (∀ l ∈ ls, t.final? l = none) ∨
      ∃ before l after result, ls = before ++ l :: after ∧
        (∀ k ∈ before, t.final? k = none) ∧ t.final? l = some result := by
  induction ls with
  | nil => exact Or.inl fun l hl => absurd hl List.not_mem_nil
  | cons l ls ih =>
      cases hl : t.final? l with
      | some result =>
          exact Or.inr ⟨[], l, ls, result, rfl,
            fun k hk => absurd hk List.not_mem_nil, hl⟩
      | none =>
          rcases ih with hnone | ⟨before, k, after, result, rfl, hbefore, hk⟩
          · refine Or.inl fun k hk => ?_
            rcases List.mem_cons.1 hk with rfl | hmem
            · exact hl
            · exact hnone k hmem
          · refine Or.inr ⟨l :: before, k, after, result, rfl,
              fun j hj => ?_, hk⟩
            rcases List.mem_cons.1 hj with rfl | hmem
            · exact hl
            · exact hbefore j hmem

theorem countP_events_of_not_final {t : Transaction} (h : t.complete = false)
    {ls : List Line} (hls : ∀ l ∈ ls, t.final? l = none) :
    (t.events ls).countP Event.isComplete = 0 := by
  rw [events_of_not_final h hls, List.countP_eq_zero]
  intro e he
  obtain ⟨l, _, rfl⟩ := List.mem_map.1 he
  rw [isComplete_openEvent]
  exact Bool.false_ne_true

theorem countP_ofStray (ls : List Line) :
    (ls.map Event.ofStray).countP Event.isComplete = 0 := by
  rw [List.countP_eq_zero]
  intro e he
  obtain ⟨l, _, rfl⟩ := List.mem_map.1 he
  rw [isComplete_ofStray]
  exact Bool.false_ne_true

theorem countP_events {t : Transaction} (h : t.complete = false)
    (ls : List Line) :
    (t.events ls).countP Event.isComplete =
      if (t.after ls).complete then 1 else 0 := by
  rcases exists_first_final t ls with
      hls | ⟨before, l, after, result, rfl, hbefore, hl⟩
  · rw [countP_events_of_not_final h hls, after_of_not_final h hls]
    rfl
  · obtain ⟨hevents, hcomplete⟩ := events_of_final h hbefore hl
    rw [hevents, hcomplete, List.countP_append, List.countP_cons,
      countP_ofStray, countP_events_of_not_final h hbefore]
    rfl

theorem getElem?_events (t : Transaction)
    (before after : List Line) (l : Line) :
    (t.events (before ++ l :: after))[before.length]? =
      some ((t.after before).handle l).value.2 := by
  rw [events_append,
    List.getElem?_append_right (Nat.le_of_eq (length_events t before)),
    length_events, Nat.sub_self]
  rfl

/-- The line that completes the transaction is the first final result. -/
theorem isComplete_event_iff {t : Transaction} (h : t.complete = false)
    (before : List Line) (l : Line) :
    ((t.after before).handle l).value.2.isComplete = true ↔
      (t.final? l).isSome = true ∧ ∀ k ∈ before, t.final? k = none := by
  rcases exists_first_final t before with
      hbefore | ⟨b, k, b', result, rfl, hb, hk⟩
  · rw [after_of_not_final h hbefore]
    cases hl : t.final? l with
    | some result =>
        rw [handle_of_final (t := ⟨t.command, _, false⟩) rfl hl]
        exact ⟨fun _ => ⟨rfl, hbefore⟩, fun _ => rfl⟩
    | none =>
        rw [handle_of_not_final (t := ⟨t.command, _, false⟩) rfl hl,
          isComplete_openEvent]
        exact ⟨fun hf => absurd hf Bool.false_ne_true,
          fun hs => absurd hs.1 Bool.false_ne_true⟩
  · rw [handle_of_complete (events_of_final h hb hk).2, isComplete_ofStray]
    refine ⟨fun hf => absurd hf Bool.false_ne_true, fun hs => ?_⟩
    rw [hs.2 k (by simp)] at hk
    cases hk

theorem Idle.not_final {t : Transaction} {l : Line} (h : t.Idle l) :
    t.final? l = none ∧ t.takes l = false := by
  rcases h with hnone | hempty | hecho | h
  · simp [final?, takes, hnone]
  · have hl : l = ⟨[]⟩ := congrArg Line.mk hempty
    subst hl
    refine ⟨?_, by simp [takes, accept_empty]⟩
    have htext : Line.text? ⟨[]⟩ = some "" := Text.ofBytes?_bytes ""
    have hnone : FinalResult.ofText? "" = none := by decide +kernel
    rw [final?, htext]
    by_cases hc : "" = t.command.text
    · simp [← hc]
    · simp [hc, hnone]
  · simp [final?, takes, hecho]
  · exact h

/-- A line without use leaves the transaction where it was. -/
theorem handle_of_idle {t : Transaction} (h : t.complete = false)
    {before : List Line} {l : Line} (hbefore : ∀ k ∈ before, t.final? k = none)
    (hl : t.Idle l) : ((t.after before).handle l).value.1 = t.after before := by
  obtain ⟨hfinal, htakes⟩ := hl.not_final
  rw [after_of_not_final h hbefore]
  have hsame :
      (⟨t.command, (before.filter t.takes).foldl Response.absorb t.response,
        false⟩ : Transaction).takes l = false := by
    rw [takes, isSome_accept_foldl]
    exact htakes
  rw [handle_of_not_final (t := ⟨t.command, _, false⟩) rfl hfinal, hsame]
  rfl

/-- The law of a transaction over all the lines it is shown. At most one event
completes it, the one of the first final result. It is completed with what the
lines taken before that have filled the response with; a line before it that was
of no use could as well not have come; and behind it every line is read as if no
reply were expected. -/
theorem reply_law (q : Request) (lines : List Line) :
    let t := (start q).value
    (t.events lines).length = lines.length ∧
    (t.events lines).countP Event.isComplete ≤ 1 ∧
    (∀ before l after, lines = before ++ l :: after →
      ((t.events lines)[before.length]?.any Event.isComplete = true ↔
        (t.final? l).isSome = true ∧ ∀ k ∈ before, t.final? k = none)) ∧
    (∀ before l after result, lines = before ++ l :: after →
      (∀ k ∈ before, t.final? k = none) → t.final? l = some result →
      t.events lines = before.map t.openEvent ++
        .complete (conclude
          ((before.filter t.takes).foldl Response.absorb q.emptyResponse)
          result) :: after.map .ofStray) ∧
    (∀ before l after, lines = before ++ l :: after →
      (∀ k ∈ before, t.final? k = none) → t.Idle l →
      ∃ e es, t.events lines = t.events before ++ e :: es ∧
        t.events (before ++ after) = t.events before ++ es ∧
        t.after (before ++ after) = t.after lines) ∧
    ((t.after lines).complete = true ↔
      ∃ e ∈ t.events lines, e.isComplete = true) := by
  intro t
  have hopen : t.complete = false := rfl
  have hresponse : t.response = q.emptyResponse := rfl
  have hcount := countP_events hopen lines
  refine ⟨length_events t lines, ?_, ?_, ?_, ?_, ?_⟩
  · rw [hcount]
    split <;> omega
  · rintro before l after rfl
    rw [getElem?_events, Option.any_some]
    exact isComplete_event_iff hopen before l
  · rintro before l after result rfl hbefore hl
    rw [← hresponse, ← events_of_not_final hopen hbefore]
    exact (events_of_final hopen hbefore hl).1
  · rintro before l after rfl hbefore hl
    have hidle := handle_of_idle hopen hbefore hl
    refine ⟨((t.after before).handle l).value.2,
      (t.after before).events after, ?_, events_append t before after, ?_⟩
    · rw [events_append, events, hidle]
    · rw [after_append, after_append, after_cons, hidle]
  · rw [← List.countP_pos_iff, hcount]
    cases (t.after lines).complete
    · exact ⟨fun h => absurd h Bool.false_ne_true,
        fun h => absurd h (Nat.lt_irrefl 0)⟩
    · exact ⟨fun _ => Nat.zero_lt_one, fun _ => rfl⟩

end Transaction

end CellModem
