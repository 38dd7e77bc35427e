import CellModem.Backlog
import CellModem.Traced
import Mathlib.Data.List.Basic

/-!
# A backlog reports every loss and nothing but losses

A backlog forgets: it holds the newest messages and a flag, and neither tells
how often it was full or what it dropped. So the proof keeps a log beside it,
with an entry for each message sent, each message dropped and each answer to a
reader. The messages that are gone, dropped or read, are always the first ones
sent, in order, and the queue holds the rest (`Kept.sent`). The flag says that
something was dropped since the last report (`Kept.lagged`), and nothing else
is needed: a reader who gets a message finds the flag down, so what was
dropped before it has been reported since the message before it, and a report
finds the flag up.
-/

namespace CellModem

namespace Backlog

variable {α : Type} {capacity : Nat}

/-- What can be done with a backlog. To wait for a message is to ask for it
more than once. -/
inductive Use (α : Type) where
  | send (a : α)
  | receive

/-- What has happened to a backlog. -/
inductive Entry (α : Type) where
  | sent (a : α)
  /-- A message is dropped. -/
  | lost (a : α)
  /-- What a reader gets, if anything. -/
  | gave (receipt : Option (Receipt α))
deriving DecidableEq

/-- The message that there is no room for when another one is sent. -/
def evicted? (b : Backlog α capacity) : Option α :=
  if b.queue.length < capacity then none else b.queue.head?

def use (b : Backlog α capacity) : Use α → Traced (Entry α) (Backlog α capacity)
  | .send a => ⟨b.push a, (b.evicted?.map .lost).toList ++ [.sent a]⟩
  | .receive => ⟨b.receive.2, [.gave b.receive.1]⟩

def useAll (b : Backlog α capacity) :
    List (Use α) → Traced (Entry α) (Backlog α capacity)
  | [] => pure b
  | u :: us => b.use u >>= fun b => b.useAll us

namespace Entry

def sent? : Entry α → Option α
  | .sent a => some a
  | .lost _ | .gave _ => none

def lost? : Entry α → Option α
  | .lost a => some a
  | .sent _ | .gave _ => none

def received? : Entry α → Option α
  | .gave (some (.message a)) => some a
  | .sent _ | .lost _ | .gave none | .gave (some .lagged) => none

/-- The message that leaves the backlog, one way or the other. -/
def gone? : Entry α → Option α
  | .lost a | .gave (some (.message a)) => some a
  | .sent _ | .gave none | .gave (some .lagged) => none

end Entry

/-! ## What a log tells -/

def sent (es : List (Entry α)) : List α := es.filterMap Entry.sent?

def losses (es : List (Entry α)) : List α := es.filterMap Entry.lost?

def received (es : List (Entry α)) : List α := es.filterMap Entry.received?

/-- The messages that were dropped or read, in order. -/
def gone (es : List (Entry α)) : List α := es.filterMap Entry.gone?

/-- The messages that were dropped since this was last reported. -/
def unreported (es : List (Entry α)) : List α :=
  es.foldl (fun as e => match e with
    | .lost a => as ++ [a]
    | .gave (some .lagged) => []
    | .sent _ | .gave none | .gave (some (.message _)) => as) []

@[simp] theorem sent_append (es fs : List (Entry α)) :
    sent (es ++ fs) = sent es ++ sent fs :=
  List.filterMap_append

@[simp] theorem losses_append (es fs : List (Entry α)) :
    losses (es ++ fs) = losses es ++ losses fs :=
  List.filterMap_append

@[simp] theorem gone_append (es fs : List (Entry α)) :
    gone (es ++ fs) = gone es ++ gone fs :=
  List.filterMap_append

theorem received_sublist_gone (es : List (Entry α)) :
    (received es).Sublist (gone es) := by
  induction es with
  | nil => exact List.Sublist.refl _
  | cons e es ih =>
      rw [received, gone, List.filterMap_cons, List.filterMap_cons]
      cases e with
      | sent a => exact ih
      | lost a => exact ih.cons a
      | gave receipt =>
          cases receipt with
          | none => exact ih
          | some r =>
              cases r with
              | message a => exact ih.cons_cons a
              | lagged => exact ih

theorem gone_of_nobody_reading {es : List (Entry α)} (h : received es = []) :
    gone es = losses es := by
  rw [received, List.filterMap_eq_nil_iff] at h
  refine List.filterMap_congr fun e he => ?_
  have hnone := h e he
  cases e with
  | sent a => rfl
  | lost a => rfl
  | gave receipt =>
      cases receipt with
      | none => rfl
      | some r =>
          cases r with
          | message a => cases hnone
          | lagged => rfl

theorem unreported_append_singleton (es : List (Entry α)) (e : Entry α) :
    unreported (es ++ [e]) = match e with
      | .lost a => unreported es ++ [a]
      | .gave (some .lagged) => []
      | .sent _ | .gave none | .gave (some (.message _)) => unreported es := by
  rw [unreported, List.foldl_append]
  rfl

/-- Without a report, what is dropped adds up. -/
theorem unreported_append {es fs : List (Entry α)}
    (h : .gave (some .lagged) ∉ fs) :
    unreported (es ++ fs) = unreported es ++ losses fs := by
  induction fs generalizing es with
  | nil => rw [List.append_nil, losses, List.filterMap_nil, List.append_nil]
  | cons f fs ih =>
      rw [List.mem_cons, not_or] at h
      rw [List.append_cons, ih h.2, unreported_append_singleton]
      cases f with
      | sent a => rfl
      | lost a => exact List.append_assoc _ _ _
      | gave receipt =>
          cases receipt with
          | none => rfl
          | some r =>
              cases r with
              | message a => rfl
              | lagged => exact absurd rfl h.1

/-! ## One use -/

/-- How a backlog and its log belong together. -/
structure Kept (es : List (Entry α)) (b : Backlog α capacity) : Prop where
  sent : Backlog.sent es = gone es ++ b.queue
  few : b.queue.length ≤ capacity
  lagged : b.lagged = true ↔ unreported es ≠ []

theorem kept_empty : Kept [] (empty : Backlog α capacity) where
  sent := rfl
  few := Nat.zero_le _
  lagged := by simp [empty, unreported]

/-- What becomes of a backlog that a message is sent to: there is room for it,
or the oldest message makes room. -/
theorem use_send_cases (hcap : 0 < capacity) (b : Backlog α capacity) (a : α) :
    (b.queue.length < capacity ∧
      b.use (.send a) = ⟨⟨b.queue ++ [a], b.lagged⟩, [.sent a]⟩) ∨
    ∃ oldest rest, capacity ≤ b.queue.length ∧ b.queue = oldest :: rest ∧
      b.use (.send a) = ⟨⟨rest ++ [a], true⟩, [.lost oldest, .sent a]⟩ := by
  by_cases hroom : b.queue.length < capacity
  · left
    exact ⟨hroom, by simp [use, push, evicted?, hroom]⟩
  · right
    cases hq : b.queue with
    | nil =>
        rw [hq] at hroom
        exact absurd hcap hroom
    | cons oldest rest =>
        rw [hq] at hroom
        refine ⟨oldest, rest, Nat.le_of_not_lt hroom, rfl, ?_⟩
        rw [use, push, evicted?, hq, if_neg hroom, if_neg hroom]
        rfl

/-- What a reader gets, and the backlog behind it. -/
theorem receive_cases (b : Backlog α capacity) :
    (b.lagged = true ∧ b.receive = (some .lagged, ⟨b.queue, false⟩)) ∨
    (b.lagged = false ∧ b.queue = [] ∧ b.receive = (none, b)) ∨
    ∃ a rest, b.lagged = false ∧ b.queue = a :: rest ∧
      b.receive = (some (.message a), ⟨rest, false⟩) := by
  unfold receive
  cases hl : b.lagged with
  | true => exact Or.inl ⟨rfl, rfl⟩
  | false =>
      right
      cases hq : b.queue with
      | nil => exact Or.inl ⟨rfl, rfl, rfl⟩
      | cons a rest => exact Or.inr ⟨a, rest, rfl, rfl, rfl⟩

theorem Kept.send (hcap : 0 < capacity) {es : List (Entry α)}
    {b : Backlog α capacity} (h : Kept es b) (a : α) :
    Kept (es ++ (b.use (.send a)).trace) (b.use (.send a)).value := by
  rcases use_send_cases hcap b a with
      ⟨hroom, hu⟩ | ⟨oldest, rest, hfull, hq, hu⟩
  · rw [hu]
    refine ⟨?_, ?_, ?_⟩
    · rw [sent_append, gone_append, h.sent, List.append_assoc,
        List.append_assoc]
      rfl
    · rw [List.length_append, List.length_singleton]
      omega
    · rw [unreported_append_singleton]
      exact h.lagged
  · rw [hu]
    have hfew := h.few
    refine ⟨?_, ?_, ?_⟩
    · rw [sent_append, gone_append, h.sent, hq, List.append_assoc,
        List.append_assoc]
      rfl
    · rw [hq, List.length_cons] at hfew
      rw [List.length_append, List.length_singleton]
      omega
    · show true = true ↔ unreported (es ++ [.lost oldest, .sent a]) ≠ []
      rw [List.append_cons, unreported_append_singleton,
        unreported_append_singleton]
      simp

theorem Kept.receive {es : List (Entry α)} {b : Backlog α capacity}
    (h : Kept es b) :
    Kept (es ++ (b.use .receive).trace) (b.use .receive).value := by
  rw [use]
  rcases b.receive_cases with ⟨_, hr⟩ | ⟨_, _, hr⟩ | ⟨a, rest, hdown, hq, hr⟩
  · rw [hr]
    refine ⟨?_, h.few, ?_⟩
    · rw [sent_append, gone_append, h.sent, List.append_assoc,
        List.append_assoc]
      exact congrArg _ (List.append_nil _)
    · rw [unreported_append_singleton]
      simp
  · rw [hr]
    refine ⟨?_, h.few, ?_⟩
    · rw [sent_append, gone_append, h.sent, List.append_assoc,
        List.append_assoc]
      exact congrArg _ (List.append_nil _)
    · rw [unreported_append_singleton]
      exact h.lagged
  · rw [hr]
    have hfew := h.few
    refine ⟨?_, ?_, ?_⟩
    · rw [sent_append, gone_append, h.sent, hq, List.append_assoc,
        List.append_assoc]
      exact congrArg _ (List.append_nil _)
    · rw [hq, List.length_cons] at hfew
      exact Nat.le_of_succ_le hfew
    · rw [unreported_append_singleton, ← h.lagged, hdown]

theorem Kept.use (hcap : 0 < capacity) {es : List (Entry α)}
    {b : Backlog α capacity} (h : Kept es b) (u : Use α) :
    Kept (es ++ (b.use u).trace) (b.use u).value := by
  cases u with
  | send a => exact h.send hcap a
  | receive => exact h.receive

/-! ## Many uses -/

theorem Kept.useAll (hcap : 0 < capacity) {es : List (Entry α)}
    {b : Backlog α capacity} (h : Kept es b) (us : List (Use α)) :
    Kept (es ++ (b.useAll us).trace) (b.useAll us).value := by
  induction us generalizing es b with
  | nil =>
      rw [Backlog.useAll, Traced.trace_pure, List.append_nil]
      exact h
  | cons u us ih =>
      rw [Backlog.useAll, Traced.trace_bind, Traced.value_bind,
        ← List.append_assoc]
      exact ih (h.use hcap u)

theorem kept_useAll (hcap : 0 < capacity) (us : List (Use α)) :
    Kept ((empty : Backlog α capacity).useAll us).trace
      ((empty : Backlog α capacity).useAll us).value :=
  kept_empty.useAll hcap us

/-- Whether an entry is the first one that a use leaves behind. -/
def Entry.isFirst : Entry α → Bool
  | .lost _ | .gave _ => true
  | .sent _ => false

/-- A log can be cut in front of a loss or an answer: what stands before
is a log as well. -/
theorem exists_use_of_isFirst (hcap : 0 < capacity) {b : Backlog α capacity}
    {us : List (Use α)} {before after : List (Entry α)} {e : Entry α}
    (he : e.isFirst = true) (h : (b.useAll us).trace = before ++ e :: after) :
    ∃ us₁ u us₂, us = us₁ ++ u :: us₂ ∧ before = (b.useAll us₁).trace ∧
      e :: after = ((b.useAll us₁).value.use u).trace ++
        (((b.useAll us₁).value.use u).value.useAll us₂).trace := by
  induction us generalizing b before with
  | nil =>
      rw [useAll, Traced.trace_pure] at h
      simp at h
  | cons u us ih =>
      rw [useAll, Traced.trace_bind] at h
      cases before with
      | nil => exact ⟨[], u, us, rfl, rfl, h.symm⟩
      | cons f before =>
          -- The cut is not inside the entries of one use, for only the first
          -- of them is a loss.
          have hrest : ∃ mine, f :: mine = (b.use u).trace ∧
              ∃ before', before = mine ++ before' ∧
              ((b.use u).value.useAll us).trace = before' ++ e :: after := by
            cases u with
            | receive =>
                have hf := List.cons_eq_cons.1 h
                exact ⟨[], congrArg (· :: []) hf.1.symm, before, rfl, hf.2⟩
            | send a =>
                rcases use_send_cases hcap b a with
                    ⟨_, hu⟩ | ⟨oldest, rest, _, _, hu⟩
                · rw [hu] at h ⊢
                  have hf := List.cons_eq_cons.1 h
                  exact ⟨[], congrArg (· :: []) hf.1.symm, before, rfl, hf.2⟩
                · rw [hu] at h ⊢
                  have hf := List.cons_eq_cons.1 h
                  cases before with
                  | nil =>
                      cases (List.cons_eq_cons.1 hf.2).1
                      cases he
                  | cons g before =>
                      have hg := List.cons_eq_cons.1 hf.2
                      exact ⟨[g], by rw [← hf.1, ← hg.1], before, rfl, hg.2⟩
          obtain ⟨mine, hmine, before', rfl, h'⟩ := hrest
          obtain ⟨us₁, v, us₂, rfl, rfl, hv⟩ := ih h'
          refine ⟨u :: us₁, v, us₂, rfl, ?_, ?_⟩
          · rw [useAll, Traced.trace_bind, ← hmine]
            rfl
          · rw [useAll, Traced.value_bind]
            exact hv

/-- In front of an answer stands a log of a backlog that gives it. -/
theorem exists_of_gave (hcap : 0 < capacity) {us : List (Use α)}
    {before after : List (Entry α)} {r : Option (Receipt α)}
    (h : ((empty : Backlog α capacity).useAll us).trace =
      before ++ .gave r :: after) :
    ∃ b : Backlog α capacity, Kept before b ∧ b.receive.1 = r := by
  obtain ⟨us₁, u, _, _, rfl, hu⟩ := exists_use_of_isFirst hcap rfl h
  refine ⟨_, kept_useAll hcap us₁, ?_⟩
  generalize ((empty : Backlog α capacity).useAll us₁).value = b at hu
  cases u with
  | receive =>
      have hgave := (List.cons_eq_cons.1 hu).1
      cases hgave
      rfl
  | send a =>
      rcases use_send_cases hcap b a with ⟨_, hv⟩ | ⟨_, _, _, _, hv⟩
      · rw [hv] at hu
        cases (List.cons_eq_cons.1 hu).1
      · rw [hv] at hu
        cases (List.cons_eq_cons.1 hu).1

/-- In front of a loss stands a log of a full backlog, and behind it the
message that is sent. -/
theorem exists_of_lost (hcap : 0 < capacity) {us : List (Use α)}
    {before after : List (Entry α)} {a : α}
    (h : ((empty : Backlog α capacity).useAll us).trace =
      before ++ .lost a :: after) :
    ∃ (b : Backlog α capacity) (rest : List α) (next : α)
    (after' : List (Entry α)),
      Kept before b ∧ b.queue = a :: rest ∧ capacity ≤ b.queue.length ∧
      after = .sent next :: after' := by
  obtain ⟨us₁, u, us₂, _, rfl, hu⟩ := exists_use_of_isFirst hcap rfl h
  have hkept := kept_useAll hcap us₁
  generalize ((empty : Backlog α capacity).useAll us₁).value = b at hu hkept
  cases u with
  | receive => cases (List.cons_eq_cons.1 hu).1
  | send next =>
      rcases use_send_cases hcap b next with
          ⟨_, hv⟩ | ⟨oldest, rest, hfull, hq, hv⟩
      · rw [hv] at hu
        cases (List.cons_eq_cons.1 hu).1
      · rw [hv] at hu
        have hcut := List.cons_eq_cons.1 hu
        cases hcut.1
        exact ⟨b, rest, next, _, hkept, hq, hfull, hcut.2⟩

theorem Kept.receive_eq_none_iff {es : List (Entry α)} {b : Backlog α capacity}
    (h : Kept es b) :
    b.receive.1 = none ↔ Backlog.sent es = gone es ∧ unreported es = [] := by
  have hqueue : Backlog.sent es = gone es ↔ b.queue = [] := by
    rw [h.sent, List.append_right_eq_self]
  have hflag : unreported es = [] ↔ b.lagged = false := by
    rw [← Bool.not_eq_true, h.lagged, not_not]
  rw [hqueue, hflag]
  rcases b.receive_cases with ⟨hl, hr⟩ | ⟨hl, hq, hr⟩ | ⟨_, _, hl, hq, hr⟩
  · simp [hr, hl]
  · simp [hr, hl, hq]
  · simp [hr, hq]

/-- A reader who gets a message has been told of all that was dropped. -/
theorem Kept.unreported_of_message {es : List (Entry α)}
    {b : Backlog α capacity} {a : α} (h : Kept es b)
    (ha : b.receive.1 = some (.message a)) : unreported es = [] := by
  rcases b.receive_cases with ⟨_, hr⟩ | ⟨_, _, hr⟩ | ⟨_, _, hl, _, _⟩
  · rw [hr] at ha
    cases ha
  · rw [hr] at ha
    cases ha
  · by_contra hne
    rw [h.lagged.2 hne] at hl
    cases hl

/-- A reader is told of losses only if there are any. -/
theorem Kept.unreported_of_lagged {es : List (Entry α)} {b : Backlog α capacity}
    (h : Kept es b) (hr : b.receive.1 = some .lagged) : unreported es ≠ [] := by
  rcases b.receive_cases with ⟨hl, _⟩ | ⟨_, _, hv⟩ | ⟨_, _, _, _, hv⟩
  · exact h.lagged.1 hl
  · rw [hv] at hr
    cases hr
  · rw [hv] at hr
    cases hr

/-- Between two points at which nothing is unreported there is a report just if
there is a loss. -/
theorem lagged_mem_iff {before mid : List (Entry α)}
    (hbefore : unreported before = []) (hmid : unreported (before ++ mid) = [])
    (hreport : ∀ early late, mid = early ++ .gave (some .lagged) :: late →
      unreported (before ++ early) ≠ []) :
    .gave (some .lagged) ∈ mid ↔ losses mid ≠ [] := by
  constructor
  · intro hmem
    obtain ⟨early, late, hsplit, hfirst⟩ := List.eq_append_cons_of_mem hmem
    have hlost := hreport early late hsplit
    rw [unreported_append hfirst, hbefore, List.nil_append] at hlost
    rw [hsplit, losses_append]
    exact List.append_ne_nil_of_left_ne_nil hlost _
  · intro hlost
    by_contra hnone
    rw [unreported_append hnone, hbefore] at hmid
    exact hlost hmid

/-- Whatever is sent and whenever somebody asks, the messages that a reader gets
are among those sent, in order; the queue holds the newest ones, and a message
is dropped only when as many as the queue holds have been sent after it. From
one message that a reader gets to the next, or from the beginning, the ones sent
in between are dropped, and there is a report just if there are any. No report
is given without a loss since the one before, and a reader gets nothing just if
all messages are gone and all losses reported. -/
theorem losses_reported (hcap : 0 < capacity) (us : List (Use α)) :
    let es := ((empty : Backlog α capacity).useAll us).trace
    let b := ((empty : Backlog α capacity).useAll us).value
    (received es).Sublist (sent es) ∧
    sent es = gone es ++ b.queue ∧ b.queue.length ≤ capacity ∧
    (∀ before a after, es = before ++ .lost a :: after →
      ∃ later next after', after = .sent next :: after' ∧
        sent before ++ [next] = gone before ++ a :: later ∧
        later.length = capacity) ∧
    (∀ before mid a after,
      es = before ++ mid ++ .gave (some (.message a)) :: after →
      (before = [] ∨ ∃ pre c, before = pre ++ [.gave (some (.message c))]) →
      received mid = [] →
      (∃ later, sent es = gone before ++ losses mid ++ a :: later) ∧
      (.gave (some .lagged) ∈ mid ↔ losses mid ≠ [])) ∧
    (∀ before after, es = before ++ .gave (some .lagged) :: after →
      unreported before ≠ []) ∧
    (∀ before r after, es = before ++ .gave r :: after →
      (r = none ↔ sent before = gone before ∧ unreported before = [])) := by
  intro es b
  have hkept : Kept es b := kept_useAll hcap us
  have hreport (before after : List (Entry α))
      (h : es = before ++ .gave (some .lagged) :: after) :
      unreported before ≠ [] := by
    obtain ⟨_, hb, hr⟩ := exists_of_gave hcap h
    exact hb.unreported_of_lagged hr
  have hmessage (before after : List (Entry α)) (a : α)
      (h : es = before ++ .gave (some (.message a)) :: after) :
      unreported before = [] := by
    obtain ⟨_, hb, hr⟩ := exists_of_gave hcap h
    exact hb.unreported_of_message hr
  refine ⟨?_, hkept.sent, hkept.few, ?_, ?_, hreport, ?_⟩
  · rw [hkept.sent]
    exact (received_sublist_gone es).trans (List.sublist_append_left _ _)
  · intro before a after h
    obtain ⟨full, rest, next, after', hb, hq, hlen, rfl⟩ :=
      exists_of_lost hcap h
    refine ⟨rest ++ [next], next, after', rfl, ?_, ?_⟩
    · rw [hb.sent, hq, List.append_assoc, List.cons_append]
    · have hfew := hb.few
      rw [hq, List.length_cons] at hlen hfew
      rw [List.length_append, List.length_singleton]
      omega
  · intro before mid a after h hstart hmid
    have hbefore : unreported before = [] := by
      rcases hstart with rfl | ⟨pre, c, rfl⟩
      · rfl
      · rw [unreported_append_singleton]
        refine hmessage pre (mid ++ .gave (some (.message a)) :: after) c ?_
        rw [h, List.append_assoc, List.append_assoc, List.singleton_append]
    constructor
    · refine ⟨gone after ++ b.queue, ?_⟩
      rw [hkept.sent, h, gone_append, gone_append, gone_of_nobody_reading hmid,
        List.append_assoc]
      rfl
    · refine lagged_mem_iff hbefore (hmessage _ after a h)
        fun early late hsplit => ?_
      refine hreport _ (late ++ .gave (some (.message a)) :: after) ?_
      rw [h, hsplit]
      simp only [List.append_assoc, List.cons_append]
  · intro before r after h
    obtain ⟨_, hb, hr⟩ := exists_of_gave hcap h
    rw [← hr]
    exact hb.receive_eq_none_iff

/-- Two places and four messages: the report of the first loss comes before
the second loss. -/
theorem losses_reported_twice :
    let es := ((empty : Backlog Nat 2).useAll [.send 1, .send 2, .send 3,
      .receive, .send 4, .receive, .receive, .receive, .receive]).trace
    es = [.sent 1, .sent 2, .lost 1, .sent 3, .gave (some .lagged),
      .lost 2, .sent 4, .gave (some .lagged), .gave (some (.message 3)),
      .gave (some (.message 4)), .gave none] ∧
    (∃ later, sent es = [1, 2] ++ 3 :: later) ∧
    unreported (es.take 4) ≠ [] ∧ unreported (es.take 7) ≠ [] ∧
    sent es = gone es := by
  intro es
  obtain ⟨_, _, _, _, hmid, hreport, hnone⟩ :=
    @losses_reported Nat 2 (by decide) [.send 1, .send 2, .send 3, .receive,
      .send 4, .receive, .receive, .receive, .receive]
  refine ⟨by decide, ?_, hreport (es.take 4) (es.drop 5) (by decide),
    hreport (es.take 7) (es.drop 8) (by decide), ?_⟩
  · exact (hmid [] (es.take 8) 3 (es.drop 9) (by decide) (Or.inl rfl)
      (by decide)).1
  · exact ((hnone (es.take 10) none [] (by decide)).1 rfl).1

end Backlog

end CellModem
