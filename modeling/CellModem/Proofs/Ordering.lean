import CellModem.Proofs.Turns

/-!
# Messages around the end of a run

Every line that was received and that no transaction has taken should be
published, if it is a message, in the order in which the lines came. Each of
them is, once; but the order is kept, and the queue of received lines empty when
all is quiet, only under a condition.

The receiver looks at the flag before it waits for space in the queue. If the
run ends meanwhile, the line joins the queue all the same, though nobody is
there to take it: it is late. There it stays until the next run begins, and the
lines behind it, which are published at once, overtake it. That is all that can
go wrong (`in_order_iff`).

The proof keeps a book of all lines in the order in which they came. At any
time it consists of lines that are settled, then those that are
outstanding, then those that were published directly since one is
outstanding that nobody waits for.
-/

namespace CellModem

/-! ## What becomes of lines -/

/-- What has become of a line. -/
inductive Fate where
  /-- Nobody has dealt with it yet. -/
  | waiting
  /-- A transaction took it as its echo, as a part of its
  reply or as its end. -/
  | taken
  /-- No transaction had use for it, or there was none. -/
  | left
deriving DecidableEq

/-- What becomes of a line that has turned out to be something. -/
def Event.fate : Event → Fate
  | .echo | .intermediate | .complete _ => .taken
  | .unsolicited _ | .noise => .left

theorem Fate.taken_ne_waiting : Fate.taken ≠ .waiting := by decide

theorem Fate.left_ne_waiting : Fate.left ≠ .waiting := by decide

theorem Event.fate_ne_waiting (e : Event) : e.fate ≠ .waiting := by
  cases e with
  | echo => exact Fate.taken_ne_waiting
  | intermediate => exact Fate.taken_ne_waiting
  | complete result => exact Fate.taken_ne_waiting
  | unsolicited urc => exact Fate.left_ne_waiting
  | noise => exact Fate.left_ne_waiting

structure Entry where
  line : Line
  fate : Fate
deriving DecidableEq

/-- The message that ought to be published for a line. -/
def Entry.message? (e : Entry) : Option Urc :=
  match e.fate with
  | .left => Urc.ofLine? e.line
  | .waiting | .taken => none

/-- Deals fates to the lines that wait for one, the oldest first. -/
def deal : List Entry → List Fate → List Entry
  | es, [] => es
  | [], _ => []
  | e :: es, f :: fs =>
    if e.fate = .waiting then ⟨e.line, f⟩ :: deal es fs
      else e :: deal es (f :: fs)

/-- What a poll of a run makes of the lines in the queue. -/
def Run.fates (r : Run) (l : Link) : List Fate :=
  if (r.enqueue l).1.queued then (r.transaction.events l.replies).map Event.fate
  else l.replies.map fun _ => .left

def Stage.fates (s : Stage) (l : Link) : List Fate :=
  match s with
  | .running _ run => run.fates l
  | .listening | .waiting _ | .pausing _ _ =>
    if s.empties then l.replies.map fun _ => .left else []

/-- A book of the lines that were received, in the order in which they came. -/
structure Book where
  entries : List Entry
  /-- Whether a line joined the queue late since the last run
  was in progress. -/
  late : Bool
  /-- Whether a message has overtaken another one. -/
  overtaken : Bool

namespace Book

def empty : Book := ⟨[], false, false⟩

/-- The messages that ought to have been published so far. -/
def expected (b : Book) : List Urc := b.entries.filterMap Entry.message?

end Book

/-- Whether a message among some lines differs from one among the lines
that it overtakes. -/
def overtakes (lines slower : List Line) : Bool :=
  (slower.filterMap Urc.ofLine?).any fun urc =>
    (lines.filterMap Urc.ofLine?).any fun urc' => decide (urc' ≠ urc)

namespace Modem

/-- What a turn of a task makes of the lines in the queue. -/
def fates (m : Modem) (id : Nat) : List Fate :=
  if (m.poll (.task id)).isSome then
    (m.tasks.find? (·.id == id)).elim [] (·.stage.fates m.link)
  else []

/-- The book after one happening. -/
def note (m : Modem) (b : Book) : Happening → Book
  | .turn .receiver =>
    let lines := sentOn (framed m.receive.trace)
    if m.link.awaiting
      then { b with entries := b.entries ++ lines.map (⟨·, .waiting⟩) }
    else
      ⟨b.entries ++ lines.map (⟨·, .left⟩),
        b.late || !m.receiver.inHand.isEmpty,
        b.overtaken || overtakes lines m.outstanding⟩
  | .turn (.task id) =>
    { b with
      entries := deal b.entries (m.fates id)
      late := b.late && !(m.happen (.turn (.task id))).value.link.awaiting }
  | .turn .transmitter | .action _ => b

def book (m : Modem) (b : Book) : List Happening → Book
  | [] => b
  | h :: hs => (m.happen h).value.book (m.note b h) hs

end Modem

/-! ## Fates and messages -/

/-- The messages among entries. -/
def owed (es : List Entry) : List Urc := es.filterMap Entry.message?

theorem owed_append (es fs : List Entry) :
    owed (es ++ fs) = owed es ++ owed fs :=
  List.filterMap_append

theorem owed_waiting (lines : List Line) :
    owed (lines.map (⟨·, .waiting⟩)) = [] := by
  rw [owed, List.filterMap_map, List.filterMap_eq_nil_iff]
  exact fun _ _ => rfl

theorem owed_left (lines : List Line) :
    owed (lines.map (⟨·, .left⟩)) = lines.filterMap Urc.ofLine? := by
  rw [owed, List.filterMap_map]
  rfl

theorem message?_handle (t : Transaction) (l : Line) :
    (Entry.mk l (t.handle l).value.2.fate).message? =
      (t.handle l).value.2.message? := by
  have hstray : (Entry.mk l (Event.ofStray l).fate).message? =
      (Event.ofStray l).message? := by
    unfold Event.ofStray
    split
    · next urc h => exact h
    · next h => exact h
  cases hc : t.complete with
  | true =>
      rw [Transaction.handle_of_complete hc]
      exact hstray
  | false =>
      cases hf : t.final? l with
      | some result =>
          rw [Transaction.handle_of_final hc hf]
          rfl
      | none =>
          rw [Transaction.handle_of_not_final hc hf]
          dsimp only
          unfold Transaction.openEvent
          split
          · rfl
          · split
            · rfl
            · exact hstray

theorem owed_events (t : Transaction) (lines : List Line) :
    owed (List.zipWith Entry.mk lines ((t.events lines).map Event.fate)) =
      Run.told (t.events lines) := by
  induction lines generalizing t with
  | nil => rfl
  | cons l lines ih =>
      rw [Transaction.events, List.map_cons, List.zipWith_cons_cons,
        Run.told_cons, ← ih, ← message?_handle]
      unfold owed
      cases h : (Entry.mk l (t.handle l).value.2.fate).message? <;> simp [h]

theorem zipWith_left (lines : List Line) :
    List.zipWith Entry.mk lines (lines.map fun _ => .left) =
      lines.map (⟨·, .left⟩) := by
  induction lines with
  | nil => rfl
  | cons l lines ih => rw [List.map_cons, List.zipWith_cons_cons, ih,
      List.map_cons]

/-- The fates of the lines in the queue agree with what is made known. -/
theorem owed_fates {s : Stage} {l : Link} (h : s.empties = true) :
    (s.fates l).length = l.replies.length ∧
      (∀ f ∈ s.fates l, f ≠ .waiting) ∧
      owed (List.zipWith Entry.mk l.replies (s.fates l)) = s.toldBy l := by
  have hleft : (l.replies.map fun _ => Fate.left).length = l.replies.length ∧
      (∀ f ∈ l.replies.map fun _ => Fate.left, f ≠ .waiting) ∧
      owed (List.zipWith Entry.mk l.replies (l.replies.map fun _ => .left)) =
        l.replies.filterMap Urc.ofLine? := by
    refine ⟨List.length_map _, fun f hf => ?_, by rw [zipWith_left, owed_left]⟩
    obtain ⟨_, _, rfl⟩ := List.mem_map.1 hf
    exact Fate.left_ne_waiting
  cases s with
  | listening => cases h
  | waiting plan =>
      have hrun : plan.next.isRun = true := h
      rw [Stage.fates, h, if_pos rfl, Stage.toldBy, hrun, if_pos rfl]
      exact hleft
  | pausing plan deadline =>
      have hrun : plan.next.isRun = true := h
      rw [Stage.fates, h, if_pos rfl, Stage.toldBy, hrun, if_pos rfl]
      exact hleft
  | running plan run =>
      rw [Stage.fates, Run.fates, Stage.toldBy, Run.toldBy]
      split
      · refine ⟨by rw [List.length_map, Transaction.length_events],
          fun f hf => ?_,
          owed_events _ _⟩
        obtain ⟨e, _, rfl⟩ := List.mem_map.1 hf
        exact e.fate_ne_waiting
      · exact hleft

theorem toldBy_of_not_empties {s : Stage} {l : Link} (h : s.empties = false) :
    s.toldBy l = [] ∧ s.fates l = [] := by
  cases s with
  | listening => exact ⟨rfl, rfl⟩
  | waiting plan =>
      have hrun : plan.next.isRun = false := h
      rw [Stage.toldBy, hrun, Stage.fates, h]
      exact ⟨rfl, rfl⟩
  | pausing plan deadline =>
      have hrun : plan.next.isRun = false := h
      rw [Stage.toldBy, hrun, Stage.fates, h]
      exact ⟨rfl, rfl⟩
  | running plan run => cases h

/-! ## Dealing -/

theorem deal_nil (es : List Entry) : deal es [] = es := by
  cases es <;> rfl

theorem deal_append {past : List Entry} (h : ∀ e ∈ past, e.fate ≠ .waiting)
    (es : List Entry) (fs : List Fate) :
    deal (past ++ es) fs = past ++ deal es fs := by
  induction past with
  | nil => rfl
  | cons e past ih =>
      have hrest := ih fun k hk => h k (List.mem_cons_of_mem e hk)
      cases fs with
      | nil => rw [deal_nil, deal_nil]
      | cons f fs =>
          rw [List.cons_append, deal, if_neg (h e List.mem_cons_self), hrest]
          rfl

theorem deal_waiting {lines : List Line} {fs : List Fate}
    (h : fs.length = lines.length) (es : List Entry) :
    deal (lines.map (⟨·, .waiting⟩) ++ es) fs =
      List.zipWith Entry.mk lines fs ++ es := by
  induction lines generalizing fs with
  | nil =>
      rw [List.eq_nil_of_length_eq_zero h, deal_nil]
      rfl
  | cons l lines ih =>
      cases fs with
      | nil => cases h
      | cons f fs =>
          rw [List.map_cons, List.cons_append, deal, if_pos rfl,
            ih (Nat.succ.inj h)]
          rfl

theorem append_singleton_eq_cons_iff {α : Type} {a : α} {behind : List α} :
    behind ++ [a] = a :: behind ↔ ∀ b ∈ behind, b = a := by
  induction behind with
  | nil => simp
  | cons b behind ih =>
      rw [List.cons_append, List.cons.injEq, List.forall_mem_cons]
      constructor
      · rintro ⟨rfl, h⟩
        exact ⟨rfl, ih.1 h⟩
      · rintro ⟨rfl, h⟩
        exact ⟨rfl, ih.2 h⟩

/-- Where the parts before have the same length, one message can change places
with those behind it only if they are all alike. -/
theorem append_swap_iff {α : Type} {xs ys behind one : List α}
    (hlen : xs.length = ys.length) (hone : one.length ≤ 1) :
    xs ++ behind ++ one = ys ++ one ++ behind ↔
      xs = ys ∧ ∀ a ∈ one, ∀ b ∈ behind, b = a := by
  have hswap : behind ++ one = one ++ behind ↔
      ∀ a ∈ one, ∀ b ∈ behind, b = a := by
    match one, hone with
    | [], _ => simp
    | [a], _ =>
        rw [List.forall_mem_singleton]
        exact append_singleton_eq_cons_iff
  rw [List.append_assoc, List.append_assoc]
  constructor
  · intro h
    obtain ⟨hxs, hrest⟩ := List.append_inj h hlen
    exact ⟨hxs, hswap.1 hrest⟩
  · rintro ⟨rfl, h⟩
    rw [hswap.2 h]

/-! ## The book is right -/

namespace Modem

/-- The book of a modem: `past` is settled and has made `known` known,
then comes what is outstanding, and then the lines that were dealt
with `direct`ly. -/
structure Booked (m : Modem) (b : Book) (pub : List Urc) (past : List Entry)
    (direct : List Line) (known : List Urc) : Prop where
  orderly : m.Orderly
  attended : m.Attended
  plain : ∀ t ∈ m.tasks, t.stage.IsPlain
  entries : b.entries =
    past ++ m.outstanding.map (⟨·, .waiting⟩) ++ direct.map (⟨·, .left⟩)
  settled : ∀ e ∈ past, e.fate ≠ .waiting
  attending : m.link.awaiting = true → direct = [] ∧ b.late = false
  resting : m.link.awaiting = false →
    m.outstanding.length ≤ 1 ∧ (b.late = true ↔ m.link.replies ≠ [])
  inHand : direct ≠ [] → m.receiver.inHand = []
  published : pub = known ++ direct.filterMap Urc.ofLine?
  perm : known.Perm (owed past)
  inOrder : b.overtaken = false ↔ known = owed past ∧
    ∀ a ∈ m.outstanding.filterMap Urc.ofLine?,
    ∀ u ∈ direct.filterMap Urc.ofLine?, u = a

variable {m : Modem} {b : Book} {pub known : List Urc} {past : List Entry}
  {direct : List Line}

theorem booked_idle : Booked idle .empty [] [] [] [] where
  orderly := orderly_idle
  attended := attended_idle
  plain _ h := absurd h List.not_mem_nil
  entries := rfl
  settled _ h := absurd h List.not_mem_nil
  attending := nofun
  resting _ := ⟨Nat.zero_le 1, nofun, fun h => absurd rfl h⟩
  inHand h := absurd rfl h
  published := rfl
  perm := .nil
  inOrder := ⟨fun _ =>
    ⟨rfl, fun _ h => absurd h List.not_mem_nil⟩, fun _ => rfl⟩

theorem Booked.of_same {m' : Modem} (h : Booked m b pub past direct known)
    (ho : m'.Orderly) (ha : m'.Attended)
    (hplain : ∀ t ∈ m'.tasks, t.stage.IsPlain)
    (hawaiting : m'.link.awaiting = m.link.awaiting)
    (hreplies : m'.link.replies = m.link.replies)
    (hreceiver : m'.receiver = m.receiver) :
    Booked m' b pub past direct known := by
  have hout : m'.outstanding = m.outstanding := by
    rw [outstanding, outstanding, hreplies, hreceiver]
  refine ⟨ho, ha, hplain, ?_, h.settled, ?_, ?_, ?_, h.published, h.perm, ?_⟩
  · rw [hout]
    exact h.entries
  · rw [hawaiting]
    exact h.attending
  · rw [hawaiting, hout, hreplies]
    exact h.resting
  · rw [hreceiver]
    exact h.inHand
  · rw [hout]
    exact h.inOrder

theorem Booked.late_and (h : Booked m b pub past direct known) :
    (b.late && !m.link.awaiting) = b.late := by
  cases ha : m.link.awaiting with
  | false => exact Bool.and_true _
  | true => rw [(h.attending ha).2]; rfl

/-- While a run is in progress, the lines that come in are outstanding. -/
theorem Booked.receive_awaiting (h : Booked m b pub past direct known)
    (ha : m.link.awaiting = true)
    (hnot : .notice .replyNotTaken ∉ m.receive.trace) :
    Booked m.receive.value (m.note b (.turn .receiver))
      (pub ++ CellModem.published m.receive.trace) past direct known := by
  have hr := received_receive m
  obtain ⟨hdirect, hlate⟩ := h.attending ha
  subst hdirect
  have hout : m.receive.value.outstanding = m.outstanding ++
      sentOn (framed m.receive.trace) := by
    rw [hr.outstanding hnot, ha, if_pos rfl]
  have hnote : m.note b (.turn .receiver) =
      { b with entries := b.entries ++
        (sentOn (framed m.receive.trace)).map (⟨·, .waiting⟩) } := by
    rw [note, ha, if_pos rfl]
  rw [hnote, hr.published, ha, if_pos rfl, List.append_nil]
  refine ⟨orderly_of_tasks h.orderly hr.tasks hr.begun,
    attended_of_tasks h.attended hr.tasks hr.awaiting, ?_, ?_, h.settled,
    fun _ => ⟨rfl, hlate⟩,
    fun hno => ?_, fun hne => absurd rfl hne, h.published, h.perm, ?_⟩
  · rw [hr.tasks]
    exact h.plain
  · rw [hout, h.entries, List.map_append]
    simp only [List.map_nil, List.append_nil, List.append_assoc]
  · rw [hr.awaiting, ha] at hno
    cases hno
  · rw [h.inOrder]
    exact and_congr_right fun _ =>
      ⟨fun _ _ _ _ hu => absurd hu List.not_mem_nil, fun _ _ _ _ hu =>
        absurd hu List.not_mem_nil⟩

theorem overtakes_eq_false_iff {lines slower : List Line} :
    overtakes lines slower = false ↔
      ∀ a ∈ slower.filterMap Urc.ofLine?,
      ∀ u ∈ lines.filterMap Urc.ofLine?, u = a := by
  rw [overtakes, List.any_eq_false]
  refine forall₂_congr fun a _ => ?_
  rw [Bool.not_eq_true, List.any_eq_false]
  exact forall₂_congr fun u _ => by simp

/-- While no run is in progress, the lines that come in are dealt with directly,
and overtake the one that is outstanding, if there is one. -/
theorem Booked.receive_resting (h : Booked m b pub past direct known)
    (ha : m.link.awaiting = false)
    (hnot : .notice .replyNotTaken ∉ m.receive.trace) :
    Booked m.receive.value (m.note b (.turn .receiver))
      (pub ++ CellModem.published m.receive.trace) past
      (direct ++ sentOn (framed m.receive.trace)) known := by
  have hr := received_receive m
  obtain ⟨hone, hlate⟩ := h.resting ha
  have hout : m.receive.value.outstanding = m.outstanding := by
    rw [hr.outstanding hnot, ha]
    exact List.append_nil _
  -- With so few lines in the queue there is space for the one in hand.
  have hfew : m.receive.value.link.replies.length < Link.maxReplies := by
    rw [← hout, outstanding, List.length_append] at hone
    unfold Link.maxReplies
    omega
  have hhand : m.receive.value.receiver.inHand = [] :=
    inHand_of_reading (reading_of_receiveStep (receiveStep_receive m) hfew)
  have hreplies : m.receive.value.link.replies = m.link.replies ++
      m.receiver.inHand := by
    rw [outstanding, hhand, List.append_nil] at hout
    exact hout
  have hnote : m.note b (.turn .receiver) =
      ⟨b.entries ++ (sentOn (framed m.receive.trace)).map (⟨·, .left⟩),
        b.late || !m.receiver.inHand.isEmpty,
        b.overtaken || overtakes (sentOn (framed m.receive.trace))
        m.outstanding⟩ := by
    rw [note, ha]
    rfl
  rw [hnote, hr.published, ha, if_neg Bool.false_ne_true]
  refine ⟨orderly_of_tasks h.orderly hr.tasks hr.begun,
    attended_of_tasks h.attended hr.tasks hr.awaiting, ?_, ?_, h.settled,
    fun hyes => ?_, fun _ => ⟨?_, ?_⟩, fun _ => hhand, ?_, h.perm, ?_⟩
  · rw [hr.tasks]
    exact h.plain
  · rw [hout, h.entries, List.map_append, List.append_assoc]
  · rw [hr.awaiting, ha] at hyes
    cases hyes
  · rw [hout]
    exact hone
  · rw [hreplies, Bool.or_eq_true, hlate, Bool.not_eq_true',
      List.isEmpty_eq_false_iff, ne_eq, ne_eq, ne_eq, List.append_eq_nil_iff,
      Classical.not_and_iff_not_or_not]
  · rw [h.published, List.filterMap_append, List.append_assoc]
  · rw [hout, Bool.or_eq_false_iff, h.inOrder, overtakes_eq_false_iff,
      List.filterMap_append, and_assoc]
    refine and_congr_right fun _ => ⟨fun hboth a hmem u hu => ?_,
      fun hall => ⟨?_, ?_⟩⟩
    · rcases List.mem_append.1 hu with hu | hu
      · exact hboth.1 a hmem u hu
      · exact hboth.2 a hmem u hu
    · exact fun a hmem u hu => hall a hmem u (List.mem_append_left _ hu)
    · exact fun a hmem u hu => hall a hmem u (List.mem_append_right _ hu)

/-! ### Turns of tasks -/

theorem plain_turned {t : Task} {outs : List Output} {m' : Modem}
    {stage? : Option Stage} (h : ∀ u ∈ m.tasks, u.stage.IsPlain)
    (ht : t ∈ m.tasks) (hturn : Turned m t outs m' stage?) :
    ∀ u ∈ m'.tasks, u.stage.IsPlain := by
  intro u hu
  rcases (hturn.mem_tasks ht).1 hu with ⟨hold, _⟩ | ⟨s, hs, rfl⟩
  · exact h u hold
  · exact hturn.plain (h t ht) s hs

/-- A turn that has nothing to do with a run leaves the lines where they are. -/
theorem Booked.turn_idle {t : Task} {outs : List Output} {m' : Modem}
    {stage? : Option Stage} (h : Booked m b pub past direct known)
    (ht : t ∈ m.tasks) (hturn : Turned m t outs m' stage?)
    (hempties : t.stage.empties = false) : Booked m' { b with
        entries := deal b.entries (t.stage.fates m.link)
        late := b.late && !m'.link.awaiting } (pub ++ CellModem.published outs)
      past direct known := by
  obtain ⟨htold, hfates⟩ := @toldBy_of_not_empties _ m.link hempties
  have hrunning : t.stage.isRunning = false := by
    cases hs : t.stage with
    | running plan run => rw [hs] at hempties; cases hempties
    | listening => rfl
    | waiting plan => rfl
    | pausing plan deadline => rfl
  have hawaiting : m'.link.awaiting = m.link.awaiting := by
    rw [hturn.begins hrunning, hempties]
    rfl
  have hreplies : m'.link.replies = m.link.replies := by
    rw [hturn.replies, hempties]
    rfl
  rw [hturn.published (h.plain t ht), htold, List.append_nil, hfates,
    deal_nil, hawaiting, h.late_and]
  exact h.of_same (orderly_turned h.orderly ht hturn)
    (attended_turned h.orderly h.attended ht hturn)
    (plain_turned h.plain ht hturn) hawaiting hreplies hturn.receiver

theorem Booked.entries_dealt {fs : List Fate}
    (h : Booked m b pub past direct known)
    (hlen : fs.length = m.link.replies.length) :
    deal b.entries fs = past ++ List.zipWith Entry.mk m.link.replies fs ++
      m.receiver.inHand.map (⟨·, .waiting⟩) ++ direct.map (⟨·, .left⟩) := by
  rw [h.entries, outstanding, List.map_append, List.append_assoc,
    deal_append h.settled, List.append_assoc, deal_waiting hlen]
  simp only [List.append_assoc]

theorem settled_zipWith {lines : List Line} {fs : List Fate}
    (h : ∀ f ∈ fs, f ≠ .waiting) :
    ∀ e ∈ List.zipWith Entry.mk lines fs, e.fate ≠ .waiting := by
  intro e he
  obtain ⟨i, hi, rfl⟩ := List.mem_iff_getElem.1 he
  rw [List.getElem_zipWith]
  exact h _ (List.getElem_mem _)

/-- A turn that has to do with a run settles what is queued. Without lines that
were dealt with directly, all that was settled before came before. -/
theorem Booked.turn_in_order {t : Task} {outs : List Output} {m' : Modem}
    {stage? : Option Stage} (h : Booked m b pub past [] known)
    (ht : t ∈ m.tasks) (hturn : Turned m t outs m' stage?)
    (hempties : t.stage.empties = true) : Booked m' { b with
        entries := deal b.entries (t.stage.fates m.link)
        late := b.late && !m'.link.awaiting } (pub ++ CellModem.published outs)
      (past ++ List.zipWith Entry.mk m.link.replies (t.stage.fates m.link)) []
      (known ++ t.stage.toldBy m.link) := by
  obtain ⟨hlen, hfates, howed⟩ := @owed_fates _ m.link hempties
  have hreplies : m'.link.replies = [] := by rw [hturn.replies, hempties]; rfl
  have hout : m'.outstanding = m.receiver.inHand := by
    rw [outstanding, hreplies, hturn.receiver, List.nil_append]
  have hpub : pub = known := by
    rw [h.published]
    exact List.append_nil _
  refine ⟨orderly_turned h.orderly ht hturn,
    attended_turned h.orderly h.attended ht hturn,
    plain_turned h.plain ht hturn, ?_, ?_, fun hyes => ⟨rfl, ?_⟩,
    fun hno => ⟨?_, ?_⟩, fun hne => absurd rfl hne, ?_, ?_, ?_⟩
  · rw [hout]
    exact h.entries_dealt hlen
  · intro e he
    rcases List.mem_append.1 he with hold | hnew
    · exact h.settled e hold
    · exact settled_zipWith hfates e hnew
  · rw [hyes]
    exact Bool.and_false _
  · rw [hout]
    exact length_inHand_le _
  · -- The run has ended in this turn, and before it no line can have been late.
    have hrunning : t.stage.isRunning = true := by
      cases hrun : t.stage.isRunning with
      | true => rfl
      | false =>
          rw [hturn.begins hrun, hempties] at hno
          cases hno
    have hlate := (h.attending (h.attended.awaiting_of_isRunning ht hrunning)).2
    rw [hreplies, hlate]
    exact ⟨fun hlate => absurd hlate Bool.false_ne_true,
      fun hne => absurd rfl hne⟩
  · rw [hturn.published (h.plain t ht), hpub]
    exact (List.append_nil _).symm
  · rw [owed_append, howed]
    exact h.perm.append_right _
  · have hvacuous (lines : List Line) : ∀ a ∈ lines.filterMap Urc.ofLine?,
        ∀ u ∈ ([] : List Line).filterMap Urc.ofLine?, u = a :=
      fun _ _ _ hu => absurd hu List.not_mem_nil
    have hold : b.overtaken = false ↔ known = owed past := by
      rw [h.inOrder]
      exact ⟨And.left, fun hk => ⟨hk, hvacuous _⟩⟩
    rw [hold, owed_append, howed, List.append_cancel_right_eq]
    exact ⟨fun hk => ⟨hk, hvacuous _⟩, And.left⟩

/-- A run that begins settles the one line that may be outstanding, behind those
that were dealt with directly. -/
theorem Booked.turn_overtaken {t : Task} {outs : List Output} {m' : Modem}
    {stage? : Option Stage} (h : Booked m b pub past direct known)
    (hdirect : direct ≠ []) (ht : t ∈ m.tasks)
    (hturn : Turned m t outs m' stage?) (hempties : t.stage.empties = true) :
    Booked m' { b with
        entries := deal b.entries (t.stage.fates m.link)
        late := b.late && !m'.link.awaiting } (pub ++ CellModem.published outs)
      (past ++ List.zipWith Entry.mk m.link.replies (t.stage.fates m.link) ++
        direct.map (⟨·, .left⟩)) []
      (known ++ direct.filterMap Urc.ofLine? ++ t.stage.toldBy m.link) := by
  obtain ⟨hlen, hfates, howed⟩ := @owed_fates _ m.link hempties
  have hhand := h.inHand hdirect
  have hfree : m.link.awaiting = false := by
    cases ha : m.link.awaiting with
    | false => rfl
    | true => exact absurd (h.attending ha).1 hdirect
  have hrunning : t.stage.isRunning = false := by
    cases hrun : t.stage.isRunning with
    | false => rfl
    | true =>
        rw [h.attended.awaiting_of_isRunning ht hrun] at hfree
        cases hfree
  have hawaiting : m'.link.awaiting = true := by
    rw [hturn.begins hrunning, hempties]; rfl
  have hreplies : m'.link.replies = [] := by rw [hturn.replies, hempties]; rfl
  have hout : m.outstanding = m.link.replies := by
    rw [outstanding, hhand, List.append_nil]
  have hout' : m'.outstanding = [] := by
    rw [outstanding, hreplies, hturn.receiver, hhand]
    rfl
  have htold : t.stage.toldBy m.link = m.outstanding.filterMap Urc.ofLine? := by
    rw [hout]
    cases hs : t.stage with
    | running plan run => rw [hs] at hrunning; cases hrunning
    | listening => rw [hs] at hempties; cases hempties
    | waiting plan => rw [hs] at hempties; exact if_pos hempties
    | pausing plan deadline => rw [hs] at hempties; exact if_pos hempties
  have hone : (t.stage.toldBy m.link).length ≤ 1 := by
    rw [htold]
    exact Nat.le_trans (List.length_filterMap_le _ _) (h.resting hfree).1
  have howed' :
      owed (past ++ List.zipWith Entry.mk m.link.replies
        (t.stage.fates m.link) ++ direct.map (⟨·, .left⟩)) =
        owed past ++ t.stage.toldBy m.link ++ direct.filterMap Urc.ofLine? := by
    rw [owed_append, owed_append, howed, owed_left]
  refine ⟨orderly_turned h.orderly ht hturn,
    attended_turned h.orderly h.attended ht hturn,
    plain_turned h.plain ht hturn, ?_, ?_, fun _ => ⟨rfl, ?_⟩, fun hno => ?_,
    fun hne => absurd rfl hne, ?_, ?_, ?_⟩
  · rw [hout', h.entries_dealt hlen, hhand]
    simp only [List.map_nil, List.append_nil]
  · intro e he
    rcases List.mem_append.1 he with he | hleft
    · rcases List.mem_append.1 he with hold | hnew
      · exact h.settled e hold
      · exact settled_zipWith hfates e hnew
    · obtain ⟨l, _, rfl⟩ := List.mem_map.1 hleft
      exact Fate.left_ne_waiting
  · rw [hawaiting]
    exact Bool.and_false _
  · rw [hawaiting] at hno
    cases hno
  · rw [hturn.published (h.plain t ht), h.published]
    exact (List.append_nil _).symm
  · rw [howed', List.append_assoc, List.append_assoc]
    exact h.perm.append List.perm_append_comm
  · rw [howed', append_swap_iff h.perm.length_eq hone, h.inOrder, htold]
    exact ⟨fun hall => ⟨hall, fun _ _ _ hu => absurd hu List.not_mem_nil⟩,
      And.left⟩

/-! ### Histories -/

theorem Booked.turn {t : Task} {outs : List Output} {m' : Modem}
    {stage? : Option Stage} (h : Booked m b pub past direct known)
    (ht : t ∈ m.tasks) (hturn : Turned m t outs m' stage?) :
    ∃ past' direct' known', Booked m' { b with
        entries := deal b.entries (t.stage.fates m.link)
        late := b.late && !m'.link.awaiting } (pub ++ CellModem.published outs)
      past' direct' known' := by
  cases hempties : t.stage.empties with
  | false => exact ⟨_, _, _, h.turn_idle ht hturn hempties⟩
  | true =>
      by_cases hdirect : direct = []
      · subst hdirect
        exact ⟨_, _, _, h.turn_in_order ht hturn hempties⟩
      · exact ⟨_, _, _, h.turn_overtaken hdirect ht hturn hempties⟩

theorem Booked.note_of_stuck (h : Booked m b pub past direct known)
    {x : Happening} (hreceiver : x ≠ .turn .receiver)
    (hstuck : ∀ id, x = .turn (.task id) → m.poll (.task id) = none) :
    m.note b x = b := by
  cases x with
  | action a => rfl
  | turn p =>
      cases p with
      | receiver => exact absurd rfl hreceiver
      | transmitter => rfl
      | task id =>
          have hnone := hstuck id rfl
          have hvalue : (m.happen (.turn (.task id))).value = m := by
            rw [happen, hnone]
            rfl
          rw [note, fates, hnone, hvalue, h.late_and]
          exact congrArg (fun es => Book.mk es b.late b.overtaken) (deal_nil _)

theorem booked_happen (h : Booked m b pub past direct known) {x : Happening}
    (hplain : ∀ job, x = .action (.begin job) → job.IsPlain)
    (hcancel : ∀ id, x ≠ .action (.cancel id))
    (hnot : .notice .replyNotTaken ∉ (m.happen x).trace) :
    ∃ past' direct' known', Booked (m.happen x).value (m.note b x)
      (pub ++ CellModem.published (m.happen x).trace) past' direct' known' := by
  have ho := orderly_happen h.orderly x
  have ha := attended_happen h.orderly h.attended hcancel
  rcases m.happen_cases x with ⟨job, rfl⟩ | ⟨id, rfl⟩ | ⟨ms, rfl⟩ | rfl |
      ⟨t, y, ht, rfl, hfind, hy, he⟩ | ⟨hreceiver, hstuck, hkept⟩
  · have hv : (m.happen (.action (.begin job))).value = (m.begin job).value :=
      rfl
    have hpub : CellModem.published (m.happen (.action (.begin job))).trace =
        [] := by
      cases job <;> rfl
    have hnew : (firstStage job).IsPlain := by
      have := hplain job rfl
      cases job <;> exact this
    rw [hv, value_begin] at ho ha ⊢
    rw [hpub, List.append_nil]
    refine ⟨past, direct, known, h.of_same ho ha (fun t ht => ?_) rfl rfl rfl⟩
    rcases List.mem_append.1 ht with hold | hmem
    · exact h.plain t hold
    · rw [List.mem_singleton.1 hmem]
      exact hnew
  · exact absurd rfl (hcancel id)
  · have hpub :
        CellModem.published (m.happen (.action (.wait ms))).trace = [] := rfl
    rw [hpub, List.append_nil]
    exact ⟨past, direct, known, h.of_same ho ha h.plain rfl rfl rfl⟩
  · rw [happen_receiver] at hnot ⊢
    cases hawaiting : m.link.awaiting with
    | true => exact ⟨_, _, _, h.receive_awaiting hawaiting hnot⟩
    | false => exact ⟨_, _, _, h.receive_resting hawaiting hnot⟩
  · obtain ⟨stage?, hturn⟩ := turned_pollTask (h.orderly.isOpen t ht) hy
    have hfates : m.fates t.id = t.stage.fates m.link := by
      have hpoll : m.poll (.task t.id) = some y := by
        rw [poll, hfind]
        exact hy
      rw [fates, hpoll, hfind]
      rfl
    rw [note, hfates, he]
    exact h.turn ht hturn
  · rw [h.note_of_stuck hreceiver hstuck, hkept.published, List.append_nil]
    refine ⟨past, direct, known,
      h.of_same ho ha ?_ hkept.awaiting hkept.replies hkept.receiver⟩
    rw [hkept.tasks]
    exact h.plain

theorem booked_follow {hs : List Happening}
    (hplain : ∀ job, .action (.begin job) ∈ hs → job.IsPlain)
    (hcancel : ∀ id, .action (.cancel id) ∉ hs)
    (hnot : .notice .replyNotTaken ∉ (m.follow hs).trace)
    (h : Booked m b pub past direct known) :
    ∃ past' direct' known',
      Booked (m.follow hs).value (m.book b hs)
        (pub ++ CellModem.published (m.follow hs).trace) past' direct'
        known' := by
  induction hs generalizing m b pub past direct known with
  | nil =>
      refine ⟨past, direct, known, ?_⟩
      have hpub : pub ++ CellModem.published (m.follow []).trace = pub :=
        List.append_nil _
      rw [hpub]
      exact h
  | cons x hs ih =>
      have htrace : (m.follow (x :: hs)).trace =
          (m.happen x).trace ++ ((m.happen x).value.follow hs).trace := by
        rw [follow, Traced.trace_bind]
      rw [htrace, List.mem_append, not_or] at hnot
      obtain ⟨past', direct', known', h'⟩ := booked_happen h
        (fun job he => hplain job (he ▸ List.mem_cons_self))
        (fun id he => hcancel id (he ▸ List.mem_cons_self)) hnot.1
      rw [htrace, published_append, ← List.append_assoc]
      exact ih (fun job hj => hplain job (List.mem_cons_of_mem x hj))
        (fun id hid => hcancel id (List.mem_cons_of_mem x hid)) hnot.2 h'

/-- If nobody can do anything and no run is in progress, no line is in the
receiver's hand. -/
theorem Booked.inHand_of_isQuiet (h : Booked m b pub past direct known)
    (hquiet : m.IsQuiet) (hfree : m.link.awaiting = false) :
    m.receiver.inHand = [] := by
  have hfew : m.link.replies.length < Link.maxReplies := by
    have hone := (h.resting hfree).1
    rw [outstanding, List.length_append] at hone
    unfold Link.maxReplies
    omega
  exact inHand_of_reading
    (reading_of_receiveStep hquiet.receiveStep_eq_none hfew)

/-- Every message that no transaction took is published once. When all is quiet
and no run is in progress, the queue of received lines is empty and the
messages were published in the order of their lines just if no line has joined
the queue late since the last run began, and no message has ever overtaken a
different one that was late. -/
theorem in_order_iff {hs : List Happening}
    (hplain : ∀ job, .action (.begin job) ∈ hs → job.IsPlain)
    (hcancel : ∀ id, .action (.cancel id) ∉ hs)
    (hnot : .notice .replyNotTaken ∉ (idle.follow hs).trace)
    (hquiet : (idle.follow hs).value.IsQuiet)
    (hfree : ∀ t ∈ (idle.follow hs).value.tasks, t.stage.isRunning = false) :
    let m := (idle.follow hs).value
    let pub := CellModem.published (idle.follow hs).trace
    let b := idle.book .empty hs
    pub.Perm b.expected ∧
    (m.link.replies = [] ∧ pub = b.expected ↔
      b.late = false ∧ b.overtaken = false) := by
  intro m pub b
  obtain ⟨past, direct, known, h⟩ :=
    booked_follow hplain hcancel hnot booked_idle
  have hawaiting : m.link.awaiting = false := by
    cases ha : m.link.awaiting with
    | false => rfl
    | true =>
        obtain ⟨t, ht, hrun⟩ := h.attended.1 ha
        rw [hfree t ht] at hrun
        cases hrun
  have hpub : pub = known ++ direct.filterMap Urc.ofLine? := h.published
  have hexpected : b.expected = owed past ++ direct.filterMap Urc.ofLine? := by
    show owed b.entries = _
    rw [h.entries, owed_append, owed_append, owed_waiting, owed_left,
      List.append_nil]
  have hlate := (h.resting hawaiting).2
  have hempty : m.link.replies = [] ↔ b.late = false := by
    rw [← Bool.not_eq_true, hlate, Classical.not_not]
  refine ⟨by rw [hpub, hexpected]; exact h.perm.append_right _, ?_⟩
  rw [hempty, hpub, hexpected, List.append_cancel_right_eq]
  refine and_congr_right fun hno => ?_
  have hout : m.outstanding = [] := by
    rw [outstanding, hempty.2 hno, h.inHand_of_isQuiet hquiet hawaiting]
    rfl
  rw [h.inOrder, hout]
  exact ⟨fun hk => ⟨hk, fun _ hmem => absurd hmem List.not_mem_nil⟩, And.left⟩

/-- A final result with two messages behind it, which the run leaves
to be sorted out. -/
theorem in_order_of_short_burst :
    let hs : List Happening :=
      [.action (.begin .hangUp), .turn (.task 0), .turn .transmitter,
      .action (.arrive (Text.bytes "OK\nRING\nNO CARRIER\n")), .turn .receiver,
      .turn (.task 0)]
    (idle.follow hs).value.link.replies = [] ∧
      CellModem.published (idle.follow hs).trace =
      (idle.book .empty hs).expected := by
  intro hs
  have hplain : ∀ job, .action (.begin job) ∈ hs → job.IsPlain := by
    intro job hj
    simp only [hs, List.mem_cons, Happening.action.injEq,
      Action.begin.injEq, reduceCtorEq, List.not_mem_nil, or_false] at hj
    rw [hj]
    exact Job.isPlain_single .hangUp
  have hnot : .notice .replyNotTaken ∉ (idle.follow hs).trace :=
    fun h => absurd (mem_notices.2 h) (by decide +kernel)
  exact (in_order_iff hplain (by simp [hs]) hnot
    (by unfold IsQuiet; decide +kernel) (by decide +kernel)).2.2
      (by decide +kernel)

/-- Eight messages behind the final result are one more than the queue
holds. The last of them waits for space until the run has ended, and then it
stays in the queue. -/
theorem late_line_left_behind :
    let burst :=
      Text.bytes "OK\n" ++ (List.replicate 8 (Text.bytes "RING\n")).flatten
    let hs : List Happening :=
      [.action (.begin .hangUp), .turn (.task 0), .turn .transmitter,
      .action (.arrive burst), .turn .receiver, .turn (.task 0),
      .turn .receiver]
    let m := (idle.follow hs).value
    let outs := (idle.follow hs).trace
    (∀ id, .action (.cancel id) ∉ hs) ∧ .notice .replyNotTaken ∉ outs ∧
      m.IsQuiet ∧ m.tasks = [] ∧ m.link.replies = [.ofText "RING"] ∧
      (sentOn (framed outs)).filterMap Urc.ofLine? = List.replicate 8 .ring ∧
      CellModem.published outs = List.replicate 7 .ring := by
  refine ⟨by simp, fun h => absurd (mem_notices.2 h) (by decide +kernel),
    by unfold IsQuiet; decide +kernel,
    List.isEmpty_iff.1 (by decide +kernel), by decide +kernel,
    by decide +kernel, by decide +kernel⟩

end Modem

end CellModem
