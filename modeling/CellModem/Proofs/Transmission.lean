import CellModem.Proofs.Offering
import CellModem.Proofs.Serial
import CellModem.Sink
import Mathlib.Data.List.Basic

/-!
# What goes over the wire

Nothing of a command is kept when the far end has done with it, so it cannot be
sent twice, and what one command runs into is nothing to the next. The wire
therefore carries one piece for each command that was taken, in the order of the
queue.

All transmissions but the last one have ended, and how far that one is, the
transmitter shows (`Transmission.Staged`). So the books of a history are
balanced (`Modem.Balanced`) if its transmissions account for the commands that
were queued, for the answers that were given, and for all that is seen of the
transmitter. A piece of the transmitter's work takes a command, or adds one
answer to the transmission under way (`Modem.Balanced.sending`), and so does
whoever wakes it; the others add to the queue at most.
-/

namespace CellModem

/-! ## What is seen of the transmitter -/

/-- What the transmitter does that can be seen from outside. -/
def Output.sending? (o : Output) : Option Output :=
  if o.source? = some .transmitter then some o else none

def sendings (outs : List Output) : List Output :=
  outs.filterMap Output.sending?

/-- The failure that the transmitter reports. -/
def Output.sendFailure? : Output → Option Failure
  | .transmitterFailed failure => some failure
  | _ => none

def sendFailures (outs : List Output) : List Failure :=
  outs.filterMap Output.sendFailure?

theorem sendings_append (xs ys : List Output) :
    sendings (xs ++ ys) = sendings xs ++ sendings ys :=
  List.filterMap_append

theorem sendings_shown {α : Type} (x : Logged α) :
    sendings x.shown.trace = [] := by
  rw [sendings, Logged.shown, Traced.trace_mapTrace, List.filterMap_map]
  exact List.filterMap_eq_nil_iff.2 fun _ _ => rfl

/-- What is written and what fails are parts of what the transmitter does. -/
theorem writes_eq (outs : List Output) :
    writes outs = (sendings outs).filterMap Output.written? := by
  rw [sendings, List.filterMap_filterMap]
  refine List.filterMap_congr fun o _ => ?_
  cases o <;> rfl

theorem sendFailures_eq (outs : List Output) :
    sendFailures outs = (sendings outs).filterMap Output.sendFailure? := by
  rw [sendings, List.filterMap_filterMap]
  refine List.filterMap_congr fun o _ => ?_
  cases o <;> rfl

/-- What is told of one element only is told as often as the
element is there. -/
theorem filterMap_eq_replicate {α β : Type} [DecidableEq α] {f : α → Option β}
    {a : α} {b : β} (ha : f a = some b) (hother : ∀ x, x ≠ a → f x = none)
    (l : List α) : l.filterMap f = List.replicate (l.count a) b := by
  induction l with
  | nil => rfl
  | cons x l ih =>
      by_cases hx : x = a
      · rw [hx, List.filterMap_cons_some ha, ih, List.count_cons_self,
          List.replicate_succ]
      · rw [List.filterMap_cons_none (hother x hx), ih,
          List.count_cons_of_ne hx]

namespace Transmission

variable (t : Transmission)

theorem written_outputs : t.outputs.filterMap Output.written? = t.pieces := by
  have hwrote : (t.pieces.map Output.wrote).filterMap Output.written? =
      t.pieces := by
    rw [List.filterMap_map]
    exact List.filterMap_some
  rw [outputs, List.filterMap_append, List.filterMap_append, hwrote,
    List.filterMap_filterMap, List.filterMap_filterMap]
  have hwrites :
      t.toWrites.filterMap (fun a => a.failure?.bind Output.written?) = [] :=
    List.filterMap_eq_nil_iff.2 fun a _ => by cases a <;> rfl
  have hflushes :
      t.toFlushes.filterMap (fun a => a.seen?.bind Output.written?) = [] :=
    List.filterMap_eq_nil_iff.2 fun a _ => by cases a <;> rfl
  rw [hwrites, hflushes, List.append_nil, List.append_nil]

theorem failed_outputs :
    t.outputs.filterMap Output.sendFailure? =
      List.replicate t.failures .serial := by
  have hwrote :
      (t.pieces.map Output.wrote).filterMap Output.sendFailure? = [] := by
    rw [List.filterMap_map]
    exact List.filterMap_eq_nil_iff.2 fun _ _ => rfl
  have hwrites :
      t.toWrites.filterMap (fun a => a.failure?.bind Output.sendFailure?) =
      List.replicate (t.toWrites.count .failure) .serial := by
    refine filterMap_eq_replicate ?_ (fun a ha => ?_) t.toWrites
    · rfl
    · cases a <;> first | rfl | exact absurd rfl ha
  have hflushes :
      t.toFlushes.filterMap (fun a => a.seen?.bind Output.sendFailure?) =
      List.replicate (t.toFlushes.count .failure) .serial := by
    refine filterMap_eq_replicate ?_ (fun a ha => ?_) t.toFlushes
    · rfl
    · cases a <;> first | rfl | exact absurd rfl ha
  rw [outputs, List.filterMap_append, List.filterMap_append, hwrote,
    List.filterMap_filterMap, List.filterMap_filterMap, hwrites, hflushes,
    List.nil_append, List.replicate_append_replicate]
  rfl

theorem written_flatMap (ts : List Transmission) :
    ((ts.flatMap outputs).filterMap Output.written?).flatten =
      ts.flatMap accepted := by
  induction ts with
  | nil => rfl
  | cons t ts ih =>
      rw [List.flatMap_cons, List.filterMap_append, written_outputs,
        List.flatten_append, ih]
      rfl

theorem failed_flatMap (ts : List Transmission) :
    (ts.flatMap outputs).filterMap Output.sendFailure? =
      ts.flatMap fun t => List.replicate t.failures .serial := by
  induction ts with
  | nil => rfl
  | cons t ts ih =>
      rw [List.flatMap_cons, List.filterMap_append, failed_outputs, ih]
      rfl

/-- What has been accepted and what is left of the last one make up all
commands, unless a write has failed. -/
theorem Staged.accepted_rest {ts : List Transmission} {tr : Transmitter}
    (h : Staged ts tr) (hfine : ∀ t ∈ ts, .failure ∉ t.toWrites) :
    ts.flatMap accepted ++ tr.rest = ts.flatMap offered := by
  have hwhole {ts : List Transmission} (hended : ∀ t ∈ ts, t.HasEnded)
      (hfine : ∀ t ∈ ts, .failure ∉ t.toWrites) :
      ts.flatMap accepted = ts.flatMap offered :=
    List.flatMap_congr fun t ht => (hended t ht).whole_iff.2 (hfine t ht)
  cases h with
  | rest hended => exact (List.append_nil _).trans (hwhole hended hfine)
  | @underWay ts t tr hended ht =>
      rw [List.flatMap_append, List.flatMap_append, List.append_assoc,
        hwhole hended fun t ht => hfine t (List.mem_append_left _ ht)]
      refine congrArg _ ?_
      rw [List.flatMap_singleton, List.flatMap_singleton]
      exact ht.accepted_rest

end Transmission

/-! ## Everybody else only adds to the queue -/

namespace Run

theorem prefix_enqueue (r : Run) (l : Link) :
    l.commands <+: (r.enqueue l).2.commands := by
  unfold enqueue
  split
  · exact List.prefix_append _ _
  · exact List.prefix_rfl

theorem prefix_exchange (r : Run) (l : Link) :
    l.commands <+: (r.exchange l).value.2.1.commands := by
  have henqueue := r.prefix_enqueue l
  unfold exchange
  generalize r.enqueue l = entered at henqueue
  obtain ⟨r', l'⟩ := entered
  dsimp only
  split
  · have htake := (commands_takeLines r'.transaction l' l'.replies).2
    rw [Traced.value_bind]
    show _ <+: (takeLines r'.transaction l' l'.replies).value.2.1.commands
    rw [htake]
    exact henqueue
  · exact henqueue

theorem prefix_poll (r : Run) (now : Nat) (l : Link) :
    l.commands <+: (r.poll now l).value.2.1.commands := by
  have hexchange := r.prefix_exchange l
  cases hv : (r.exchange l).value with
  | mk r' rest =>
      obtain ⟨l', result⟩ := rest
      rw [hv] at hexchange
      cases result with
      | some result =>
          rw [(@poll_of_some _ _ _ _ _ now hv).1, value_finish]
          exact hexchange
      | none =>
          cases hdue : r'.isDue now with
          | true =>
              rw [(poll_of_due hv hdue).1, value_finish]
              exact hexchange
          | false =>
              rw [(poll_of_waiting hv hdue).1]
              exact hexchange

theorem prefix_start (q : Request) (timeout : Timeout) (now : Nat) (l : Link) :
    l.commands <+: (start q timeout now l).value.2.commands := by
  have henqueue :=
    prefix_enqueue ⟨q, (Transaction.start q).value, false, timeout.deadline now⟩
    ({ l with awaiting := true, replies := [] }.publishAll
      (l.replies.filterMap Urc.ofLine?))
  rw [value_start]
  exact henqueue

end Run

/-- Whether a happening puts another writer in the place of the one before. -/
def Happening.setsWriter : Happening → Bool
  | .action (.setWriter _) => true
  | .action _ | .turn _ => false

namespace Modem

variable {m m' : Modem}

theorem prefix_carryOut (m : Modem) (id : Nat) (move : Move) :
    m.link.commands <+: (m.carryOut id move).value.link.commands := by
  cases move with
  | run timeout request rest => exact Run.prefix_start _ _ _ _
  | pause ms rest => exact List.prefix_rfl
  | finish outcome => exact List.prefix_rfl

theorem prefix_continueRun (m : Modem) (id : Nat) (plan : Plan) (run : Run) :
    m.link.commands <+: (m.continueRun id plan run).value.link.commands := by
  have hpoll := run.prefix_poll m.now m.link
  cases hp : (run.poll m.now m.link).value with
  | mk run' rest =>
      obtain ⟨link, result⟩ := rest
      rw [hp] at hpoll
      cases result with
      | none =>
          rw [(@value_continueRun_of_none m id plan run _ _ hp).1]
          exact hpoll
      | some result =>
          rw [(@value_continueRun_of_some m id plan run _ _ _ hp).1]
          exact hpoll.trans (prefix_carryOut { m with link := link } id
            (plan.resume result).value)

theorem prefix_task (m : Modem) (id : Nat) :
    m.link.commands <+: (m.happen (.turn (.task id))).value.link.commands := by
  rw [happen]
  cases hp : m.poll (.task id) with
  | none => exact List.prefix_rfl
  | some y =>
      obtain ⟨t, _, hy⟩ := Option.bind_eq_some_iff.1 hp
      show _ <+: y.value.link.commands
      rcases pollTask_cases hy with ⟨_, receipt, urcs, rfl⟩ | ⟨_, _, rfl⟩ |
          ⟨_, _, _, _, rfl⟩
      · exact prefix_carryOut
          { m with link := { m.link with urcs := urcs } } t.id
          (.finish (.heard receipt))
      · exact prefix_carryOut _ _ _
      · exact prefix_continueRun _ _ _ _

/-! ## The books of a history -/

/-- The commands that enter the queue in a history. -/
def entered (m : Modem) : List Happening → List Command
  | [] => []
  | x :: hs =>
    (if x.source = .task
      then (m.happen x).value.link.commands.drop m.link.commands.length
      else []) ++ (m.happen x).value.entered hs

/-- The answers to writes that are given in a history. -/
def toldWrites (m : Modem) : List Happening → List WriteAnswer
  | [] => []
  | x :: hs =>
    (if x.setsWriter then []
      else m.writer.toldWrites (m.happen x).value.writer) ++
        (m.happen x).value.toldWrites hs

/-- The answers to flushes that are given in a history. -/
def toldFlushes (m : Modem) : List Happening → List FlushAnswer
  | [] => []
  | x :: hs =>
    (if x.setsWriter then []
      else m.writer.toldFlushes (m.happen x).value.writer) ++
        (m.happen x).value.toldFlushes hs

/-- Transmissions that account for the commands that have been queued,
for the answers that have been given, and for all that has been seen of
the transmitter. -/
structure Balanced (queued : List Command) (toWrites : List WriteAnswer)
    (toFlushes : List FlushAnswer) (outs : List Output) (m : Modem)
    (ts : List Transmission) : Prop where
  staged : Transmission.Staged ts m.transmitter
  commands : ts.map (·.command) ++ m.link.commands = queued
  toWrites : ts.flatMap (·.toWrites) = toWrites
  toFlushes : ts.flatMap (·.toFlushes) = toFlushes
  outputs : sendings outs = ts.flatMap Transmission.outputs

variable {queued : List Command} {toWrites : List WriteAnswer}
  {toFlushes : List FlushAnswer} {outs outs' : List Output}
  {ts : List Transmission}

theorem balanced_nil (h : m.transmitter = .idle) :
    Balanced m.link.commands [] [] [] m [] where
  staged := h ▸ .rest fun _ ht => absurd ht List.not_mem_nil
  commands := rfl
  toWrites := rfl
  toFlushes := rfl
  outputs := rfl

/-- While the transmitter has something to write or to flush, there is a last
transmission, and it is the one under way. -/
theorem Balanced.exists_underWay {tr : Transmitter}
    (h : Balanced queued toWrites toFlushes outs m ts)
    (htr : m.transmitter = tr) (hbusy : tr ≠ .idle) :
    ∃ ended t, ts = ended ++ [t] ∧ (∀ t ∈ ended, t.HasEnded) ∧
      t.IsUnderWay tr := by
  have hstaged := h.staged
  rw [htr] at hstaged
  cases hstaged with
  | rest _ => exact absurd rfl hbusy
  | underWay hended ht => exact ⟨_, _, rfl, hended, ht⟩

theorem Balanced.ended (h : Balanced queued toWrites toFlushes outs m ts)
    (hidle : m.transmitter = .idle) : ∀ t ∈ ts, t.HasEnded := by
  have hstaged := h.staged
  rw [hidle] at hstaged
  generalize htr : Transmitter.idle = tr at hstaged
  cases hstaged with
  | rest hended => exact hended
  | underWay _ ht =>
      rw [← htr] at ht
      cases ht

/-- A command that is taken begins another transmission. -/
theorem Balanced.take {command : Command}
    (h : Balanced queued toWrites toFlushes outs m ts)
    (hcommands : m.link.commands = command :: m'.link.commands)
    (hstaged : Transmission.Staged (ts ++ [⟨command, [], []⟩]) m'.transmitter)
    (hnothing : sendings outs' = []) :
    Balanced queued toWrites toFlushes (outs ++ outs') m'
      (ts ++ [⟨command, [], []⟩]) where
  staged := hstaged
  commands := by
    rw [← h.commands, hcommands, List.map_append, List.append_assoc]
    rfl
  toWrites := by
    rw [List.flatMap_append, h.toWrites]
    exact List.append_nil _
  toFlushes := by
    rw [List.flatMap_append, h.toFlushes]
    exact List.append_nil _
  outputs := by
    rw [sendings_append, hnothing, h.outputs, List.flatMap_append]
    rfl

/-- One answer to a write goes to the transmission under way. -/
theorem Balanced.write {ended : List Transmission} {t : Transmission}
    {a : WriteAnswer}
    (h : Balanced queued toWrites toFlushes outs m (ended ++ [t]))
    (hcommands : m'.link.commands = m.link.commands)
    (hstaged : Transmission.Staged (ended ++ [t.write a]) m'.transmitter)
    (houtputs : (t.write a).outputs = t.outputs ++ sendings outs') :
    Balanced queued (toWrites ++ [a]) toFlushes (outs ++ outs') m'
      (ended ++ [t.write a]) where
  staged := hstaged
  commands := by
    rw [hcommands, ← h.commands, List.map_append, List.map_append]
    rfl
  toWrites := by
    rw [← h.toWrites, List.flatMap_append, List.flatMap_append,
      List.flatMap_singleton, List.flatMap_singleton, List.append_assoc]
    rfl
  toFlushes := by
    rw [← h.toFlushes, List.flatMap_append, List.flatMap_append]
    rfl
  outputs := by
    rw [sendings_append, h.outputs, List.flatMap_append, List.flatMap_append,
      List.flatMap_singleton, List.flatMap_singleton, houtputs,
      List.append_assoc]

/-- One answer to a flush goes to the transmission under way. -/
theorem Balanced.flush {ended : List Transmission} {t : Transmission}
    {a : FlushAnswer}
    (h : Balanced queued toWrites toFlushes outs m (ended ++ [t]))
    (hcommands : m'.link.commands = m.link.commands)
    (hstaged : Transmission.Staged (ended ++ [t.flush a]) m'.transmitter)
    (houtputs : sendings outs' = a.seen?.toList) :
    Balanced queued toWrites (toFlushes ++ [a]) (outs ++ outs') m'
      (ended ++ [t.flush a]) where
  staged := hstaged
  commands := by
    rw [hcommands, ← h.commands, List.map_append, List.map_append]
    rfl
  toWrites := by
    rw [← h.toWrites, List.flatMap_append, List.flatMap_append]
    rfl
  toFlushes := by
    rw [← h.toFlushes, List.flatMap_append, List.flatMap_append,
      List.flatMap_singleton, List.flatMap_singleton, List.append_assoc]
    rfl
  outputs := by
    rw [sendings_append, h.outputs, List.flatMap_append, List.flatMap_append,
      List.flatMap_singleton, List.flatMap_singleton, t.outputs_flush, houtputs,
      List.append_assoc]

/-- Every piece of the transmitter's work keeps the books balanced: it takes a
command, or it adds one answer to the transmission under way. -/
theorem Balanced.sending (h : Balanced queued toWrites toFlushes outs m ts)
    (hsending : m.Sending outs' m') : ∃ ts', Balanced queued
      (toWrites ++ m.writer.toldWrites m'.writer)
      (toFlushes ++ m.writer.toldFlushes m'.writer) (outs ++ outs') m' ts' := by
  cases hsending with
  | @take command rest hidle hcommands =>
      have hoffered : Transmission.offered ⟨command, [], []⟩ =
        Text.bytes command.render.value := rfl
      generalize Text.bytes command.render.value = bytes at hoffered
      have hstaged : Transmission.Staged (ts ++ [⟨command, [], []⟩])
          (.offering command bytes) :=
        .underWay (h.ended hidle)
          (Transmission.isUnderWay_offering hoffered.symm List.not_mem_nil rfl)
      have hnothing : sendings (command.render.shown.trace ++
          [.notice (.sending command.render.value)]) = [] := by
        rw [sendings_append, sendings_shown]
        rfl
      rw [Writer.toldWrites_self, Writer.toldFlushes_self, List.append_nil,
        List.append_nil]
      exact ⟨_, h.take hcommands hstaged hnothing⟩
  | @write command rest ne_nil n hwriting hn =>
      obtain ⟨ended, t, rfl, hended, ht⟩ := h.exists_underWay hwriting nofun
      obtain ⟨hway, houtputs⟩ := ht.write hn
      rw [Writer.toldWrites_afterWrite, Writer.toldFlushes_afterWrite,
        List.append_nil]
      exact ⟨_, h.write rfl (.underWay hended hway) houtputs⟩
  | @failWrite command rest ne_nil hwriting hfailure =>
      obtain ⟨ended, t, rfl, hended, ht⟩ := h.exists_underWay hwriting nofun
      obtain ⟨hover, houtputs⟩ := ht.write_failure
      rw [Writer.toldWrites_afterWrite, Writer.toldFlushes_afterWrite,
        List.append_nil, hfailure]
      exact ⟨_, h.write rfl (.rest (List.forall_mem_append.2
        ⟨hended, List.forall_mem_singleton.2 hover⟩)) houtputs⟩
  | flush hflushing hanswer | failFlush hflushing hanswer =>
      obtain ⟨ended, t, rfl, hended, ht⟩ := h.exists_underWay hflushing nofun
      rw [Writer.toldWrites_afterFlush, Writer.toldFlushes_afterFlush,
        List.append_nil, hanswer]
      exact ⟨_, h.flush rfl (.rest (List.forall_mem_append.2
        ⟨hended, List.forall_mem_singleton.2 (ht.flush nofun)⟩)) rfl⟩

theorem Sending.later (h : m.Sending outs m') : m.writer.Later m'.writer := by
  cases h with
  | take _ _ => exact .refl _
  | write _ _ | failWrite _ _ => exact Writer.later_afterWrite _
  | flush _ _ | failFlush _ _ => exact Writer.later_afterFlush _

theorem Balanced.transmit (h : Balanced queued toWrites toFlushes outs m ts) :
    m.writer.Later m.transmit.value.writer ∧ ∃ ts', Balanced queued
      (toWrites ++ m.writer.toldWrites m.transmit.value.writer)
      (toFlushes ++ m.writer.toldFlushes m.transmit.value.writer)
      (outs ++ m.transmit.trace) m.transmit.value ts' := by
  refine transmit_induction
    (motive := fun outs' m' => m.writer.Later m'.writer ∧
      ∃ ts', Balanced queued (toWrites ++ m.writer.toldWrites m'.writer)
        (toFlushes ++ m.writer.toldFlushes m'.writer) (outs ++ outs') m' ts')
    ?_ ⟨.refl _, ts, ?_⟩
  · rintro outs' m' outs'' m'' hsending ⟨hlater, ts', h'⟩
    obtain ⟨ts'', h''⟩ := h'.sending hsending
    refine ⟨hlater.trans hsending.later, ts'', ?_⟩
    rw [Writer.toldWrites_trans hlater hsending.later,
      Writer.toldFlushes_trans hlater hsending.later, ← List.append_assoc,
      ← List.append_assoc, ← List.append_assoc]
    exact h''
  · rw [Writer.toldWrites_self, Writer.toldFlushes_self, List.append_nil,
      List.append_nil, List.append_nil]
    exact h

/-- Only what has to wait can be woken. -/
theorem wake_cases (w : Writer) (tr : Transmitter) : tr.wake w = w ∨
    (∃ command rest ne_nil, tr = .writing command rest ne_nil ∧
      w.toWrite = .wait ∧ tr.wake w = w.afterWrite) ∨
    tr = .flushing ∧ w.toFlush = .wait ∧ tr.wake w = w.afterFlush := by
  cases tr with
  | idle => exact Or.inl rfl
  | writing command rest ne_nil =>
      by_cases hwait : w.toWrite = .wait
      · exact Or.inr (Or.inl ⟨command, rest, ne_nil, rfl, hwait, if_pos hwait⟩)
      · exact Or.inl (if_neg hwait)
  | flushing =>
      by_cases hwait : w.toFlush = .wait
      · exact Or.inr (Or.inr ⟨rfl, hwait, if_pos hwait⟩)
      · exact Or.inl (if_neg hwait)

theorem later_wake (w : Writer) (tr : Transmitter) : w.Later (tr.wake w) := by
  rcases wake_cases w tr with hsame | ⟨_, _, _, _, _, hwake⟩ | ⟨_, _, hwake⟩
  · rw [hsame]
    exact .refl w
  · rw [hwake]
    exact w.later_afterWrite
  · rw [hwake]
    exact w.later_afterFlush

/-- Whoever wakes the transmitter adds the answer that it has had to wait. -/
theorem Balanced.wake (h : Balanced queued toWrites toFlushes outs m ts) :
    ∃ ts', Balanced queued
      (toWrites ++ m.writer.toldWrites (m.transmitter.wake m.writer))
      (toFlushes ++ m.writer.toldFlushes (m.transmitter.wake m.writer))
      (outs ++ []) { m with writer := m.transmitter.wake m.writer } ts' := by
  rcases wake_cases m.writer m.transmitter with
      hsame | ⟨command, rest, ne_nil, hwriting, hwait, hwake⟩ |
        ⟨hflushing, hwait, hwake⟩
  · rw [hsame, Writer.toldWrites_self, Writer.toldFlushes_self, List.append_nil,
      List.append_nil, List.append_nil]
    exact ⟨ts, h⟩
  · obtain ⟨ended, t, rfl, hended, ht⟩ := h.exists_underWay hwriting nofun
    obtain ⟨hway, houtputs⟩ := ht.write_wait
    rw [hwake, Writer.toldWrites_afterWrite, Writer.toldFlushes_afterWrite,
      List.append_nil, hwait]
    refine ⟨_, h.write rfl ?_ (houtputs.trans (List.append_nil _).symm)⟩
    rw [hwriting]
    exact .underWay hended hway
  · obtain ⟨ended, t, rfl, hended, ht⟩ := h.exists_underWay hflushing nofun
    rw [hwake, Writer.toldWrites_afterFlush, Writer.toldFlushes_afterFlush,
      List.append_nil, hwait]
    refine ⟨_, h.flush rfl ?_ rfl⟩
    rw [hflushing]
    exact .underWay hended ht.flush_wait

/-- Whoever leaves the transmitter alone adds to the queue at most. -/
theorem Balanced.others {new : List Command}
    (h : Balanced queued toWrites toFlushes outs m ts)
    (htransmitter : m'.transmitter = m.transmitter)
    (hcommands : m'.link.commands = m.link.commands ++ new)
    (hnothing : sendings outs' = []) :
    Balanced (queued ++ new) toWrites toFlushes (outs ++ outs') m' ts where
  staged := htransmitter ▸ h.staged
  commands := by rw [hcommands, ← h.commands, List.append_assoc]
  toWrites := h.toWrites
  toFlushes := h.toFlushes
  outputs := by rw [sendings_append, hnothing, List.append_nil, h.outputs]

/-- Nothing but the transmitter's turn and its being woken
moves the writer on. -/
theorem writer_happen {x : Happening} (hset : x.setsWriter = false)
    (hturn : x ≠ .turn .transmitter) (hwake : x ≠ .action .wake) :
    (m.happen x).value.writer = m.writer := by
  have hlisten (times : Nat) (m : Modem) :
      (listen times m).value.writer = m.writer := by
    induction times generalizing m with
    | zero => rfl
    | succ times ih => exact ih _
  cases x with
  | turn p =>
      cases p with
      | transmitter => exact absurd rfl hturn
      | receiver =>
          rw [happen_receiver]
          exact (received_receive m).writer
      | task id => exact (m.sameEnds_task id).writer
  | action a =>
      cases a with
      | wake => exact absurd rfl hwake
      | setWriter w => cases hset
      | begin job =>
          show (m.begin job).value.writer = _
          rw [value_begin]
      | arrive data =>
          rw [happen, act, Traced.value_pure]
          split <;> rfl
      | listen times => exact hlisten times m
      | cancel id => rfl
      | failRead => rfl
      | close => rfl
      | setTransmitting on => rfl
      | wait ms => rfl

theorem later_happen {x : Happening} (hset : x.setsWriter = false) :
    m.writer.Later (m.happen x).value.writer := by
  by_cases hturn : x = .turn .transmitter
  · rw [hturn, happen_transmitter]
    exact transmit_induction (motive := fun _ m' => m.writer.Later m'.writer)
      (fun _ _ _ _ hsending h => h.trans hsending.later) (.refl _)
  · by_cases hwake : x = .action .wake
    · rw [hwake]
      exact later_wake _ _
    · rw [writer_happen hset hturn hwake]
      exact .refl _

/-- What one happening adds to the books. -/
theorem Balanced.happen (h : Balanced queued toWrites toFlushes outs m ts)
    (x : Happening) :
    ∃ ts', Balanced (queued ++ m.entered [x]) (toWrites ++ m.toldWrites [x])
      (toFlushes ++ m.toldFlushes [x]) (outs ++ (m.happen x).trace)
      (m.happen x).value ts' := by
  simp only [entered, toldWrites, toldFlushes, List.append_nil]
  by_cases hturn : x = .turn .transmitter
  · rw [hturn, if_neg nofun, if_neg nofun, if_neg nofun, List.append_nil,
      happen_transmitter]
    exact h.transmit.2
  by_cases hwake : x = .action .wake
  · rw [hwake, if_neg nofun, if_neg nofun, if_neg nofun, List.append_nil]
    exact h.wake
  have htold (hset : x.setsWriter = false) :
      (m.happen x).value.writer = m.writer :=
    writer_happen hset hturn hwake
  have hwrites : (if x.setsWriter then []
      else m.writer.toldWrites (m.happen x).value.writer) = [] := by
    split
    · rfl
    · next hset => rw [htold (Bool.eq_false_iff.2 hset), Writer.toldWrites_self]
  have hflushes : (if x.setsWriter then []
      else m.writer.toldFlushes (m.happen x).value.writer) = [] := by
    split
    · rfl
    · next hset => rw [htold (Bool.eq_false_iff.2 hset),
        Writer.toldFlushes_self]
  rw [hwrites, hflushes, List.append_nil, List.append_nil]
  have hnothing : sendings (m.happen x).trace = [] := by
    refine filterMap_happen (s := .transmitter) (fun o ho => ?_) m
      fun hx => hturn (Happening.eq_of_transmitter hx)
    unfold Output.sending? at ho
    split at ho
    · assumption
    · cases ho
  refine ⟨ts, h.others (transmitter_happen hturn) ?_ hnothing⟩
  cases x with
  | action a =>
      rw [if_neg nofun, List.append_nil]
      exact (m.queue_act a).2
  | turn p =>
      cases p with
      | transmitter => exact absurd rfl hturn
      | receiver =>
          rw [if_neg nofun, List.append_nil, happen_receiver]
          exact (received_receive m).commands
      | task id =>
          have hsource : (Happening.turn (.task id)).source = .task := rfl
          rw [if_pos hsource]
          exact (List.prefix_iff_eq_append.1 (m.prefix_task id)).symm

theorem Balanced.follow (h : Balanced queued toWrites toFlushes outs m ts)
    (hs : List Happening) :
    ∃ ts', Balanced (queued ++ m.entered hs) (toWrites ++ m.toldWrites hs)
      (toFlushes ++ m.toldFlushes hs) (outs ++ (m.follow hs).trace)
      (m.follow hs).value ts' := by
  induction hs generalizing m queued toWrites toFlushes outs ts with
  | nil =>
      simp only [entered, toldWrites, toldFlushes, Modem.follow,
        Traced.trace_pure, Traced.value_pure, List.append_nil]
      exact ⟨ts, h⟩
  | cons x hs ih =>
      obtain ⟨ts', h'⟩ := h.happen x
      obtain ⟨ts'', h''⟩ := ih h'
      refine ⟨ts'', ?_⟩
      simp only [entered, toldWrites, toldFlushes, List.append_nil,
        List.append_assoc] at h''
      simp only [entered, toldWrites, toldFlushes, Modem.follow,
        Traced.trace_bind, Traced.value_bind]
      exact h''

/-! ## Histories -/

/-- Whether the far end lets the transmitter wait. -/
def IsHeld (m : Modem) : Prop :=
  match m.transmitter with
  | .idle => False
  | .writing _ _ _ => m.writer.toWrite = .wait
  | .flushing => m.writer.toFlush = .wait

/-- With its turn the transmitter has done everything, or it is left to wait. -/
theorem stopped_transmit (m : Modem) : m.transmit.value.IsHeld ∨
    m.transmit.value.transmitter = .idle ∧
    m.transmit.value.link.commands = [] := by
  have hstep : m.transmit.value.transmitStep = none := Traced.step_exhaust m
  generalize m.transmit.value = m at hstep
  unfold transmitStep at hstep
  unfold IsHeld
  split at hstep
  · next hidle =>
      split at hstep
      · next hcommands => exact Or.inr ⟨hidle, hcommands⟩
      · cases hstep
  · next hwriting =>
      rw [hwriting]
      split at hstep
      · next hwait => exact Or.inl hwait
      · cases hstep
  · next hflushing =>
      rw [hflushing]
      split at hstep
      · next hwait => exact Or.inl hwait
      · cases hstep
      · cases hstep

/-- A writer that lets nobody wait finds the transmitter with
nothing in its hand. -/
theorem idle_follow {hs : List Happening}
    (hset : ∀ x ∈ hs, x.setsWriter = false)
    (hwrites : ∀ n, m.writer.writeAnswer n ≠ .wait)
    (hflushes : ∀ n, m.writer.flushAnswer n ≠ .wait)
    (hidle : m.transmitter = .idle) :
    (m.follow hs).value.transmitter = .idle := by
  induction hs generalizing m with
  | nil => exact hidle
  | cons x hs ih =>
      obtain ⟨hx, hrest⟩ := List.forall_mem_cons.1 hset
      have hlater := m.later_happen hx
      have hwrites' : ∀ n, (m.happen x).value.writer.writeAnswer n ≠ .wait :=
        hlater.writeAnswer ▸ hwrites
      have hflushes' : ∀ n, (m.happen x).value.writer.flushAnswer n ≠ .wait :=
        hlater.flushAnswer ▸ hflushes
      refine ih hrest hwrites' hflushes' ?_
      by_cases hturn : x = .turn .transmitter
      · rw [hturn, happen_transmitter] at hwrites' hflushes' ⊢
        rcases m.stopped_transmit with hheld | hdone
        · unfold IsHeld at hheld
          split at hheld
          · exact hheld.elim
          · exact absurd hheld (hwrites' _)
          · exact absurd hheld (hflushes' _)
        · exact hdone.1
      · rw [transmitter_happen hturn]
        exact hidle

/-- As long as the writer remains, it gives its own answers only. -/
theorem exists_of_mem_toldWrites {hs : List Happening}
    (hset : ∀ x ∈ hs, x.setsWriter = false) {a : WriteAnswer}
    (ha : a ∈ m.toldWrites hs) : ∃ n, m.writer.writeAnswer n = a := by
  induction hs generalizing m with
  | nil => cases ha
  | cons x hs ih =>
      obtain ⟨hx, hrest⟩ := List.forall_mem_cons.1 hset
      rcases List.mem_append.1 ha with hnow | hlater
      · rw [hx, if_neg Bool.false_ne_true] at hnow
        obtain ⟨n, _, hn⟩ := List.mem_map.1 hnow
        exact ⟨n, hn⟩
      · rw [← (m.later_happen hx).writeAnswer]
        exact ih hrest hlater

/-- What goes over the wire in a history, whatever the far end does. Each
command that enters the queue is taken once and in order, and what is seen of
the transmitter is what is seen of these commands, one after the other. All of
a command is accepted if no write fails, and otherwise what was accepted
before; it is flushed in the first case only, and each answer that is a
failure is reported once. With a turn of the transmitter the queue is empty,
whatever failed, unless the far end lets it wait; then it has a command under
way, and the others have ended. The answers are those that the writers have
given in the history, and if one writer that never fails has given them all,
the bytes are those that a sink without a limit takes, less what is left in
the transmitter's hand. -/
theorem commands_transmitted (hidle : m.transmitter = .idle)
    (hs : List Happening) :
    let m' := (m.follow hs).value
    let outs := (m.follow hs).trace
    ∃ ts : List Transmission,
      (ts.map (·.command) ++ m'.link.commands =
          m.link.commands ++ m.entered hs ∧
        ∀ past, past ++ [.turn .transmitter] <+: hs →
          let stopped := (m.follow (past ++ [.turn .transmitter])).value
          stopped.IsHeld ∨
            stopped.transmitter = .idle ∧ stopped.link.commands = []) ∧
      (sendings outs = ts.flatMap Transmission.outputs ∧
        (writes outs).flatten = ts.flatMap Transmission.accepted ∧
        sendFailures outs = ts.flatMap fun t =>
          List.replicate t.failures .serial) ∧
      (ts.flatMap (·.toWrites) = m.toldWrites hs ∧
        ts.flatMap (·.toFlushes) = m.toldFlushes hs) ∧
      (Transmission.Staged ts m'.transmitter ∧
        ∀ t ∈ ts, t.accepted <+: t.offered) ∧
      ((∀ x ∈ hs, x.setsWriter = false) →
        ((∀ n, m.writer.writeAnswer n ≠ .wait) →
          (∀ n, m.writer.flushAnswer n ≠ .wait) → m'.transmitter = .idle) ∧
        ((∀ n, m.writer.writeAnswer n ≠ .failure) →
          (writes outs).flatten ++ m'.transmitter.rest =
            (ts.map (·.command)).flatMap fun c =>
              (Sink.unlimited.send c).value)) := by
  intro m' outs
  obtain ⟨ts, h⟩ := (balanced_nil hidle).follow hs
  have hsendings : sendings outs = ts.flatMap Transmission.outputs := h.outputs
  have hwrites : (writes outs).flatten = ts.flatMap Transmission.accepted := by
    rw [writes_eq, hsendings, Transmission.written_flatMap]
  refine ⟨ts, ⟨h.commands, fun past _ => ?_⟩, ⟨hsendings, hwrites, ?_⟩,
    ⟨h.toWrites, h.toFlushes⟩, ⟨h.staged, fun t _ => t.accepted_prefix⟩,
    fun hset => ⟨fun hw hf => idle_follow hset hw hf hidle, fun hnever => ?_⟩⟩
  · have hturn : (m.follow (past ++ [.turn .transmitter])).value =
        (m.follow past).value.transmit.value := by
      rw [follow_append, Traced.value_bind, ← happen_transmitter]
      rfl
    rw [hturn]
    exact stopped_transmit _
  · rw [sendFailures_eq, hsendings, Transmission.failed_flatMap]
  · have hfine : ∀ t ∈ ts, .failure ∉ t.toWrites := by
      intro t ht hmem
      have htold : .failure ∈ m.toldWrites hs := by
        have hw : ts.flatMap (·.toWrites) = m.toldWrites hs := h.toWrites
        rw [← hw]
        exact List.mem_flatMap.2 ⟨t, ht, hmem⟩
      obtain ⟨n, hn⟩ := exists_of_mem_toldWrites hset htold
      exact hnever n hn
    rw [hwrites, h.staged.accepted_rest hfine, List.flatMap_map]
    exact List.flatMap_congr fun t _ =>
      (Sink.value_send_unlimited t.command).symm

/-- Three commands for a writer that accepts the first in two pieces, but
does not flush it, and fails in the middle of the second; for one that
accepts two bytes at a time; and for one that lets the second command wait
when half of it is accepted. -/
theorem commands_transmitted_piecemeal :
    let commands : List Command :=
      ["ATH", "ATA", "AT"].map fun s => ⟨.ofString s⟩
    let m : Modem :=
      { idle with link := { Link.idle with commands := commands } }
    let faulty : Writer :=
      ⟨fun n => if n = 3 then .failure else if n = 1 then .all else .upTo n,
        fun n => if n = 0 then .failure else .done, 0, 0⟩
    let slow : Writer :=
      ⟨fun n => if n = 3 then .wait else .upTo 3, fun _ => .done, 0, 0⟩
    let first := { m with writer := faulty }.follow [.turn .transmitter]
    let second :=
      { m with writer := .steady (.upTo 2) true }.follow [.turn .transmitter]
    let third := { m with writer := slow }.follow [.turn .transmitter]
    (∃ ts : List Transmission, ts.map (·.command) = commands ∧
        (writes first.trace).flatten = ts.flatMap Transmission.accepted ∧
        sendFailures first.trace = ts.flatMap fun t =>
        List.replicate t.failures .serial) ∧
      (writes first.trace).flatten = Text.bytes "ATH\r\nATAT\r\n" ∧
      sendFailures first.trace = [.serial, .serial] ∧
      writes second.trace = ["AT", "H\r", "\n", "AT", "A\r", "\n", "AT",
        "\r\n"].map Text.bytes ∧
      (writes second.trace).flatten =
      commands.flatMap (fun c => (Sink.unlimited.send c).value) ∧
      writes third.trace = ["ATH", "\r\n", "ATA"].map Text.bytes ∧
        (writes third.trace).flatten ++ third.value.transmitter.rest =
        (commands.take 2).flatMap fun c => (Sink.unlimited.send c).value := by
  intro commands m faulty slow first second third
  obtain ⟨ts, ⟨hqueue, _⟩, ⟨_, hwrites, hfailures⟩, _⟩ :=
    commands_transmitted (m := { m with writer := faulty }) rfl
      [.turn .transmitter]
  obtain ⟨ts₂, ⟨hqueue₂, _⟩, _, _, _, hsame₂⟩ :=
    commands_transmitted (m := { m with writer := .steady (.upTo 2) true }) rfl
      [.turn .transmitter]
  obtain ⟨ts₃, ⟨hqueue₃, _⟩, _, _, _, hsame₃⟩ :=
    commands_transmitted (m := { m with writer := slow }) rfl
      [.turn .transmitter]
  have hset : ∀ x ∈ [Happening.turn .transmitter], x.setsWriter = false := by
    decide
  have hnone {m : Modem} : m.entered [.turn .transmitter] = [] := rfl
  have hdone : first.value.link.commands = [] :=
    List.isEmpty_iff.1 (by decide +kernel)
  have hdone₂ : second.value.link.commands = [] :=
    List.isEmpty_iff.1 (by decide +kernel)
  have hrest₂ : second.value.transmitter.rest = [] := by decide +kernel
  have hleft₃ : third.value.link.commands = commands.drop 2 := by decide +kernel
  rw [hnone, List.append_nil] at hqueue hqueue₂ hqueue₃
  rw [hdone, List.append_nil] at hqueue
  rw [hdone₂, List.append_nil] at hqueue₂
  have hall₂ := (hsame₂ hset).2 fun n => nofun
  have hall₃ := (hsame₃ hset).2 fun n hn => by
    have hfine : slow.writeAnswer n ≠ .failure := by
      show (if n = 3 then WriteAnswer.wait else .upTo 3) ≠ .failure
      split <;> nofun
    exact hfine hn
  have htaken₃ : ts₃.map (·.command) = commands.take 2 := by
    have hall : ts₃.map (·.command) ++ commands.drop 2 = commands.take 2 ++
        commands.drop 2 := by
      rw [List.take_append_drop, ← hleft₃]
      exact hqueue₃
    exact List.append_cancel_right hall
  rw [hqueue₂, hrest₂, List.append_nil] at hall₂
  rw [htaken₃] at hall₃
  exact ⟨⟨ts, hqueue, hwrites, hfailures⟩, by decide +kernel, by decide +kernel,
    by decide +kernel, hall₂, by decide +kernel, hall₃⟩

end Modem

end CellModem
