import CellModem.Modem.Transmitting
import Mathlib.Data.List.Basic

/-!
# One command and the far end

A command is offered to the far end until all of it has been accepted or a
write fails, and it is flushed if it was accepted. What comes of it follows
from the answers that it gets: which piece of it each write takes
(`WriteAnswer.pieces`), what is left to be offered, and what is seen of it
(`Transmission.outputs`).

A transmission is a command with the answers it has got so far. It has ended
with a write that fails, or with a flush that is answered, and as long as it is
under way the transmitter shows how far it is. One more answer goes on with it
or ends it, and one lemma for each answer says which.
-/

namespace CellModem

/-! ## The answers of a writer -/

namespace Writer

/-- The answers to writes by which a writer has become another one. -/
def toldWrites (w w' : Writer) : List WriteAnswer :=
  (List.range' w.writes (w'.writes - w.writes)).map w.writeAnswer

/-- The answers to flushes by which a writer has become another one. -/
def toldFlushes (w w' : Writer) : List FlushAnswer :=
  (List.range' w.flushes (w'.flushes - w.flushes)).map w.flushAnswer

/-- The same writer at a later time. -/
structure Later (w w' : Writer) : Prop where
  writeAnswer : w'.writeAnswer = w.writeAnswer
  flushAnswer : w'.flushAnswer = w.flushAnswer
  writes : w.writes ≤ w'.writes
  flushes : w.flushes ≤ w'.flushes

variable {w w' w'' : Writer}

theorem Later.refl (w : Writer) : w.Later w :=
  ⟨rfl, rfl, Nat.le_refl _, Nat.le_refl _⟩

theorem Later.trans (h : w.Later w') (h' : w'.Later w'') : w.Later w'' where
  writeAnswer := h'.writeAnswer.trans h.writeAnswer
  flushAnswer := h'.flushAnswer.trans h.flushAnswer
  writes := Nat.le_trans h.writes h'.writes
  flushes := Nat.le_trans h.flushes h'.flushes

theorem later_afterWrite (w : Writer) : w.Later w.afterWrite :=
  ⟨rfl, rfl, Nat.le_succ _, Nat.le_refl _⟩

theorem later_afterFlush (w : Writer) : w.Later w.afterFlush :=
  ⟨rfl, rfl, Nat.le_refl _, Nat.le_succ _⟩

@[simp] theorem toldWrites_self (w : Writer) : w.toldWrites w = [] := by
  rw [toldWrites, Nat.sub_self]
  rfl

@[simp] theorem toldFlushes_self (w : Writer) : w.toldFlushes w = [] := by
  rw [toldFlushes, Nat.sub_self]
  rfl

@[simp] theorem toldWrites_afterWrite (w : Writer) :
    w.toldWrites w.afterWrite = [w.toWrite] := by
  rw [toldWrites, afterWrite, Nat.add_sub_cancel_left]
  rfl

@[simp] theorem toldFlushes_afterWrite (w : Writer) :
    w.toldFlushes w.afterWrite = [] :=
  toldFlushes_self w

@[simp] theorem toldWrites_afterFlush (w : Writer) :
    w.toldWrites w.afterFlush = [] :=
  toldWrites_self w

@[simp] theorem toldFlushes_afterFlush (w : Writer) :
    w.toldFlushes w.afterFlush = [w.toFlush] := by
  rw [toldFlushes, afterFlush, Nat.add_sub_cancel_left]
  rfl

theorem range'_of_le {a b c : Nat} (hab : a ≤ b) (hbc : b ≤ c) :
    List.range' a (c - a) = List.range' a (b - a) ++ List.range' b (c - b) := by
  have hb : b = a + (b - a) := by omega
  have hc : c - a = (b - a) + (c - b) := by omega
  rw [hc, ← List.range'_append_1, ← hb]

theorem toldWrites_trans (h : w.Later w') (h' : w'.Later w'') :
    w.toldWrites w'' = w.toldWrites w' ++ w'.toldWrites w'' := by
  rw [toldWrites, toldWrites, toldWrites, h.writeAnswer,
    range'_of_le h.writes h'.writes, List.map_append]

theorem toldFlushes_trans (h : w.Later w') (h' : w'.Later w'') :
    w.toldFlushes w'' = w.toldFlushes w' ++ w'.toldFlushes w'' := by
  rw [toldFlushes, toldFlushes, toldFlushes, h.flushAnswer,
    range'_of_le h.flushes h'.flushes, List.map_append]

end Writer

namespace WriteAnswer

/-- What writes accept of bytes, each being offered what the one
before has left. -/
def pieces (bytes : List UInt8) : List WriteAnswer → List (List UInt8)
  | [] => []
  | a :: answers =>
    match a.accepted? bytes.length with
    | none => pieces bytes answers
    | some n => bytes.take n :: pieces (bytes.drop n) answers

/-- What is seen of a write that accepts nothing. -/
def failure? : WriteAnswer → Option Output
  | .failure => some (.transmitterFailed .serial)
  | .all | .upTo _ | .wait => none

variable {bytes rest : List UInt8} {answers : List WriteAnswer}
  {a : WriteAnswer}

theorem flatten_pieces_prefix (bytes : List UInt8)
    (answers : List WriteAnswer) :
    (pieces bytes answers).flatten <+: bytes := by
  induction answers generalizing bytes with
  | nil => exact List.nil_prefix
  | cons a answers ih =>
      rw [pieces]
      split
      · exact ih bytes
      · next n _ =>
          have h := (List.prefix_append_right_inj (bytes.take n)).2
              (ih (bytes.drop n))
          rw [List.take_append_drop] at h
          exact h

/-- One more write is offered what the others have left. -/
theorem pieces_concat (hrest : (pieces bytes answers).flatten ++ rest = bytes) :
    pieces bytes (answers ++ [a]) = pieces bytes answers ++
      ((a.accepted? rest.length).map rest.take).toList := by
  induction answers generalizing bytes with
  | nil =>
      have hbytes : rest = bytes := hrest
      show pieces bytes [a] = ((a.accepted? rest.length).map rest.take).toList
      rw [hbytes, pieces]
      cases a.accepted? bytes.length <;> rfl
  | cons b answers ih =>
      rw [List.cons_append, pieces, pieces]
      rw [pieces] at hrest
      cases hb : b.accepted? bytes.length with
      | none =>
          rw [hb] at hrest
          exact ih hrest
      | some n =>
          rw [hb] at hrest
          have hdrop :
              bytes.take n ++ ((pieces (bytes.drop n) answers).flatten ++
                rest) = bytes.take n ++ bytes.drop n := by
            rw [List.take_append_drop, ← List.append_assoc]
            exact hrest
          exact congrArg (bytes.take n :: ·)
            (ih (List.append_cancel_left hdrop))

theorem filterMap_failure? (h : .failure ∉ answers) :
    answers.filterMap failure? = [] := by
  refine List.filterMap_eq_nil_iff.2 fun a ha => ?_
  cases a with
  | failure => exact absurd ha h
  | all => rfl
  | upTo most => rfl
  | wait => rfl

end WriteAnswer

/-- What is seen of a flush. -/
def FlushAnswer.seen? : FlushAnswer → Option Output
  | .done => some .flushed
  | .failure => some (.transmitterFailed .serial)
  | .wait => none

/-! ## One command -/

/-- A command that has been taken, and what the far end has answered since. -/
structure Transmission where
  command : Command
  toWrites : List WriteAnswer
  toFlushes : List FlushAnswer

namespace Transmission

/-- What is offered to the far end. -/
def offered (t : Transmission) : List UInt8 := Text.bytes t.command.render.value

/-- What each write has accepted. -/
def pieces (t : Transmission) : List (List UInt8) :=
  WriteAnswer.pieces t.offered t.toWrites

def accepted (t : Transmission) : List UInt8 := t.pieces.flatten

/-- What has been seen of it, in order. -/
def outputs (t : Transmission) : List Output :=
  t.pieces.map .wrote ++ t.toWrites.filterMap WriteAnswer.failure? ++
    t.toFlushes.filterMap FlushAnswer.seen?

/-- How many of the answers are failures, those to writes and
those to flushes. -/
def failures (t : Transmission) : Nat :=
  t.toWrites.count .failure + t.toFlushes.count .failure

/-- What holds of a command that the transmitter has done with. All of it has
been accepted if no write has failed, in that case one flush has been answered
and otherwise none, and there is one failure at most. -/
structure HasEnded (t : Transmission) : Prop where
  whole_iff : t.accepted = t.offered ↔ .failure ∉ t.toWrites
  flushes : t.toFlushes.countP (· != .wait) = if t.accepted = t.offered then 1
    else 0
  failures : t.failures = if .done ∈ t.toFlushes then 0 else 1

/-- What holds of the command that the transmitter is at. -/
inductive IsUnderWay (t : Transmission) : Transmitter → Prop
  | writing {rest} {ne_nil : rest ≠ []} (hrest : t.accepted ++ rest = t.offered)
      (hfine : .failure ∉ t.toWrites) (hflushes : t.toFlushes = []) :
      IsUnderWay t (.writing t.command rest ne_nil)
  | flushing (hwhole : t.accepted = t.offered) (hfine : .failure ∉ t.toWrites)
      (hwaits : ∀ a ∈ t.toFlushes, a = .wait) : IsUnderWay t .flushing

/-- One more answer to a write. -/
def write (t : Transmission) (a : WriteAnswer) : Transmission :=
  { t with toWrites := t.toWrites ++ [a] }

/-- One more answer to a flush. -/
def flush (t : Transmission) (a : FlushAnswer) : Transmission :=
  { t with toFlushes := t.toFlushes ++ [a] }

variable {t : Transmission} {command : Command} {rest : List UInt8}
  {ne_nil : rest ≠ []}

theorem accepted_prefix (t : Transmission) : t.accepted <+: t.offered :=
  WriteAnswer.flatten_pieces_prefix _ _

theorem isUnderWay_offering (hrest : t.accepted ++ rest = t.offered)
    (hfine : .failure ∉ t.toWrites) (hflushes : t.toFlushes = []) :
    t.IsUnderWay (.offering t.command rest) := by
  cases rest with
  | nil =>
      rw [List.append_nil] at hrest
      exact .flushing hrest hfine
        (by rw [hflushes]; exact fun _ h => absurd h List.not_mem_nil)
  | cons b rest => exact .writing hrest hfine hflushes

theorem IsUnderWay.accepted_rest {tr : Transmitter} (h : t.IsUnderWay tr) :
    t.accepted ++ tr.rest = t.offered := by
  cases h with
  | writing hrest _ _ => exact hrest
  | flushing hwhole _ _ => exact (List.append_nil _).trans hwhole

/-- Nothing but what has been accepted is seen of a command that
is being written. -/
theorem outputs_of_writing (hfine : .failure ∉ t.toWrites)
    (hflushes : t.toFlushes = []) : t.outputs = t.pieces.map .wrote := by
  rw [outputs, WriteAnswer.filterMap_failure? hfine, hflushes, List.append_nil]
  exact List.append_nil _

theorem pieces_write (h : t.IsUnderWay (.writing command rest ne_nil))
    (a : WriteAnswer) :
    (t.write a).pieces =
      t.pieces ++ ((a.accepted? rest.length).map rest.take).toList :=
  WriteAnswer.pieces_concat h.accepted_rest

/-- A write that accepts something goes on with the command. -/
theorem IsUnderWay.write {a : WriteAnswer} {n : Nat}
    (h : t.IsUnderWay (.writing command rest ne_nil))
    (hn : a.accepted? rest.length = some n) :
    (t.write a).IsUnderWay (.offering command (rest.drop n)) ∧
      (t.write a).outputs = t.outputs ++ [.wrote (rest.take n)] := by
  have hpieces := pieces_write h a
  rw [hn] at hpieces
  obtain ⟨hrest, hfine, hflushes⟩ := h
  have hfine' : .failure ∉ (t.write a).toWrites := by
    intro hmem
    rcases List.mem_append.1 hmem with hold | hnew
    · exact hfine hold
    · rw [← List.mem_singleton.1 hnew] at hn
      cases hn
  refine ⟨isUnderWay_offering ?_ hfine' hflushes, ?_⟩
  · rw [accepted, hpieces, Option.map_some, Option.toList_some,
      List.flatten_append, List.flatten_cons, List.flatten_nil, List.append_nil,
      List.append_assoc, List.take_append_drop]
    exact hrest
  · rw [outputs_of_writing hfine' hflushes,
      outputs_of_writing hfine hflushes, hpieces, List.map_append]
    rfl

/-- A write that has to wait leaves everything as it was. -/
theorem IsUnderWay.write_wait
    (h : t.IsUnderWay (.writing command rest ne_nil)) :
    (t.write .wait).IsUnderWay (.writing command rest ne_nil) ∧
      (t.write .wait).outputs = t.outputs := by
  have hpieces : (t.write .wait).pieces = t.pieces :=
    (pieces_write h .wait).trans (List.append_nil _)
  obtain ⟨hrest, hfine, hflushes⟩ := h
  have hfine' : .failure ∉ (t.write .wait).toWrites := by
    simpa [Transmission.write] using hfine
  refine ⟨.writing ?_ hfine' hflushes, ?_⟩
  · rw [accepted, hpieces]
    exact hrest
  · rw [outputs_of_writing hfine' hflushes,
      outputs_of_writing hfine hflushes, hpieces]

/-- With a write that fails it is over. -/
theorem IsUnderWay.write_failure
    (h : t.IsUnderWay (.writing command rest ne_nil)) :
    (t.write .failure).HasEnded ∧
      (t.write .failure).outputs =
        t.outputs ++ [.transmitterFailed .serial] := by
  have hpieces : (t.write .failure).pieces = t.pieces :=
    (pieces_write h .failure).trans (List.append_nil _)
  obtain ⟨hrest, hfine, hflushes⟩ := h
  have hshort : (t.write .failure).accepted ≠ (t.write .failure).offered := by
    intro hall
    rw [accepted, hpieces] at hall
    have hall' : t.accepted = t.accepted ++ rest := hall.trans hrest.symm
    exact ne_nil (List.append_right_eq_self.1 hall'.symm)
  have hmem : .failure ∈ (t.write .failure).toWrites :=
    List.mem_append_right _ (List.mem_singleton_self _)
  refine ⟨⟨iff_of_false hshort (not_not.2 hmem), ?_, ?_⟩, ?_⟩
  · rw [if_neg hshort]
    exact congrArg _ hflushes
  · simp [failures, Transmission.write, hflushes, List.count_eq_zero.2 hfine]
  · rw [outputs_of_writing hfine hflushes, outputs, hpieces]
    simp [Transmission.write, hflushes, WriteAnswer.filterMap_failure? hfine,
      WriteAnswer.failure?]

theorem outputs_flush (t : Transmission) (a : FlushAnswer) :
    (t.flush a).outputs = t.outputs ++ a.seen?.toList := by
  rw [outputs, outputs, List.append_assoc _ _ a.seen?.toList]
  refine congrArg _ ?_
  show (t.toFlushes ++ [a]).filterMap FlushAnswer.seen? = _
  rw [List.filterMap_append]
  cases a <;> rfl

theorem IsUnderWay.flush_wait (h : t.IsUnderWay .flushing) :
    (t.flush .wait).IsUnderWay .flushing := by
  obtain _ | ⟨hwhole, hfine, hwaits⟩ := h
  refine .flushing hwhole hfine fun a ha => ?_
  rcases List.mem_append.1 ha with hold | hnew
  · exact hwaits a hold
  · exact List.mem_singleton.1 hnew

/-- With a flush that is answered it is over, too. -/
theorem IsUnderWay.flush {a : FlushAnswer} (h : t.IsUnderWay .flushing)
    (ha : a ≠ .wait) : (t.flush a).HasEnded := by
  obtain _ | ⟨hwhole, hfine, hwaits⟩ := h
  have hnone {b : FlushAnswer} (hb : b ≠ .wait) : b ∉ t.toFlushes := fun hmem =>
    hb (hwaits b hmem)
  have hwaiting : t.toFlushes.countP (· != .wait) = 0 :=
    List.countP_eq_zero.2 fun b hb => by simp [hwaits b hb]
  refine ⟨iff_of_true hwhole hfine, ?_, ?_⟩
  · have hall : (t.flush a).accepted = (t.flush a).offered := hwhole
    rw [if_pos hall]
    simp [Transmission.flush, hwaiting, ha]
  · have hfailures : t.toFlushes.count .failure = 0 :=
      List.count_eq_zero.2 (hnone nofun)
    have hdone : FlushAnswer.done ∉ t.toFlushes := hnone nofun
    cases a with
    | wait => exact absurd rfl ha
    | done => simp [Transmission.failures, Transmission.flush,
        List.count_eq_zero.2 hfine, hfailures]
    | failure =>
        simp [Transmission.failures, Transmission.flush,
          List.count_eq_zero.2 hfine, hfailures, hdone]

/-- All transmissions have ended but for the one that the transmitter is at. -/
inductive Staged : List Transmission → Transmitter → Prop
  | rest {ts} (hended : ∀ t ∈ ts, t.HasEnded) : Staged ts .idle
  | underWay {ts t tr} (hended : ∀ t ∈ ts, t.HasEnded) (ht : t.IsUnderWay tr) :
      Staged (ts ++ [t]) tr

end Transmission

end CellModem
