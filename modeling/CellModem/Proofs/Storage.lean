import CellModem.Proofs.Draining
import CellModem.Proofs.Reception

/-!
# A line buffer in a fixed space

A line buffer is kept in a space of as many bytes as its capacity says, the
first of which are in use. Filling offers the free part of the space to
whoever writes into it, and taking a line out moves what is behind it to the
front. All of this goes by places in the space, and nobody may go by a place
that is not there. So here each part of the space is asked for, and may be
refused (`slice?`).

It never is. However many bytes are said to have been written, no more are taken
into use than were free, so the bytes in use always fit, and the space does what
the buffer does that it holds (`stays_in_bounds`). After all lines have been
taken out at most half of the space is in use. So whoever fills and takes out by
turns always finds free space, and comes to the end of what there is to be read.
-/

namespace CellModem

/-- Something that writes into a space it is offered, and says how many bytes
it has put there. -/
structure Port (σ : Type) where
  read : σ → List UInt8 → List UInt8 × Nat × σ
  length_read : ∀ s space, (read s space).1.length = space.length

/-- The channel that a port is while it is offered the given space. -/
def Port.on {σ : Type} (p : Port σ) (space : List UInt8) : Channel σ where
  read s _ := (⟨(p.read s space).1, (p.read s space).2.1⟩, (p.read s space).2.2)

theorem Port.read_on {σ : Type} (p : Port σ) (space : List UInt8) (s : σ)
    (room : Nat) : (p.on space).read s room =
      (⟨(p.read s space).1, (p.read s space).2.1⟩, (p.read s space).2.2) :=
  rfl

/-- A space of which the first bytes are in use. -/
structure Storage (capacity : Nat) where
  space : List UInt8
  used : Nat

namespace Storage

variable {capacity : Nat} {σ : Type}

/-- The part of a space between two places, unless there is no such part. -/
def slice? (space : List UInt8) (first last : Nat) : Option (List UInt8) :=
  if first ≤ last ∧ last ≤ space.length
    then some ((space.take last).drop first) else none

/-- Moves the part between two places to the front, unless there
is no such part. -/
def moveToFront? (space : List UInt8) (first last : Nat) :
    Option (List UInt8) := do
  let part ← slice? space first last
  return part ++ space.drop part.length

def new : Storage capacity := ⟨List.replicate capacity 0, 0⟩

/-- Offers the free part of the space to a port, unless there is none. -/
def fill? (a : Storage capacity) (p : Port σ) (s : σ) :
    Option (Fill × Storage capacity × σ) := do
  let free ← slice? a.space a.used a.space.length
  if free.isEmpty then return (.done, a, s)
  else
    let written := p.read s free
    let space := a.space.take a.used ++ written.1
    if written.2.1 = 0 then return (.done, ⟨space, a.used⟩, written.2.2)
    else return (.data,
      ⟨space, a.used + min written.2.1 free.length⟩, written.2.2)

/-- Takes out the oldest complete line, and moves what is behind
it to the front. -/
def consumeLine? (a : Storage capacity) :
    Option (Option Line × Storage capacity) := do
  let payload ← slice? a.space 0 a.used
  match payload.findIdx? isLineEnd with
  | none => return (none, if LineBuffer.maxLine capacity < a.used
      then ⟨a.space, 0⟩ else a)
  | some n =>
    let text ← slice? payload 0 n
    let behind ← slice? payload n payload.length
    let consumed := n + (behind.takeWhile isLineEnd).length
    let space ← moveToFront? a.space consumed a.used
    return (some ⟨text⟩, ⟨space, a.used - consumed⟩)

/-- Whether a space has the size that it should have, and what is in use of it
is what is pending in a buffer. -/
structure Holds (a : Storage capacity) (b : LineBuffer capacity) : Prop where
  length_space : a.space.length = capacity
  used_le : a.used ≤ capacity
  take_used : a.space.take a.used = b.pending

theorem slice?_of_le {space : List UInt8} {first last : Nat} (h : first ≤ last)
    (hlast : last ≤ space.length) :
    slice? space first last = some ((space.take last).drop first) :=
  if_pos ⟨h, hlast⟩

/-- The part up to a place, or from it on, is there if the place is. -/
theorem slice?_append (xs ys : List UInt8) :
    slice? (xs ++ ys) 0 xs.length = some xs ∧
    slice? (xs ++ ys) xs.length (xs ++ ys).length = some ys := by
  have hle : xs.length ≤ (xs ++ ys).length := by
    rw [List.length_append]
    omega
  rw [slice?_of_le (Nat.zero_le _) hle, slice?_of_le hle (Nat.le_refl _),
    List.take_left, List.take_length, List.drop_left]
  exact ⟨rfl, rfl⟩

theorem moveToFront?_append (xs ys zs : List UInt8) :
    moveToFront? (xs ++ ys ++ zs) xs.length (xs ++ ys).length =
      some (ys ++ (xs ++ ys ++ zs).drop ys.length) := by
  have hslice :
      slice? (xs ++ ys ++ zs) xs.length (xs ++ ys).length = some ys := by
    rw [slice?_of_le (by simp) (by simp), List.take_left, List.drop_left]
  rw [moveToFront?, hslice]
  rfl

/-! ## One step -/

namespace Holds

variable {a : Storage capacity} {b : LineBuffer capacity}

theorem new : (new : Storage capacity).Holds .empty :=
  ⟨List.length_replicate, Nat.zero_le _, List.take_zero⟩

theorem used_le_length (h : a.Holds b) : a.used ≤ a.space.length :=
  Nat.le_trans h.used_le (Nat.le_of_eq h.length_space.symm)

theorem length_pending (h : a.Holds b) : b.pending.length = a.used := by
  rw [← h.take_used, List.length_take, Nat.min_eq_left h.used_le_length]

theorem space_eq (h : a.Holds b) :
    a.space = b.pending ++ a.space.drop a.used := by
  rw [← h.take_used, List.take_append_drop]

theorem slice?_used (h : a.Holds b) :
    slice? a.space 0 a.used = some b.pending := by
  rw [slice?_of_le (Nat.zero_le _) h.used_le_length,
    List.drop_zero, h.take_used]

end Holds

theorem findIdx?_of_unbroken {text : List UInt8} (h : Unbroken text) :
    text.findIdx? isLineEnd = none := by
  rw [List.findIdx?_eq_none_iff]
  exact h

theorem findIdx?_append_ends {text ends : List UInt8} (h : Unbroken text)
    (hends : ∀ e ∈ ends.head?, isLineEnd e = true) (hne : ends ≠ []) :
    (text ++ ends).findIdx? isLineEnd = some text.length := by
  obtain ⟨e, rest, rfl⟩ := List.exists_cons_of_ne_nil hne
  rw [List.findIdx?_append, findIdx?_of_unbroken h, List.findIdx?_cons,
    if_pos (hends e rfl)]
  simp

/-- Where there is no line to be taken out, an overlong beginning is. -/
theorem consumeLine?_of_unbroken {a : Storage capacity}
    {b : LineBuffer capacity} (h : a.Holds b) (hun : Unbroken b.pending) :
    ∃ a', a.consumeLine? = some (none, a') ∧
      a'.Holds (LineBuffer.leave capacity b.pending) := by
  refine ⟨if LineBuffer.maxLine capacity < a.used then ⟨a.space, 0⟩
    else a, ?_, ?_⟩
  · rw [consumeLine?, h.slice?_used, Option.bind_eq_bind, Option.bind_some,
      findIdx?_of_unbroken hun]
    rfl
  · split
    · next hlong =>
        refine ⟨h.length_space, Nat.zero_le _, ?_⟩
        rw [LineBuffer.leave_of_long (by rw [h.length_pending]; exact hlong),
          List.take_zero]
        rfl
    · next hshort =>
        refine ⟨h.length_space, h.used_le, ?_⟩
        rw [h.take_used,
          LineBuffer.pending_leave_of_short (by rw [h.length_pending]; omega)]

/-- A line is taken out with the ends of line behind it, and the others are
moved to the front. -/
theorem consumeLine?_of_piece {a : Storage capacity} {b : LineBuffer capacity}
    (h : a.Holds b) {p : Piece} {pieces : List Piece} {rest : List UInt8}
    (hcut : CutUp b.pending (p :: pieces) rest) :
    ∃ a', a.consumeLine? = some (some p.line, a') ∧ a'.Holds b.behind := by
  obtain ⟨hne, hends⟩ := hcut.ends p List.mem_cons_self
  have htext := hcut.unbroken p List.mem_cons_self
  have hstop := hcut.tail.not_isLineEnd_head? fun q hq =>
    hcut.filled q (List.mem_of_mem_head? hq)
  have hhead : ∀ e ∈ (p.ends ++ (pieces.flatMap Piece.bytes ++ rest)).head?,
      isLineEnd e = true := by
    obtain ⟨e, ends, he⟩ := List.exists_cons_of_ne_nil hne
    rw [he]
    rintro c ⟨⟩
    exact hends e (he ▸ List.mem_cons_self)
  have hpayload :
      b.pending = p.text ++
      (p.ends ++ (pieces.flatMap Piece.bytes ++ rest)) := by
    rw [hcut.whole, List.flatMap_cons, Piece.bytes, List.append_assoc,
      List.append_assoc]
  have hbehind := (LineBuffer.cut_of_piece hcut).2.2
  generalize pieces.flatMap Piece.bytes ++ rest =
    behind at hstop hhead hpayload hbehind
  have hspace : a.space = (p.text ++ p.ends) ++ behind ++
      a.space.drop a.used := by
    rw [List.append_assoc p.text, ← hpayload]
    exact h.space_eq
  have hused : a.used = ((p.text ++ p.ends) ++ behind).length := by
    rw [List.append_assoc, ← hpayload, h.length_pending]
  have htake : ((p.ends ++ behind).takeWhile isLineEnd).length =
      p.ends.length := by
    rw [takeWhile_append_of_stop hends hstop]
  have hmove : moveToFront? a.space (p.text.length + p.ends.length) a.used =
      some (behind ++ a.space.drop behind.length) := by
    have hpart :=
      moveToFront?_append (p.text ++ p.ends) behind (a.space.drop a.used)
    rwa [← hspace, ← hused, List.length_append] at hpart
  have hbound : behind.length ≤ a.used := by
    rw [hused, List.length_append]
    omega
  have hleft : a.used - (p.text.length + p.ends.length) = behind.length := by
    rw [hused, List.length_append, List.length_append]
    omega
  refine ⟨⟨behind ++ a.space.drop behind.length, behind.length⟩, ?_, ?_,
    Nat.le_trans hbound h.used_le, ?_⟩
  · rw [consumeLine?, h.slice?_used, Option.bind_eq_bind,
      Option.bind_some, hpayload,
      findIdx?_append_ends htext hhead (by simp [hne])]
    simp only [(slice?_append _ _).1, (slice?_append _ _).2,
      Option.bind_some, htake, hmove, hleft]
    rfl
  · have hle := h.used_le_length
    have hlength := h.length_space
    rw [List.length_append, List.length_drop]
    omega
  · rw [List.take_left, hbehind]

/-- Taking a line out finds all the parts of the space that it asks for, and
does what the buffer does. -/
theorem consumeLine?_eq {a : Storage capacity} {b : LineBuffer capacity}
    (h : a.Holds b) : ∃ a', a.consumeLine? = some (b.consumeLine.value.1, a') ∧
      a'.Holds b.consumeLine.value.2 := by
  obtain ⟨pieces, rest, hcut⟩ := exists_cutUp b.pending
  cases pieces with
  | nil =>
      have hun : Unbroken b.pending := by
        rw [show b.pending = rest from hcut.whole]
        exact hcut.unbroken_rest
      rw [LineBuffer.consumeLine_of_unbroken hun]
      exact consumeLine?_of_unbroken h hun
  | cons p pieces =>
      rw [LineBuffer.consumeLine_of_piece hcut]
      exact consumeLine?_of_piece h hcut

theorem eq_of_slice? {space part : List UInt8} {first last : Nat}
    (h : slice? space first last = some part) :
    last ≤ space.length ∧ part = (space.take last).drop first := by
  unfold slice? at h
  split at h
  · next hle => exact ⟨hle.2, (Option.some.inj h).symm⟩
  · cases h

/-- A line is taken out with one end of line at least. -/
theorem used_consumeLine?_lt {a a' : Storage capacity} {l : Line}
    (h : a.consumeLine? = some (some l, a')) : a'.used < a.used := by
  simp only [consumeLine?, Option.bind_eq_bind, Option.bind_eq_some_iff] at h
  obtain ⟨payload, hpayload, h⟩ := h
  split at h
  · cases h
  · next n hn =>
      simp only [Option.bind_eq_some_iff] at h
      obtain ⟨text, _, behind, hbehind, space, _, hresult⟩ := h
      cases hresult
      obtain ⟨hle, hused⟩ := eq_of_slice? hpayload
      obtain ⟨hlt, hend, _⟩ := List.findIdx?_eq_some_iff_getElem.1 hn
      have hlength : payload.length = a.used := by
        rw [hused, List.drop_zero, List.length_take, Nat.min_eq_left hle]
      have hpos : 0 < (behind.takeWhile isLineEnd).length := by
        rw [(eq_of_slice? hbehind).2, List.take_length,
          List.drop_eq_getElem_cons hlt, List.takeWhile_cons_of_pos hend,
          List.length_cons]
        exact Nat.succ_pos _
      show a.used - (n + (behind.takeWhile isLineEnd).length) < a.used
      omega

/-- Takes out every complete line, the oldest first. -/
def consumeLines? (a : Storage capacity) :
    Option (List Line × Storage capacity) :=
  match _ : a.consumeLine? with
  | none => none
  | some (none, a') => some ([], a')
  | some (some l, a') => a'.consumeLines?.map fun rest => (l :: rest.1, rest.2)
termination_by a.used
decreasing_by exact used_consumeLine?_lt ‹_›

theorem consumeLines?_eq {a : Storage capacity} {b : LineBuffer capacity}
    (h : a.Holds b) :
    ∃ a', a.consumeLines? = some (b.consumeLines.value.1, a') ∧
      a'.Holds b.consumeLines.value.2 := by
  induction hn : a.used using Nat.strongRecOn generalizing a b with
  | ind n ih =>
      obtain ⟨a', ha', hheld⟩ := consumeLine?_eq h
      rw [consumeLines?]
      cases hline : b.consumeLine.value with
      | mk line? b' =>
          rw [hline] at ha' hheld
          cases line? with
          | none =>
              rw [LineBuffer.consumeLines_of_none hline]
              split
              · next hc => rw [ha'] at hc; cases hc
              · next hc => rw [ha'] at hc; cases hc; exact ⟨a', rfl, hheld⟩
              · next hc => rw [ha'] at hc; cases hc
          | some l =>
              obtain ⟨a'', ha'', hheld'⟩ :=
                ih a'.used (hn ▸ used_consumeLine?_lt ha') hheld rfl
              rw [LineBuffer.consumeLines_of_some hline]
              split
              · next hc => rw [ha'] at hc; cases hc
              · next hc => rw [ha'] at hc; cases hc
              · next hc =>
                  rw [ha'] at hc
                  cases hc
                  rw [ha'']
                  exact ⟨a'', rfl, hheld'⟩

/-- Filling finds the free part of the space, and takes no more of it into
use than there is. -/
theorem fill?_eq {a : Storage capacity} {b : LineBuffer capacity}
    (h : a.Holds b) (p : Port σ) (s : σ) : ∃ a' s', a.fill? p s =
        some ((b.fill (p.on (a.space.drop a.used)) s).value.1, a', s') ∧
      s' = (b.fill (p.on (a.space.drop a.used)) s).value.2.2 ∧
      a'.Holds (b.fill (p.on (a.space.drop a.used)) s).value.2.1 := by
  have hslice : slice? a.space a.used a.space.length =
      some (a.space.drop a.used) := by
    rw [slice?_of_le h.used_le_length (Nat.le_refl _), List.take_length]
  have hfree : (a.space.drop a.used).length = capacity - a.used := by
    rw [List.length_drop, h.length_space]
  have hroom : b.room = (a.space.drop a.used).length := by
    rw [LineBuffer.room, LineBuffer.length, h.length_pending, hfree]
  have hread := p.length_read s (a.space.drop a.used)
  have hlength := h.length_pending
  have hused := h.used_le
  rw [LineBuffer.value_fill, hroom, Port.read_on, fill?, hslice,
    Option.bind_eq_bind, Option.bind_some, h.take_used]
  by_cases hempty : a.space.drop a.used = []
  · rw [if_pos (List.isEmpty_iff.2 hempty),
      if_pos (List.length_eq_zero_iff.2 hempty)]
    exact ⟨a, s, rfl, rfl, h⟩
  · rw [if_neg (mt List.isEmpty_iff.1 hempty),
      if_neg (mt List.length_eq_zero_iff.1 hempty)]
    by_cases hcount : (p.read s (a.space.drop a.used)).2.1 = 0
    · rw [if_pos hcount, if_pos hcount]
      refine ⟨_, _, rfl, rfl, ?_, hused, List.take_left' hlength⟩
      rw [List.length_append]
      omega
    · rw [if_neg hcount, if_neg hcount]
      refine ⟨_, _, rfl, rfl, ?_, ?_, ?_⟩
      · rw [List.length_append]
        omega
      · dsimp only
        omega
      · rw [LineBuffer.pending_take, hroom]
        dsimp only
        rw [List.take_append, hlength, Nat.add_sub_cancel_left,
          List.take_of_length_le (Nat.le_trans (Nat.le_of_eq hlength)
            (Nat.le_add_right _ _))]

/-! ## Any number of steps -/

/-- What can be done with a space. -/
inductive Step where
  | call (c : LineBuffer.Call)
  | clear
deriving DecidableEq

/-- The space and the port after one step, if all parts of the space that it
asks for are there. -/
def step? (p : Port σ) (x : Storage capacity × σ) :
    Step → Option (Storage capacity × σ)
  | .call .fill => (x.1.fill? p x.2).map fun r => r.2
  | .call .consumeLine => x.1.consumeLine?.map fun r => (r.2, x.2)
  | .call .consumeLines => x.1.consumeLines?.map fun r => (r.2, x.2)
  | .clear => some (⟨x.1.space, 0⟩, x.2)

def steps? (p : Port σ) (x : Storage capacity × σ) :
    List Step → Option (Storage capacity × σ)
  | [] => some x
  | step :: steps => (step? p x step).bind fun x => steps? p x steps

/-- Whether all that can be done with a space gives what the buffer that it
holds would give, and leaves a space that holds what the buffer has become. -/
structure Faithful (a : Storage capacity) (b : LineBuffer capacity)
    (p : Port σ) (s : σ) : Prop where
  fill : ∃ filled a' b' s', a.fill? p s = some (filled, a', s') ∧
    (b.fill (p.on (a.space.drop a.used)) s).value =
    (filled, b', s') ∧ a'.Holds b'
  consumeLine : ∃ line? a' b', a.consumeLine? = some (line?, a') ∧
    b.consumeLine.value = (line?, b') ∧ a'.Holds b'
  consumeLines : ∃ lines a' b', a.consumeLines? = some (lines, a') ∧
    b.consumeLines.value = (lines, b') ∧ a'.Holds b'

theorem Holds.faithful {a : Storage capacity} {b : LineBuffer capacity}
    (h : a.Holds b) (p : Port σ) (s : σ) : a.Faithful b p s where
  fill := by
    obtain ⟨a', s', ha', rfl, hheld⟩ := fill?_eq h p s
    exact ⟨_, a', _, _, ha', rfl, hheld⟩
  consumeLine := by
    obtain ⟨a', ha', hheld⟩ := consumeLine?_eq h
    exact ⟨_, a', _, ha', rfl, hheld⟩
  consumeLines := by
    obtain ⟨a', ha', hheld⟩ := consumeLines?_eq h
    exact ⟨_, a', _, ha', rfl, hheld⟩

/-- Each step finds all that it asks for, and the space still holds a buffer. -/
theorem holds_step {p : Port σ} {x : Storage capacity × σ}
    {b : LineBuffer capacity} (h : x.1.Holds b) (step : Step) :
    ∃ y b', step? p x step = some y ∧ y.1.Holds b' := by
  cases step with
  | clear => exact ⟨_, .empty, rfl, h.length_space, Nat.zero_le _,
      List.take_zero⟩
  | call c =>
      cases c with
      | fill =>
          obtain ⟨a', s', ha', _, hheld⟩ := fill?_eq h p x.2
          rw [step?, ha']
          exact ⟨_, _, rfl, hheld⟩
      | consumeLine =>
          obtain ⟨a', ha', hheld⟩ := consumeLine?_eq h
          rw [step?, ha']
          exact ⟨_, _, rfl, hheld⟩
      | consumeLines =>
          obtain ⟨a', ha', hheld⟩ := consumeLines?_eq h
          rw [step?, ha']
          exact ⟨_, _, rfl, hheld⟩

theorem holds_steps {p : Port σ} {x : Storage capacity × σ}
    {b : LineBuffer capacity} (h : x.1.Holds b) (steps : List Step) :
    ∃ y b', steps? p x steps = some y ∧ y.1.Holds b' := by
  induction steps generalizing x b with
  | nil => exact ⟨x, b, rfl, h⟩
  | cons step steps ih =>
      obtain ⟨y, b', hy, hheld⟩ := @holds_step _ _ p x b h step
      rw [steps?, hy]
      exact ih hheld

theorem steps?_append (p : Port σ) (x : Storage capacity × σ)
    (steps steps' : List Step) :
    steps? p x (steps ++ steps') = (steps? p x steps).bind fun y =>
      steps? p y steps' := by
  induction steps generalizing x with
  | nil => rfl
  | cons step steps ih =>
      rw [List.cons_append, steps?, steps?, Option.bind_assoc]
      exact congrArg _ (funext fun y => ih y)

end Storage

/-! ## Filling and taking out by turns -/

/-- Whether a channel that holds so much comes to its end: as long as there is
something left, each read takes some of it and says so, and then none does. -/
structure Channel.Ends {σ : Type} (ch : Channel σ) (left : σ → Nat) : Prop where
  gives : ∀ s room, 0 < room → left s ≠ 0 →
    (ch.read s room).1.count ≠ 0 ∧ left (ch.read s room).2 < left s
  stops : ∀ s room, 0 < room → left s = 0 →
    (ch.read s room).1.count = 0 ∧ left (ch.read s room).2 = 0

/-- Bytes that come in pieces come to their end. -/
theorem Channel.ends_chunked (n : Nat) :
    (Channel.chunked (some (n + 1)) 0).Ends List.length where
  gives data room hroom hdata := by
    simp only [Channel.chunked, List.length_drop]
    omega
  stops data room _ hdata := by
    simp only [Channel.chunked, List.length_drop]
    omega

namespace LineBuffer

variable {capacity : Nat} {σ τ : Type} {ch : Channel σ} {left : σ → Nat}
  {handle : τ → Line → Logged τ}

/-- Whether a buffer holds nothing but the beginning of a line that
is not overlong. -/
def Drained (b : LineBuffer capacity) : Prop :=
  Unbroken b.pending ∧ b.pending.length ≤ capacity / 2

theorem drained_drain (b : LineBuffer capacity)
    (handle : τ → Line → Logged τ) (t : τ) :
    (b.drain handle t).value.2.Drained := by
  obtain ⟨pieces, rest, h⟩ := exists_cutUp b.pending
  rw [drain_eq h]
  exact pending_leave h.unbroken_rest

theorem Drained.room_pos {b : LineBuffer capacity} (h : b.Drained)
    (hpos : 0 < capacity) : 0 < b.room := by
  have hshort := h.2
  rw [room, length]
  omega

/-- Filling a buffer and handing out its lines by turns, up to the first
time that there is nothing to be had. The buffer is never full when it
is to be filled. -/
inductive Pumps (ch : Channel σ) (handle : τ → Line → Logged τ) :
    τ → LineBuffer capacity → σ →
    Logged (Nat × τ × LineBuffer capacity × σ) → Prop
  | done {t b b' s s' notices} (hroom : 0 < b.room)
      (h : b.fill ch s = ⟨(.done, b', s'), notices⟩) :
      Pumps ch handle t b s ⟨(0, t, b', s'), notices⟩
  | data {t b b' s s' notices x} (hroom : 0 < b.room)
      (h : b.fill ch s = ⟨(.data, b', s'), notices⟩)
      (hrest : Pumps ch handle (b'.drain handle t).value.1
        (b'.drain handle t).value.2 s' x) :
      Pumps ch handle t b s
        ⟨(x.value.1 + 1, x.value.2),
          notices ++ (b'.drain handle t).trace ++ x.trace⟩

/-- Filling a buffer that is not full gives no notice. -/
theorem fill_of_room {b : LineBuffer capacity} (hroom : 0 < b.room)
    (ch : Channel σ) (s : σ) :
    b.fill ch s =
      if (ch.read s b.room).1.count = 0
        then pure (.done, b, (ch.read s b.room).2)
      else pure (.data, b.take (ch.read s b.room).1, (ch.read s b.room).2) :=
  if_neg (Nat.ne_of_gt hroom)

/-- A drained buffer is filled and drained by turns until the channel is empty.
That takes no more rounds than there is left in the channel, and more rounds
make no difference. -/
theorem Drained.pumps (hch : ch.Ends left) (hpos : 0 < capacity)
    {b : LineBuffer capacity} (hb : b.Drained) (handle : τ → Line → Logged τ)
    (t : τ) (s : σ) :
    ∃ x, Pumps ch handle t b s x ∧ x.value.1 ≤ left s ∧ left x.value.2.2.2 = 0 ∧
      x.value.2.2.1.Drained ∧ ∀ rounds, left s < rounds →
      pumpFor ch handle rounds t b s = x := by
  have hroom := hb.room_pos hpos
  induction hn : left s using Nat.strongRecOn generalizing b t s with
  | ind n ih =>
      by_cases hempty : left s = 0
      · obtain ⟨hcount, hleft⟩ := hch.stops s b.room hroom hempty
        have hfill : b.fill ch s = ⟨(.done, b, (ch.read s b.room).2), []⟩ := by
          rw [fill_of_room hroom, if_pos hcount]
          rfl
        refine ⟨_, .done hroom hfill, Nat.zero_le _, hleft, hb,
          fun rounds hrounds => ?_⟩
        obtain ⟨k, rfl⟩ : ∃ k, rounds = k + 1 := ⟨rounds - 1, by omega⟩
        rw [pumpFor, hfill]
        rfl
      · obtain ⟨hcount, hleft⟩ := hch.gives s b.room hroom hempty
        have hfill : b.fill ch s =
            ⟨(.data, b.take (ch.read s b.room).1,
              (ch.read s b.room).2), []⟩ := by
          rw [fill_of_room hroom, if_neg hcount]
          rfl
        -- What has been drained is where the next round begins.
        have hdrained := (b.take (ch.read s b.room).1).drained_drain handle t
        obtain ⟨x, hpumps, hfills, hend, hb', hrounds⟩ :=
          ih _ (hn ▸ hleft) hdrained
            ((b.take (ch.read s b.room).1).drain handle t).value.1
            _ (hdrained.room_pos hpos) rfl
        refine ⟨_, .data hroom hfill hpumps, ?_, hend, hb',
          fun rounds hlt => ?_⟩
        · show x.value.1 + 1 ≤ n
          omega
        · obtain ⟨k, rfl⟩ : ∃ k, rounds = k + 1 := ⟨rounds - 1, by omega⟩
          rw [pumpFor, hfill, ← hrounds k (by omega)]
          refine Traced.ext rfl ?_
          simp only [Traced.trace_bind, Traced.trace_pure, List.append_nil,
            List.nil_append]

end LineBuffer

namespace Storage

/-- When all lines have been taken out, what is in use is drained. -/
theorem drained_of_consumeLines {p : Port σ} {x y : Storage capacity × σ}
    {b b' : LineBuffer capacity} {earlier : List Step} (hx : x.1.Holds b)
    (h : steps? p x (earlier ++ [.call .consumeLines]) = some y)
    (hy : y.1.Holds b') : b'.Drained := by
  obtain ⟨z, c, hz, hheld⟩ := @holds_steps _ _ p x b hx earlier
  obtain ⟨a', ha', hheld'⟩ := consumeLines?_eq hheld
  rw [steps?_append, hz, Option.bind_some, steps?, step?, ha'] at h
  obtain rfl := Option.some.inj h
  have hsame : b' = c.consumeLines.value.2 :=
    LineBuffer.ext (hy.take_used.symm.trans hheld'.take_used)
  rw [hsame]
  exact LineBuffer.drained_drain _ _ _

/-- Whatever is done with a space, and however many bytes are said to have been
written, all parts of the space that are asked for are there, what is in use
fits, and the space does what the buffer does that it holds. When all lines have
been taken out, no end of line is in use, and no more than half of the space.
From there on, whoever fills and takes out by turns never finds the buffer full
and comes to the end of what there is to be read. -/
theorem stays_in_bounds (capacity : Nat) :
    (∀ (σ : Type) (p : Port σ) (s : σ) (steps : List Step),
      ∃ (a : Storage capacity) (b : LineBuffer capacity) (s' : σ),
        steps? p (new, s) steps = some (a, s') ∧ a.Holds b ∧ a.used ≤ capacity ∧
        b.length = a.used ∧ a.Faithful b p s' ∧
        ∀ earlier, steps = earlier ++ [.call .consumeLines] →
          Unbroken b.pending ∧ a.used ≤ capacity / 2) ∧
    ∀ (σ τ : Type) (ch : Channel σ) (left : σ → Nat), 0 < capacity →
      ch.Ends left →
      ∀ (handle : τ → Line → Logged τ) (t : τ) (s : σ)
        (b : LineBuffer capacity),
        Unbroken b.pending → b.pending.length ≤ capacity / 2 →
        ∃ x, LineBuffer.Pumps ch handle t b s x ∧ x.value.1 ≤ left s ∧
          left x.value.2.2.2 = 0 ∧ ∀ rounds, left s < rounds →
            LineBuffer.pumpFor ch handle rounds t b s = x := by
  constructor
  · intro σ p s steps
    obtain ⟨⟨a, s'⟩, b, hsteps, hheld⟩ :=
      @holds_steps capacity _ p (new, s) _ .new steps
    refine ⟨a, b, s', hsteps, hheld, hheld.used_le, hheld.length_pending,
      hheld.faithful p s', ?_⟩
    rintro earlier rfl
    obtain ⟨hun, hshort⟩ := drained_of_consumeLines .new hsteps hheld
    exact ⟨hun, hheld.length_pending ▸ hshort⟩
  · intro σ τ ch left hpos hch handle t s b hun hshort
    obtain ⟨x, hpumps, hfills, hend, _, hrounds⟩ :=
      LineBuffer.Drained.pumps hch hpos ⟨hun, hshort⟩ handle t s
    exact ⟨x, hpumps, hfills, hend, hrounds⟩

/-- A port that says it has written a thousand bytes into four, and ten bytes
that are read in pieces of three into a buffer of eight. -/
theorem stays_in_bounds_of_pieces :
    (∃ (b : Storage 4) (s : Unit),
      steps? ⟨fun s space => (space.map fun _ => 65, 1000, s),
        fun _ _ => List.length_map _⟩ (new, ())
          [.call .fill, .call .consumeLines, .call .fill] = some (b, s) ∧
        b.used ≤ 4) ∧
    ∃ x, LineBuffer.Pumps (Channel.chunked (some 3) 0)
      (fun ls l => pure (ls ++ [l])) [] (.empty : LineBuffer 8)
      (Text.bytes "OK\r\nRING\r\n") x ∧ x.value.1 ≤ 10 ∧
      x.value.2.2.2.length = 0 := by
  constructor
  · obtain ⟨a, _, s, hsteps, _, hused, _⟩ := (stays_in_bounds 4).1 Unit
      ⟨fun s space => (space.map fun _ => 65, 1000, s),
        fun _ _ => List.length_map _⟩ ()
      [.call .fill, .call .consumeLines, .call .fill]
    exact ⟨a, s, hsteps, hused⟩
  · obtain ⟨x, hpumps, hfills, hend, _⟩ := (stays_in_bounds 8).2 _ _
      (Channel.chunked (some 3) 0) List.length (by decide)
      (Channel.ends_chunked 2) (fun ls l => pure (ls ++ [l])) []
      (Text.bytes "OK\r\nRING\r\n") .empty nofun (Nat.zero_le _)
    exact ⟨x, hpumps, hfills, hend⟩

end Storage

end CellModem
