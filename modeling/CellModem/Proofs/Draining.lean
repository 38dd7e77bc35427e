import CellModem.Proofs.Fields
import CellModem.Proofs.Framing

/-!
# What draining a buffer makes of its bytes

What is pending in a line buffer is lines, each with a run of ends of line
behind it, and then the beginning of a line that has not come to its end. Every
run is as long as it can be, so a line can be empty only in front, where ends of
line may have come late (`CutUp`).

Draining hands out just these lines and keeps just the rest, unless the rest is
overlong and is dropped (`drain_eq`). The bytes are moved up in the buffer line
by line on the way, and nothing of that shows: behind each line that is handed
out stands a buffer whose bytes are cut up as before, with the first piece gone.
So the proof goes by the pieces and not by the buffer.
-/

namespace CellModem

/-- A line, and the ends of line behind it. -/
structure Piece where
  text : List UInt8
  ends : List UInt8

namespace Piece

def bytes (p : Piece) : List UInt8 := p.text ++ p.ends

def line (p : Piece) : Line := ⟨p.text⟩

end Piece

/-- Bytes cut up into lines, each with the ends of line behind it, and a
rest without any. -/
structure CutUp (bytes : List UInt8) (pieces : List Piece) (rest : List UInt8) :
    Prop where
  whole : bytes = pieces.flatMap Piece.bytes ++ rest
  unbroken : ∀ p ∈ pieces, Unbroken p.text
  ends : ∀ p ∈ pieces, p.ends ≠ [] ∧ ∀ e ∈ p.ends, isLineEnd e = true
  unbroken_rest : Unbroken rest
  /-- Only the first line may be empty. -/
  filled : ∀ p ∈ pieces.tail, p.text ≠ []

namespace CutUp

variable {bytes rest : List UInt8} {p : Piece} {pieces : List Piece}

theorem nil (h : Unbroken rest) : CutUp rest [] rest where
  whole := rfl
  unbroken _ hp := absurd hp List.not_mem_nil
  ends _ hp := absurd hp List.not_mem_nil
  unbroken_rest := h
  filled _ hp := absurd hp List.not_mem_nil

theorem tail (h : CutUp bytes (p :: pieces) rest) :
    CutUp (pieces.flatMap Piece.bytes ++ rest) pieces rest where
  whole := rfl
  unbroken q hq := h.unbroken q (List.mem_cons_of_mem p hq)
  ends q hq := h.ends q (List.mem_cons_of_mem p hq)
  unbroken_rest := h.unbroken_rest
  filled q hq := h.filled q (List.mem_of_mem_tail hq)

/-- If the first line is not empty, the bytes do not begin with
an end of line. -/
theorem not_isLineEnd_head? (h : CutUp bytes pieces rest)
    (hfirst : ∀ p ∈ pieces.head?, p.text ≠ []) :
    ∀ c ∈ bytes.head?, isLineEnd c = false := by
  intro c hc
  rw [h.whole] at hc
  cases pieces with
  | nil => exact h.unbroken_rest c (List.mem_of_mem_head? hc)
  | cons p pieces =>
      obtain ⟨d, text, hp⟩ := List.exists_cons_of_ne_nil (hfirst p rfl)
      rw [List.flatMap_cons, Piece.bytes, hp] at hc
      refine h.unbroken p List.mem_cons_self c ?_
      rw [hp, ← Option.some.inj hc]
      exact List.mem_cons_self

/-- A line is empty just if the bytes begin with an end of line. -/
theorem exists_empty_iff (h : CutUp bytes pieces rest) :
    (∃ p ∈ pieces, p.text = []) ↔ ∃ c ∈ bytes.head?, isLineEnd c = true := by
  constructor
  · rintro ⟨p, hp, hempty⟩
    cases pieces with
    | nil => exact absurd hp List.not_mem_nil
    | cons q pieces =>
        rcases List.mem_cons.1 hp with rfl | htail
        · obtain ⟨hne, hends⟩ := h.ends p List.mem_cons_self
          obtain ⟨e, ends, he⟩ := List.exists_cons_of_ne_nil hne
          refine ⟨e, ?_, hends e (he ▸ List.mem_cons_self)⟩
          rw [h.whole, List.flatMap_cons, Piece.bytes, hempty, he]
          rfl
        · exact absurd hempty (h.filled p htail)
  · rintro ⟨c, hc, hend⟩
    cases pieces with
    | nil =>
        rw [h.not_isLineEnd_head? nofun c hc] at hend
        cases hend
    | cons p pieces =>
        by_cases hempty : p.text = []
        · exact ⟨p, List.mem_cons_self, hempty⟩
        · have hfirst : ∀ q ∈ (p :: pieces).head?, q.text ≠ [] := by
            rintro q ⟨⟩
            exact hempty
          rw [h.not_isLineEnd_head? hfirst c hc] at hend
          cases hend

/-- No run of ends of line goes on in front of or behind where
it was cut out. -/
theorem maximal {before after : List Piece}
    (h : CutUp bytes (before ++ p :: after) rest) :
    (∀ c ∈ (before.flatMap Piece.bytes ++ p.text).getLast?,
      isLineEnd c = false) ∧ ∀ c ∈ (after.flatMap Piece.bytes ++ rest).head?,
        isLineEnd c = false := by
  have hp : Unbroken p.text := h.unbroken p (by simp)
  constructor
  · intro c hc
    cases before with
    | nil => exact hp c (List.mem_of_getLast? hc)
    | cons q before =>
        have hne : p.text ≠ [] := h.filled p (by simp)
        rw [List.getLast?_append, List.getLast?_eq_some_getLast hne,
          Option.some_or] at hc
        exact hp c (List.mem_of_getLast?
          ((List.getLast?_eq_some_getLast hne).trans hc))
  · have hafter : CutUp (after.flatMap Piece.bytes ++ rest) after rest := by
      induction before generalizing bytes with
      | nil => exact h.tail
      | cons q before ih => exact ih h.tail
    refine hafter.not_isLineEnd_head? fun q hq => h.filled q ?_
    have hmem : q ∈ after := List.mem_of_mem_head? hq
    cases before <;> simp [hmem]

/-- A piece may stand in front of bytes that do not begin with
an end of line. -/
theorem cons (htext : Unbroken p.text) (hne : p.ends ≠ [])
    (hends : ∀ e ∈ p.ends, isLineEnd e = true)
    (hstop : ∀ c ∈ bytes.head?, isLineEnd c = false)
    (h : CutUp bytes pieces rest) :
    CutUp (p.bytes ++ bytes) (p :: pieces) rest where
  whole := by rw [List.flatMap_cons, List.append_assoc, ← h.whole]
  unbroken := List.forall_mem_cons.2 ⟨htext, h.unbroken⟩
  ends := List.forall_mem_cons.2 ⟨⟨hne, hends⟩, h.ends⟩
  unbroken_rest := h.unbroken_rest
  filled := by
    intro q hq hempty
    obtain ⟨c, hc, hend⟩ := h.exists_empty_iff.1 ⟨q, hq, hempty⟩
    rw [hstop c hc] at hend
    cases hend

end CutUp

/-- Bytes with an end of line begin with a piece, and no end of
line comes next. -/
theorem exists_first_piece {bytes : List UInt8} (h : ¬ Unbroken bytes) :
    ∃ (p : Piece) (behind : List UInt8), bytes = p.bytes ++ behind ∧
      Unbroken p.text ∧ p.ends ≠ [] ∧ (∀ e ∈ p.ends, isLineEnd e = true) ∧
      ∀ c ∈ behind.head?, isLineEnd c = false := by
  have hsplit : bytes.takeWhile (!isLineEnd ·) ++ bytes.dropWhile
      (!isLineEnd ·) = bytes :=
    List.takeWhile_append_dropWhile
  have hun : Unbroken (bytes.takeWhile (!isLineEnd ·)) := fun c hc => by
    simpa using List.all_eq_true.1 List.all_takeWhile c hc
  have hfirst := List.head?_dropWhile_not (!isLineEnd ·) bytes
  cases htail : bytes.dropWhile (!isLineEnd ·) with
  | nil =>
      rw [htail, List.append_nil] at hsplit
      rw [hsplit] at hun
      exact absurd hun h
  | cons e tail =>
      have he : isLineEnd e = true := by
        rw [htail] at hfirst
        simpa using hfirst
      refine ⟨⟨bytes.takeWhile (!isLineEnd ·), (e :: tail).takeWhile isLineEnd⟩,
        (e :: tail).dropWhile isLineEnd, ?_, hun, ?_, ?_, ?_⟩
      · rw [Piece.bytes, List.append_assoc, List.takeWhile_append_dropWhile,
          ← htail, hsplit]
      · rw [List.takeWhile_cons_of_pos he]
        exact List.cons_ne_nil _ _
      · exact fun c hc => List.all_eq_true.1 List.all_takeWhile c hc
      · intro c hc
        have hnot := List.head?_dropWhile_not isLineEnd (e :: tail)
        rw [Option.mem_def.1 hc] at hnot
        simpa using hnot

theorem exists_cutUp (bytes : List UInt8) :
    ∃ pieces rest, CutUp bytes pieces rest := by
  induction hn : bytes.length using Nat.strongRecOn generalizing bytes with
  | ind n ih =>
      by_cases hun : Unbroken bytes
      · exact ⟨[], bytes, .nil hun⟩
      · obtain ⟨p, behind, rfl, htext, hne, hends, hstop⟩ :=
          exists_first_piece hun
        have hlt : behind.length < n := by
          have hpos : 0 < p.ends.length := List.length_pos_iff.2 hne
          rw [List.length_append, Piece.bytes, List.length_append] at hn
          omega
        obtain ⟨pieces, rest, h⟩ := ih _ hlt behind rfl
        exact ⟨p :: pieces, rest, .cons htext hne hends hstop h⟩

/-! ## Draining -/

namespace LineBuffer

variable {capacity : Nat} {σ : Type} {b : LineBuffer capacity}
  {rest : List UInt8} {p : Piece} {pieces : List Piece}

/-- What stays of the beginning of a line when all before it has
been handed out. -/
def leave (capacity : Nat) (rest : List UInt8) : LineBuffer capacity where
  pending := if rest.length ≤ maxLine capacity then rest else []
  length_le := by
    split
    · next hshort => exact Nat.le_trans hshort (Nat.div_le_self capacity 2)
    · exact Nat.zero_le _

theorem pending_leave_of_short (h : rest.length ≤ maxLine capacity) :
    (leave capacity rest).pending = rest := if_pos h

theorem leave_of_long (h : maxLine capacity < rest.length) :
    leave capacity rest = empty :=
  LineBuffer.ext (if_neg (Nat.not_le.2 h))

theorem not_isLineEnd_of_unbroken {text : List UInt8} (h : Unbroken text) :
    ∀ c ∈ text, (!isLineEnd c) = true := by
  intro c hc
  rw [h c hc]
  rfl

/-- Without an end of line there is nothing to hand out, and an overlong
beginning is dropped. -/
theorem consumeLine_of_unbroken (h : Unbroken b.pending) :
    b.consumeLine = do
      Logged.noteIf (maxLine capacity < b.length)
        (.lineTooLong (maxLine capacity) b.length)
      return (none, leave capacity b.pending) := by
  have htail : b.tail = [] := by
    have hstop : ∀ c ∈ ([] : List UInt8).head?, (!isLineEnd c) = false := nofun
    have hdrop := dropWhile_append_of_stop (not_isLineEnd_of_unbroken h) hstop
    rwa [List.append_nil] at hdrop
  simp only [consumeLine, htail]
  by_cases hlong : maxLine capacity < b.length
  · rw [if_pos hlong, leave_of_long hlong, decide_eq_true hlong]
    rfl
  · have hleave : leave capacity b.pending = b :=
      LineBuffer.ext (pending_leave_of_short (Nat.le_of_not_lt hlong))
    rw [if_neg hlong, hleave, decide_eq_false hlong]
    rfl

/-- What is pending, cut at the first line and again behind its ends of line. -/
theorem cut_of_piece (h : CutUp b.pending (p :: pieces) rest) :
    b.head = p.text ∧ b.tail ≠ [] ∧
      b.behind.pending = pieces.flatMap Piece.bytes ++ rest := by
  obtain ⟨hne, hends⟩ := h.ends p List.mem_cons_self
  have htext := not_isLineEnd_of_unbroken (h.unbroken p List.mem_cons_self)
  have hbehind :=
    h.tail.not_isLineEnd_head? fun q hq => h.filled q (List.mem_of_mem_head? hq)
  have hpending :
      b.pending = p.text ++
      (p.ends ++ (pieces.flatMap Piece.bytes ++ rest)) := by
    rw [h.whole, List.flatMap_cons, Piece.bytes, List.append_assoc,
      List.append_assoc]
  have hstop : ∀ c ∈ (p.ends ++ (pieces.flatMap Piece.bytes ++ rest)).head?,
      (!isLineEnd c) = false := by
    obtain ⟨e, ends, he⟩ := List.exists_cons_of_ne_nil hne
    rw [he]
    rintro c ⟨⟩
    rw [hends e (he ▸ List.mem_cons_self)]
    rfl
  have htail : b.tail = p.ends ++ (pieces.flatMap Piece.bytes ++ rest) := by
    rw [tail, hpending]
    exact dropWhile_append_of_stop htext hstop
  refine ⟨?_, fun hnil => hne (List.append_eq_nil_iff.1 (htail ▸ hnil)).1, ?_⟩
  · rw [head, hpending]
    exact takeWhile_append_of_stop htext hstop
  · rw [pending_behind, htail]
    exact dropWhile_append_of_stop hends hbehind

theorem cutUp_behind (h : CutUp b.pending (p :: pieces) rest) :
    CutUp b.behind.pending pieces rest := by
  rw [(cut_of_piece h).2.2]
  exact h.tail

/-- The first line is handed out and its piece taken away; what is behind
it is left alone. -/
theorem consumeLine_of_piece (h : CutUp b.pending (p :: pieces) rest) :
    b.consumeLine = do
      Logged.note (.framed p.text)
      return (some p.line, b.behind) := by
  obtain ⟨hhead, htail, _⟩ := cut_of_piece h
  unfold consumeLine
  split
  · next hnil => exact absurd hnil htail
  · rw [hhead]
    rfl

/-- Draining takes out one line, if there is one, and goes on with
what it has left. -/
theorem drain_eq_bind (handle : σ → Line → Logged σ) (s : σ)
    (b : LineBuffer capacity) : b.drain handle s = (do
      let (line?, b) ← b.consumeLine
      match line? with
      | none => return (s, b)
      | some l => b.drain handle (← handle s l)) := by
  rw [drain]
  split
  · next hc =>
      rw [hc]
      exact Traced.ext rfl (List.append_nil _).symm
  · next hc =>
      rw [hc]
      exact Traced.ext rfl (List.append_assoc _ _ _)

/-- Reports the line of a piece and hands it out. -/
def handOut (handle : σ → Line → Logged σ) (s : σ) (p : Piece) : Logged σ := do
  Logged.note (.framed p.text)
  handle s p.line

/-- Draining hands out the lines of the pieces, the first one first, and
leaves the rest. -/
theorem drain_eq (h : CutUp b.pending pieces rest)
    (handle : σ → Line → Logged σ) (s : σ) :
    b.drain handle s = do
      let s ← pieces.foldlM (handOut handle) s
      Logged.noteIf (maxLine capacity < rest.length)
        (.lineTooLong (maxLine capacity) rest.length)
      return (s, leave capacity rest) := by
  induction pieces generalizing b s with
  | nil =>
      have hrest : b.pending = rest := h.whole
      have hun : Unbroken b.pending := hrest ▸ h.unbroken_rest
      rw [drain_eq_bind, consumeLine_of_unbroken hun, length, hrest]
      simp only [List.foldlM_nil, bind_assoc, pure_bind]
  | cons p pieces ih =>
      rw [drain_eq_bind, consumeLine_of_piece h, List.foldlM_cons]
      simp only [handOut, bind_assoc, pure_bind, ih (cutUp_behind h)]

theorem foldlM_handOut_collect (pieces : List Piece) (lines : List Line) :
    pieces.foldlM (handOut fun ls l => pure (ls ++ [l])) lines =
      ⟨lines ++ pieces.map Piece.line, pieces.map fun p => .framed p.text⟩ := by
  induction pieces generalizing lines with
  | nil => rw [List.map_nil, List.append_nil]; rfl
  | cons p pieces ih =>
      rw [List.foldlM_cons, handOut, bind_assoc, pure_bind, ih,
        List.append_assoc]
      rfl

theorem consumeLines_eq (h : CutUp b.pending pieces rest) :
    b.consumeLines = ⟨(pieces.map Piece.line, leave capacity rest),
      (pieces.map fun p => .framed p.text) ++
        if maxLine capacity < rest.length
          then [.lineTooLong (maxLine capacity) rest.length]
        else []⟩ := by
  rw [consumeLines, drain_eq h, foldlM_handOut_collect]
  refine Traced.ext rfl ?_
  simp only [Traced.trace_bind, Logged.trace_noteIf, Traced.trace_pure,
    List.append_nil,
    decide_eq_true_eq]

/-! ## One line at a time -/

/-- Takes out one line after the other until there is none, with all the
notices on the way. -/
inductive OneByOne :
    LineBuffer capacity → Logged (List Line × LineBuffer capacity) → Prop
  | done {b b' notices} (h : b.consumeLine = ⟨(none, b'), notices⟩) :
      OneByOne b ⟨([], b'), notices⟩
  | next {b b' b'' l lines notices notices'}
      (h : b.consumeLine = ⟨(some l, b'), notices⟩)
      (hrest : OneByOne b' ⟨(lines, b''), notices'⟩) :
      OneByOne b ⟨(l :: lines, b''), notices ++ notices'⟩

theorem OneByOne.eq {x y : Logged (List Line × LineBuffer capacity)}
    (hx : OneByOne b x) (hy : OneByOne b y) : x = y := by
  induction hx generalizing y with
  | done h =>
      cases hy with
      | done h' =>
          cases h.symm.trans h'
          rfl
      | next h' _ => cases h.symm.trans h'
  | next h _ ih =>
      cases hy with
      | done h' => cases h.symm.trans h'
      | next h' hrest' =>
          cases h.symm.trans h'
          cases ih hrest'
          rfl

theorem oneByOne_consumeLines (h : CutUp b.pending pieces rest) :
    OneByOne b b.consumeLines := by
  induction pieces generalizing b with
  | nil =>
      have hrest : b.pending = rest := h.whole
      have hun : Unbroken b.pending := hrest ▸ h.unbroken_rest
      rw [consumeLines_eq h]
      refine .done ?_
      rw [consumeLine_of_unbroken hun, length, hrest]
      refine Traced.ext rfl ?_
      simp only [Traced.trace_bind, Logged.trace_noteIf, Traced.trace_pure,
        List.append_nil, decide_eq_true_eq]
      rfl
  | cons p pieces ih =>
      have hrest := ih (cutUp_behind h)
      rw [consumeLines_eq (cutUp_behind h)] at hrest
      have hnext := OneByOne.next (consumeLine_of_piece h) hrest
      rw [consumeLines_eq h, List.map_cons, List.map_cons, List.cons_append]
      exact hnext

theorem oneByOne_iff (b : LineBuffer capacity)
    (x : Logged (List Line × LineBuffer capacity)) :
    OneByOne b x ↔ x = b.consumeLines := by
  obtain ⟨pieces, rest, h⟩ := exists_cutUp b.pending
  constructor
  · exact fun hx => hx.eq (oneByOne_consumeLines h)
  · rintro rfl
    exact oneByOne_consumeLines h

theorem pending_leave (h : Unbroken rest) :
    Unbroken (leave capacity rest).pending ∧
    (leave capacity rest).pending.length ≤ maxLine capacity := by
  rw [leave]
  dsimp only
  split
  · next hshort => exact ⟨h, hshort⟩
  · exact ⟨fun c hc => absurd hc List.not_mem_nil, Nat.zero_le _⟩

/-- What draining leaves is left alone by draining. -/
theorem drain_leave (h : Unbroken rest) (handle : σ → Line → Logged σ) (s : σ) :
    (leave capacity rest).drain handle s = pure (s, leave capacity rest) := by
  obtain ⟨hun, hshort⟩ := @pending_leave capacity _ h
  have hsame : leave capacity (leave capacity rest).pending =
      leave capacity rest :=
    LineBuffer.ext (pending_leave_of_short hshort)
  rw [drain_eq (.nil hun), hsame, decide_eq_false (Nat.not_lt.2 hshort)]
  rfl

/-- What is pending is lines with their ends of line, and a rest; draining hands
out the lines, the first one first, and keeps the rest if it is not overlong. To
take out one line after the other comes to the same. There is nothing left to be
handed out or dropped. -/
theorem drain_splits (b : LineBuffer capacity) :
    ∃ pieces rest left, CutUp b.pending pieces rest ∧
      left.pending = (if rest.length ≤ capacity / 2 then rest else []) ∧
      (∀ before p after, pieces = before ++ p :: after →
        (∀ c ∈ (before.flatMap Piece.bytes ++ p.text).getLast?,
            isLineEnd c = false) ∧
          ∀ c ∈ (after.flatMap Piece.bytes ++ rest).head?,
            isLineEnd c = false) ∧
      ((∃ p ∈ pieces, p.text = []) ↔
        ∃ c ∈ b.pending.head?, isLineEnd c = true) ∧
      (∀ (σ : Type) (handle : σ → Line → Logged σ) (s : σ),
        b.drain handle s = (do
          let s ← pieces.foldlM (handOut handle) s
          Logged.noteIf (maxLine capacity < rest.length)
            (.lineTooLong (maxLine capacity) rest.length)
          return (s, left))) ∧
      b.consumeLines.value.1 = pieces.map Piece.line ∧
      (∀ x, OneByOne b x ↔ x = b.consumeLines) ∧
      ∀ (σ : Type) (handle : σ → Line → Logged σ) (s : σ),
        b.consumeLines.value.2.drain handle s =
          pure (s, b.consumeLines.value.2) := by
  obtain ⟨pieces, rest, h⟩ := exists_cutUp b.pending
  refine ⟨pieces, rest, leave capacity rest, h, rfl, ?_, h.exists_empty_iff,
    fun σ handle s => drain_eq h handle s, ?_, oneByOne_iff b, ?_⟩
  · rintro before p after rfl
    exact h.maximal
  · rw [consumeLines_eq h]
  · rw [consumeLines_eq h]
    exact fun σ handle s => drain_leave h.unbroken_rest handle s

example : (⟨Text.bytes "\nOK\r\n\r\nRI", by decide +kernel⟩ :
    LineBuffer 32).consumeLines.value = ([.ofText "", .ofText "OK"],
    ⟨Text.bytes "RI", by decide +kernel⟩) := by decide +kernel

end LineBuffer

end CellModem
