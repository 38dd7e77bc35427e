import CellModem.Proofs.Listening
import Mathlib.Data.List.Induction

/-!
# Which lines are too long

The buffer holds twice as much as the longest line, and it looks at the length
only of what has no end yet. So an overlong line has two fates. If more than 256
bytes of it are there after a read and its end is not, they are dropped and the
overflow is reported. But the read that brings the 257th byte may bring the end
as well, and then the line is framed like any other, with up to 63 bytes too
many. What is sent on its way is the first 256 bytes of it, and nobody is told.

All this depends on how the bytes were split into reads, and on nothing else:
what is framed and what is dropped is computed from the reads alone
(`Framing.ofReads`), whatever happens to the modem in between
(`overlong_line_fate`). The invariant says that it is what was reported so far,
followed by what the receiver will make of the bytes that it has.
-/

namespace CellModem

/-! ## What becomes of bytes -/

/-- What a buffer makes of the bytes in it. -/
inductive Framing where
  | line (l : Line)
  /-- The beginning of a line has grown too long and is dropped. -/
  | overflow (dropped : Nat)
deriving DecidableEq

/-- What a notice says of the bytes in the buffer. Empty lines do not count. -/
def Notice.framing? : Notice → Option Framing
  | .framed bytes => if bytes.isEmpty then none else some (.line ⟨bytes⟩)
  | .lineTooLong _ dropped => some (.overflow dropped)
  | _ => none

/-- The lines that were framed and the overflows that were
reported, in order. -/
def framings (outs : List Output) : List Framing :=
  outs.filterMap (Output.tells Notice.framing?)

namespace Framing

/-- What is made of the bytes in a buffer when all complete lines are
taken out of it. -/
def ofBytes (bytes : List UInt8) : List Framing :=
  (completeLines bytes).map .line ++
    if LineBuffer.maxLine 512 < (openLine bytes).length
      then [.overflow (openLine bytes).length]
    else []

end Framing

/-- What is left in a buffer when all complete lines are taken out of it. -/
def leftOver (bytes : List UInt8) : List UInt8 :=
  if LineBuffer.maxLine 512 < (openLine bytes).length then []
    else openLine bytes

/-- What waits for its end when pieces are read one after the other. -/
def waiting (pending : List UInt8) (pieces : List (List UInt8)) : List UInt8 :=
  pieces.foldl (fun pending piece => leftOver (pending ++ piece)) pending

/-- What is made of pieces that are read one after the other. -/
def Framing.ofReads (pending : List UInt8) : List (List UInt8) → List Framing
  | [] => []
  | piece :: pieces =>
    ofBytes (pending ++ piece) ++ ofReads (leftOver (pending ++ piece)) pieces

/-- Whether a line that ends in a piece ends before it is too long. -/
def EndsInTime (pending piece : List UInt8) : Prop :=
  (∃ b ∈ piece, isLineEnd b = true) →
    (pending ++ piece.takeWhile (!isLineEnd ·)).length ≤ Line.maxKept

/-! ## Lines in bytes -/

theorem splitOnP_append {xs : List UInt8} (h : Terminated xs) (hne : xs ≠ [])
    (ys : List UInt8) :
    ∃ pieces, (xs ++ ys).splitOnP isLineEnd = pieces ++ ys.splitOnP isLineEnd ∧
      pieces.filter (!·.isEmpty) = stretches xs := by
  rcases List.eq_nil_or_concat xs with rfl | ⟨zs, e, rfl⟩
  · exact absurd rfl hne
  · have he : isLineEnd e = true := h e (by simp)
    refine ⟨zs.splitOnP isLineEnd, ?_, ?_⟩
    · rw [List.concat_eq_append, List.append_assoc, List.singleton_append,
        List.splitOnP_append_cons zs ys he]
    · rw [List.concat_eq_append, stretches_append_cons he, stretches_nil,
        List.append_nil]
      rfl

theorem completeLines_append {xs : List UInt8} (h : Terminated xs)
    (ys : List UInt8) :
    completeLines (xs ++ ys) = (stretches xs).map Line.mk ++
      completeLines ys := by
  by_cases hne : xs = []
  · rw [hne]
    rfl
  · obtain ⟨pieces, hsplit, hpieces⟩ := splitOnP_append h hne ys
    have hys : ys.splitOnP isLineEnd ≠ [] := List.splitOnP_ne_nil _ _
    rw [completeLines, hsplit, List.dropLast_append_of_ne_nil hys,
      List.filter_append, hpieces, List.map_append]
    rfl

theorem openLine_append {xs : List UInt8} (h : Terminated xs)
    (ys : List UInt8) :
    openLine (xs ++ ys) = openLine ys := by
  by_cases hne : xs = []
  · rw [hne, List.nil_append]
  · obtain ⟨pieces, hsplit, _⟩ := splitOnP_append h hne ys
    obtain ⟨before, last, hys⟩ :=
      (List.eq_nil_or_concat (ys.splitOnP isLineEnd)).resolve_left
        (List.splitOnP_ne_nil _ _)
    rw [openLine, hsplit, openLine, hys, List.concat_eq_append,
      ← List.append_assoc, List.getLastD_concat, List.getLastD_concat]

theorem completeLines_of_unbroken {bytes : List UInt8} (h : Unbroken bytes) :
    completeLines bytes = [] :=
  completeLines_settled terminated_nil h

theorem openLine_of_unbroken {bytes : List UInt8} (h : Unbroken bytes) :
    openLine bytes = bytes :=
  openLine_settled terminated_nil h

/-- A line that ends, and what stands behind it. -/
theorem completeLines_text {text ends rest : List UInt8} (ht : Unbroken text)
    (hne : ends ≠ []) (hends : ∀ b ∈ ends, isLineEnd b = true) :
    completeLines (text ++ ends ++ rest) =
      (if text = [] then [] else [⟨text⟩]) ++ completeLines rest := by
  have hhead : ∀ b ∈ ends.head?, isLineEnd b = true :=
    fun b hb => hends b (List.mem_of_head? hb)
  rw [completeLines_append (terminated_append hne hends),
    stretches_text ht hhead, stretches_ends hends, List.append_nil]
  split <;> rfl

theorem exists_settled (bytes : List UInt8) :
    ∃ settled text, bytes = settled ++ text ∧ Terminated settled ∧
    Unbroken text := by
  induction bytes using List.reverseRecOn with
  | nil => exact ⟨[], [], rfl, terminated_nil,
      fun _ h => absurd h List.not_mem_nil⟩
  | append_singleton bytes b ih =>
      obtain ⟨settled, text, rfl, hs, ht⟩ := ih
      by_cases hb : isLineEnd b = true
      · refine ⟨settled ++ text ++ [b], [], (List.append_nil _).symm, ?_,
          fun _ h => absurd h List.not_mem_nil⟩
        exact terminated_append (List.cons_ne_nil b []) fun c hc => by
          rw [List.mem_singleton.1 hc]
          exact hb
      · refine ⟨settled, text ++ [b], List.append_assoc _ _ _, hs,
          ht.append fun c hc => ?_⟩
        rw [List.mem_singleton.1 hc]
        exact Bool.eq_false_iff.2 hb

theorem unbroken_openLine (bytes : List UInt8) : Unbroken (openLine bytes) := by
  obtain ⟨settled, text, rfl, hs, ht⟩ := exists_settled bytes
  rw [openLine_settled hs ht]
  exact ht

theorem length_le_of_mem_splitOnP {bytes s : List UInt8}
    (h : s ∈ bytes.splitOnP isLineEnd) : s.length ≤ bytes.length := by
  induction bytes generalizing s with
  | nil =>
      rw [List.splitOnP_nil, List.mem_singleton] at h
      subst h
      exact Nat.le_refl _
  | cons b bytes ih =>
      obtain ⟨first, others, hsplit⟩ := List.exists_cons_of_ne_nil
        (List.splitOnP_ne_nil isLineEnd bytes)
      rw [hsplit] at ih
      rw [List.splitOnP_cons_eq_if_modifyHead, hsplit] at h
      rw [List.length_cons]
      split at h
      · rcases List.mem_cons.1 h with rfl | hs
        · exact Nat.zero_le _
        · exact Nat.le_succ_of_le (ih hs)
      · rw [List.modifyHead_cons] at h
        rcases List.mem_cons.1 h with rfl | hs
        · exact Nat.succ_le_succ (ih List.mem_cons_self)
        · exact Nat.le_succ_of_le (ih (List.mem_cons_of_mem _ hs))

theorem length_le_of_mem_completeLines {bytes : List UInt8} {l : Line}
    (h : l ∈ completeLines bytes) : l.length ≤ bytes.length := by
  obtain ⟨s, hs, rfl⟩ := List.mem_map.1 h
  exact length_le_of_mem_splitOnP
    ((List.dropLast_sublist _).subset (List.mem_filter.1 hs).1)

/-- A piece with an end of line in it, cut at the first one. -/
theorem exists_end {piece : List UInt8} (h : ∃ b ∈ piece, isLineEnd b = true) :
    ∃ e rest, isLineEnd e = true ∧
      piece = piece.takeWhile (!isLineEnd ·) ++ [e] ++ rest := by
  let b : LineBuffer piece.length := ⟨piece, Nat.le_refl _⟩
  have hsplit : b.head ++ b.tail = piece := b.head_append_tail
  cases htail : b.tail with
  | nil =>
      obtain ⟨c, hc, hend⟩ := h
      rw [htail, List.append_nil] at hsplit
      rw [← hsplit] at hc
      cases hend.symm.trans (b.unbroken_head c hc)
  | cons e rest =>
      refine ⟨e, rest, b.isLineEnd_head?_tail e (by rw [htail]; rfl), ?_⟩
      rw [htail] at hsplit
      rw [List.append_assoc]
      exact hsplit.symm

/-! ## One read -/

theorem kept_eq_iff (l : Line) : l.kept = l ↔ l.length ≤ Line.maxKept := by
  constructor
  · intro h
    have hlen : l.kept.length ≤ Line.maxKept := List.length_take_le _ _
    rw [h] at hlen
    exact hlen
  · intro h
    rw [Line.kept, List.take_of_length_le h]

theorem unbroken_leftOver (bytes : List UInt8) : Unbroken (leftOver bytes) := by
  unfold leftOver
  split
  · exact fun _ h => absurd h List.not_mem_nil
  · exact unbroken_openLine bytes

theorem length_leftOver_le (bytes : List UInt8) :
    (leftOver bytes).length ≤ LineBuffer.maxLine 512 := by
  unfold leftOver
  split
  · exact Nat.zero_le _
  · next h => exact Nat.le_of_not_lt h

theorem leftOver_of_short {bytes : List UInt8} (h : Unbroken bytes)
    (hlen : bytes.length ≤ LineBuffer.maxLine 512) :
    leftOver bytes = bytes := by
  rw [leftOver, openLine_of_unbroken h, if_neg (Nat.not_lt.2 hlen)]

theorem waiting_append_singleton (pending : List UInt8)
    (pieces : List (List UInt8)) (piece : List UInt8) :
    waiting pending (pieces ++ [piece]) =
      leftOver (waiting pending pieces ++ piece) :=
  List.foldl_append

namespace Framing

theorem line_mem_ofBytes {bytes : List UInt8} {l : Line} :
    .line l ∈ ofBytes bytes ↔ l ∈ completeLines bytes := by
  unfold ofBytes
  split <;> simp

theorem ofBytes_of_short {bytes : List UInt8} (h : Unbroken bytes)
    (hlen : bytes.length ≤ LineBuffer.maxLine 512) : ofBytes bytes = [] := by
  rw [ofBytes, completeLines_of_unbroken h, openLine_of_unbroken h,
    if_neg (Nat.not_lt.2 hlen)]
  rfl

/-- The line that was waiting for its end, and the others, which
are in the piece. -/
theorem completeLines_piece {pending piece : List UInt8} (hp : Unbroken pending)
    (hend : ∃ b ∈ piece, isLineEnd b = true) :
    ∃ others, completeLines (pending ++ piece) =
        (if pending ++ piece.takeWhile (!isLineEnd ·) = [] then []
          else [⟨pending ++ piece.takeWhile (!isLineEnd ·)⟩]) ++ others ∧
      (∀ l ∈ others, l.length < piece.length) ∧
      (piece.takeWhile (!isLineEnd ·)).length < piece.length := by
  obtain ⟨e, rest, he, hsplit⟩ := exists_end hend
  have htext : Unbroken (piece.takeWhile (!isLineEnd ·)) := fun b hb => by
    simpa using List.all_eq_true.1 List.all_takeWhile b hb
  generalize piece.takeWhile (!isLineEnd ·) = text at htext hsplit
  have hlen : piece.length = text.length + 1 + rest.length := by
    rw [hsplit, List.length_append, List.length_append, List.length_singleton]
  refine ⟨completeLines rest, ?_, fun l hl => ?_, ?_⟩
  · rw [hsplit, ← List.append_assoc, ← List.append_assoc]
    exact completeLines_text (hp.append htext)
      (List.cons_ne_nil e []) fun b hb => by
      rw [List.mem_singleton.1 hb]
      exact he
  · have hle := length_le_of_mem_completeLines hl
    omega
  · omega

/-- Only the line that was waiting for its end can be too long. -/
theorem lines_of_piece {pending piece : List UInt8} (hp : Unbroken pending)
    (hpending : pending.length ≤ LineBuffer.maxLine 512)
    (hpiece : piece.length ≤ Receiver.maxRead) :
    ((∀ l, .line l ∈ ofBytes (pending ++ piece) → l.kept = l) ↔
      EndsInTime pending piece) ∧ ∀ l, .line l ∈ ofBytes (pending ++ piece) →
        l.length < LineBuffer.maxLine 512 + Receiver.maxRead := by
  have hread : Receiver.maxRead = 64 := rfl
  have hkeep : Line.maxKept = 256 := rfl
  by_cases hend : ∃ b ∈ piece, isLineEnd b = true
  · obtain ⟨others, hlines, hothers, htext⟩ := completeLines_piece hp hend
    rw [EndsInTime]
    generalize piece.takeWhile (!isLineEnd ·) = text at hlines htext
    have hmem {l : Line} (hl : l ∈ completeLines (pending ++ piece)) :
        l = ⟨pending ++ text⟩ ∨ l.length < Receiver.maxRead := by
      rw [hlines] at hl
      rcases List.mem_append.1 hl with hfirst | hother
      · split at hfirst
        · exact absurd hfirst List.not_mem_nil
        · exact Or.inl (List.mem_singleton.1 hfirst)
      · exact Or.inr (Nat.lt_of_lt_of_le (hothers l hother) hpiece)
    simp only [line_mem_ofBytes, kept_eq_iff]
    refine ⟨⟨fun h _ => ?_, fun h l hl => ?_⟩, fun l hl => ?_⟩
    · by_cases hnil : pending ++ text = []
      · rw [hnil]
        exact Nat.zero_le _
      · exact h ⟨pending ++ text⟩ (by simp [hlines, hnil])
    · rcases hmem hl with rfl | hshort
      · exact h hend
      · omega
    · rcases hmem hl with rfl | hshort
      · rw [Line.length, List.length_append]
        omega
      · omega
  · have hun : Unbroken (pending ++ piece) :=
      hp.append fun b hb => Bool.eq_false_iff.2 fun he => hend ⟨b, hb, he⟩
    have hnone {l : Line} : .line l ∉ ofBytes (pending ++ piece) := by
      rw [line_mem_ofBytes, completeLines_of_unbroken hun]
      exact List.not_mem_nil
    exact ⟨⟨fun _ h => absurd h hend, fun _ _ h => absurd h hnone⟩,
      fun _ h => absurd h hnone⟩

theorem lt_of_overflow_mem_ofBytes {bytes : List UInt8} {n : Nat}
    (h : .overflow n ∈ ofBytes bytes) : LineBuffer.maxLine 512 < n := by
  unfold ofBytes at h
  split at h
  · next hlong =>
      have hn : n = (openLine bytes).length := by simpa using h
      rw [hn]
      exact hlong
  · simp at h

/-! ## Many reads -/

theorem ofReads_append (pending : List UInt8) (xs ys : List (List UInt8)) :
    ofReads pending (xs ++ ys) = ofReads pending xs ++
      ofReads (waiting pending xs) ys := by
  induction xs generalizing pending with
  | nil => rfl
  | cons x xs ih =>
      rw [List.cons_append, ofReads, ofReads, ih, List.append_assoc]
      rfl

/-- No line is too long for what is kept of it if each one ends in
time, and only then. -/
theorem kept_iff_endsInTime {pending : List UInt8} {pieces : List (List UInt8)}
    (hp : Unbroken pending) (hpending : pending.length ≤ LineBuffer.maxLine 512)
    (hpieces : ∀ c ∈ pieces, c.length ≤ Receiver.maxRead) :
    (∀ l, .line l ∈ ofReads pending pieces → l.kept = l) ↔
      ∀ past piece, past ++ [piece] <+: pieces →
      EndsInTime (waiting pending past) piece := by
  induction pieces generalizing pending with
  | nil =>
      constructor
      · intro _ past piece h
        simp at h
      · intro _ l h
        exact absurd h List.not_mem_nil
  | cons c pieces ih =>
      have hone := (lines_of_piece hp hpending (hpieces c List.mem_cons_self)).1
      have hmore := ih (unbroken_leftOver (pending ++ c)) (length_leftOver_le _)
        fun d hd => hpieces d (List.mem_cons_of_mem c hd)
      constructor
      · intro h past piece hprefix
        cases past with
        | nil =>
            obtain ⟨rfl, _⟩ := List.cons_prefix_cons.1 hprefix
            exact hone.1 fun l hl => h l (List.mem_append_left _ hl)
        | cons d past =>
            obtain ⟨rfl, hrest⟩ := List.cons_prefix_cons.1 hprefix
            exact hmore.1 (fun l hl => h l (List.mem_append_right _ hl))
              past piece hrest
      · intro h l hl
        rcases List.mem_append.1 hl with hnow | hlater
        · exact hone.2
            (h [] c (List.cons_prefix_cons.2 ⟨rfl, List.nil_prefix⟩)) l hnow
        · refine hmore.2 (fun past piece hprefix => ?_) l hlater
          exact h (c :: past) piece (List.cons_prefix_cons.2 ⟨rfl, hprefix⟩)

theorem length_lt_of_mem_ofReads {pending : List UInt8}
    {pieces : List (List UInt8)} (hp : Unbroken pending)
    (hpending : pending.length ≤ LineBuffer.maxLine 512)
    (hpieces : ∀ c ∈ pieces, c.length ≤ Receiver.maxRead) {l : Line}
    (hl : .line l ∈ ofReads pending pieces) :
    l.length < LineBuffer.maxLine 512 + Receiver.maxRead := by
  induction pieces generalizing pending with
  | nil => exact absurd hl List.not_mem_nil
  | cons c pieces ih =>
      rcases List.mem_append.1 hl with hnow | hlater
      · exact (lines_of_piece hp hpending
          (hpieces c List.mem_cons_self)).2 l hnow
      · exact ih (unbroken_leftOver _) (length_leftOver_le _)
          (fun d hd => hpieces d (List.mem_cons_of_mem c hd)) hlater

theorem lt_of_overflow_mem_ofReads {pending : List UInt8}
    {pieces : List (List UInt8)} {n : Nat}
    (h : .overflow n ∈ ofReads pending pieces) :
    LineBuffer.maxLine 512 < n := by
  induction pieces generalizing pending with
  | nil => exact absurd h List.not_mem_nil
  | cons c pieces ih =>
      rcases List.mem_append.1 h with hnow | hlater
      · exact lt_of_overflow_mem_ofBytes hnow
      · exact ih hlater

end Framing

/-! ## One piece of the receiver's work -/

@[simp] theorem framings_append (xs ys : List Output) :
    framings (xs ++ ys) = framings xs ++ framings ys :=
  List.filterMap_append

namespace LineBuffer

theorem trace_consumeLine_of_unbroken {b : LineBuffer 512}
    (h : Unbroken b.pending) : b.consumeLine.trace =
      if maxLine 512 < b.length
        then [.lineTooLong (maxLine 512) b.length] else [] := by
  have htail : b.tail = [] := by
    cases hcons : b.tail with
    | nil => rfl
    | cons e rest =>
        have he : isLineEnd e = true :=
          b.isLineEnd_head?_tail e (by rw [hcons]; rfl)
        have hmem : e ∈ b.pending := by
          rw [← b.head_append_tail, hcons]
          simp
        cases he.symm.trans (h e hmem)
  simp only [consumeLine, htail]
  by_cases hlen : maxLine 512 < b.length
  · rw [if_pos hlen, if_pos hlen]
    rfl
  · rw [if_neg hlen, if_neg hlen]
    rfl

theorem framings_consumeLine (b : LineBuffer 512) :
    framings b.consumeLine.shown.trace ++
      Framing.ofBytes b.consumeLine.value.2.pending =
        Framing.ofBytes b.pending ∧
    leftOver b.consumeLine.value.2.pending = leftOver b.pending := by
  rw [framings, tells_shown]
  rcases b.consumeLine_cases with ⟨hun, hlen, hv⟩ | ⟨hun, hlen, hv⟩ |
      ⟨text, ends, b', hp, hun, hne, hends, hv⟩
  · rw [hv, trace_consumeLine_of_unbroken hun,
      if_pos (show maxLine 512 < b.length from hlen), Framing.ofBytes,
      Framing.ofBytes, leftOver, leftOver, completeLines_of_unbroken hun,
      openLine_of_unbroken hun, if_pos hlen, if_pos hlen]
    exact ⟨rfl, rfl⟩
  · rw [hv, trace_consumeLine_of_unbroken hun,
      if_neg (show ¬ maxLine 512 < b.length from Nat.not_lt.2 hlen)]
    exact ⟨rfl, rfl⟩
  · have hterm : Terminated (text ++ ends) := terminated_append hne hends
    have hopen : openLine b.pending = openLine b'.pending := by
      rw [hp, openLine_append hterm]
    have hframed : b.consumeLine.trace = [.framed text] := by
      rcases Modem.trace_consumeLine b with ⟨hnone, _⟩ | ⟨l, hsome, htrace⟩
      · rw [hv] at hnone
        cases hnone
      · rw [hv] at hsome
        cases hsome
        exact htrace
    rw [hv, hframed, Framing.ofBytes, Framing.ofBytes, leftOver,
      leftOver, hopen, hp, completeLines_text hun hne hends]
    refine ⟨?_, rfl⟩
    cases text <;> rfl

end LineBuffer

namespace Modem

variable {m : Modem} {pieces : List (List UInt8)} {fs : List Framing}

/-- How what was reported of the bytes belongs together with what was read and
what the receiver has. -/
structure Told (pieces : List (List UInt8)) (fs : List Framing) (r : Receiver) :
    Prop where
  reported : fs ++ Framing.ofBytes r.unframed = Framing.ofReads [] pieces
  waits : leftOver r.unframed = waiting [] pieces
  short : ∀ c ∈ pieces, c ≠ [] ∧ c.length ≤ Receiver.maxRead
  held : r.phase.held.length ≤ Receiver.maxRead
  /-- The buffer takes a piece at once. -/
  taken : r.phase.isDrained = false → r.phase.held = []
  tidy : r.Tidy

theorem told_idle : Told [] [] Receiver.idle where
  reported := rfl
  waits := rfl
  short _ h := absurd h List.not_mem_nil
  held := Nat.zero_le _
  taken h := by cases h
  tidy _ := ⟨fun _ h => absurd h List.not_mem_nil, Nat.zero_le _⟩

theorem Told.of_unframed {r r' : Receiver} {new : List Framing}
    (h : Told pieces fs r) (htidy : r'.Tidy)
    (hbytes : new ++ Framing.ofBytes r'.unframed = Framing.ofBytes r.unframed ∧
      leftOver r'.unframed = leftOver r.unframed)
    (hheld : r'.phase.held = [] ∨ r'.phase = r.phase) :
    Told pieces (fs ++ new) r' where
  reported := by rw [List.append_assoc, hbytes.1, h.reported]
  waits := hbytes.2.trans h.waits
  short := h.short
  held := by
    rcases hheld with hnil | hsame
    · rw [hnil]
      exact Nat.zero_le _
    · rw [hsame]
      exact h.held
  taken hbusy := by
    rcases hheld with hnil | hsame
    · exact hnil
    · rw [hsame] at hbusy ⊢
      exact h.taken hbusy
  tidy := htidy

/-- What waits in a tidy buffer is nothing to tell of. -/
theorem Told.of_reading {r : Receiver} (h : Told pieces fs r)
    (hphase : r.phase = .reading) :
    fs = Framing.ofReads [] pieces ∧ r.buffer.pending = waiting [] pieces := by
  obtain ⟨hun, hshort⟩ := h.tidy (by rw [hphase]; rfl)
  have hunframed : r.unframed = r.buffer.pending := by
    rw [Receiver.unframed, hphase]
    exact List.append_nil _
  have hreported := h.reported
  have hwaits := h.waits
  rw [hunframed, Framing.ofBytes_of_short hun hshort,
    List.append_nil] at hreported
  rw [hunframed, leftOver_of_short hun hshort] at hwaits
  exact ⟨hreported, hwaits⟩

theorem Told.read {r : Receiver} {chunk : List UInt8} (h : Told pieces fs r)
    (hphase : r.phase = .reading) (hne : chunk ≠ [])
    (hlen : chunk.length ≤ Receiver.maxRead) :
    Told (pieces ++ [chunk]) fs ⟨r.buffer, .filling chunk⟩ := by
  obtain ⟨hreported, hwaits⟩ := h.of_reading hphase
  refine ⟨?_, ?_, ?_, hlen, fun hbusy => (by cases hbusy),
    fun _ => h.tidy (by rw [hphase]; rfl)⟩
  · rw [Framing.ofReads_append, ← hwaits, ← hreported]
    exact congrArg _ (List.append_nil _).symm
  · rw [waiting_append_singleton, ← hwaits]
    rfl
  · intro c hc
    rcases List.mem_append.1 hc with hold | hnew
    · exact h.short c hold
    · rw [List.mem_singleton.1 hnew]
      exact ⟨hne, hlen⟩

theorem filterMap_route {α : Type} {f : Notice → Option α}
    (hcut : f .numberCut = none) (hpublished : ∀ urc, f (.published urc) = none)
    (hunknown : ∀ bytes, f (.unknownLine bytes) = none) (m : Modem)
    (buffer : LineBuffer 512) (line : Line) (chunk : List UInt8) :
    (m.route buffer line chunk).trace.filterMap (Output.tells f) = [] := by
  unfold route
  split
  · rfl
  · split
    · split <;> rfl
    · rw [Traced.trace_bind, List.filterMap_append, tells_shown,
        filterMap_readLine hcut, List.nil_append]
      cases (Urc.readLine line).shown.value with
      | none => exact congrArg Option.toList (hunknown line.bytes)
      | some urc => exact congrArg Option.toList (hpublished urc)

theorem receiver_route (m : Modem) (buffer : LineBuffer 512) (line : Line)
    (chunk : List UInt8) :
    ∃ phase, (m.route buffer line chunk).value.receiver = ⟨buffer, phase⟩ ∧
      phase.held = chunk ∧ phase.isDrained = false := by
  rcases m.route_cases buffer line chunk with ⟨_, hr⟩ | ⟨_, _, hr⟩ |
      ⟨_, _, hr⟩ | ⟨_, _, hr, _⟩
  · exact ⟨.draining chunk, by rw [hr]; rfl, rfl, rfl⟩
  · exact ⟨.draining chunk, by rw [hr]; rfl, rfl, rfl⟩
  · exact ⟨.handing _ _ chunk, by rw [hr]; rfl, rfl, rfl⟩
  · exact ⟨.draining chunk, by rw [hr]; rfl, rfl, rfl⟩

variable {x : Traced Output Modem}

theorem Told.reading (h : Told pieces fs m.receiver)
    (hphase : m.receiver.phase = .reading) (hx : m.receiveStep = some x) :
    Told (pieces ++ reads x.trace)
      (fs ++ framings x.trace) x.value.receiver := by
  simp only [receiveStep, hphase] at hx
  split at hx
  · cases hx
  · cases hx
    rw [show reads _ = [] from rfl, show framings _ = [] from rfl,
      List.append_nil, List.append_nil]
    exact h
  · cases hx
    rw [show reads _ = [] from rfl, show framings _ = [] from rfl,
      List.append_nil, List.append_nil]
    exact h
  · next data rest hdata _ =>
      cases hx
      rw [show framings _ = [] from rfl, List.append_nil]
      refine h.read hphase (fun hnil => ?_) (List.length_take_le _ _)
      rcases List.take_eq_nil_iff.1 hnil with hzero | hnone
      · cases hzero
      · exact hdata hnone

/-- The buffer has space for all of a piece. -/
theorem Told.filling {chunk : List UInt8} (h : Told pieces fs m.receiver)
    (hphase : m.receiver.phase = .filling chunk) (hx : m.receiveStep = some x) :
    Told (pieces ++ reads x.trace)
      (fs ++ framings x.trace) x.value.receiver := by
  have htidy := (stepped_receiveStep hx).tidy h.tidy
  obtain ⟨_, hshort⟩ := h.tidy (by rw [hphase]; rfl)
  have hlen : chunk.length ≤ Receiver.maxRead := by
    have hheld := h.held
    rw [hphase] at hheld
    exact hheld
  have hroom : m.receiver.buffer.room ≠ 0 ∧
      chunk.length ≤ m.receiver.buffer.room := by
    have hhalf : LineBuffer.maxLine 512 = 256 := rfl
    have hread : Receiver.maxRead = 64 := rfl
    rw [LineBuffer.room, LineBuffer.length]
    omega
  have hunframed : m.receiver.unframed =
      m.receiver.buffer.pending ++ chunk := by
    rw [Receiver.unframed, hphase]
    rfl
  simp only [receiveStep, hphase, Option.some.injEq] at hx
  subst hx
  have htold {α : Type} {f : Notice → Option α}
      (hf : f (.bufferFull 512) = none) :
      (m.receiver.buffer.fill Channel.ofBytes chunk).shown.trace.filterMap
        (Output.tells f) = [] := by
    rw [tells_shown, filterMap_fill hf]
  have hvalue :
      (m.receiver.buffer.fill Channel.ofBytes chunk).shown.value = _ :=
    m.receiver.buffer.value_fill_ofBytes chunk
  rw [Traced.value_bind, hvalue] at htidy ⊢
  rw [Traced.trace_bind, hvalue, reads_append, framings_append, reads, framings,
    htold (f := Notice.piece?) rfl, htold (f := Notice.framing?) rfl,
    List.nil_append, List.nil_append]
  by_cases hnil : chunk = []
  · rw [if_pos (Or.inr hnil)] at htidy ⊢
    rw [show reads _ = [] from rfl, List.append_nil]
    refine h.of_unframed htidy ?_ (Or.inl rfl)
    rw [hunframed, hnil]
    exact ⟨rfl, rfl⟩
  · rw [if_neg (not_or.2 ⟨hroom.1, hnil⟩)] at htidy ⊢
    rw [List.drop_eq_nil_of_le hroom.2] at htidy ⊢
    rw [show reads _ = [] from rfl, List.append_nil]
    refine h.of_unframed htidy ?_ (Or.inl rfl)
    have hall : (m.receiver.buffer.append chunk).pending ++ [] =
        m.receiver.unframed := by
      rw [List.append_nil, LineBuffer.pending_append_of_le hroom.2, hunframed]
    exact ⟨congrArg Framing.ofBytes hall, congrArg leftOver hall⟩

theorem Told.draining {chunk : List UInt8} (h : Told pieces fs m.receiver)
    (hphase : m.receiver.phase = .draining chunk)
    (hx : m.receiveStep = some x) :
    Told (pieces ++ reads x.trace)
      (fs ++ framings x.trace) x.value.receiver := by
  have htidy := (stepped_receiveStep hx).tidy h.tidy
  have hnil : chunk = [] := by
    have htaken := h.taken (by rw [hphase]; rfl)
    rw [hphase] at htaken
    exact htaken
  have hunframed : m.receiver.unframed = m.receiver.buffer.pending := by
    rw [Receiver.unframed, hphase, hnil]
    exact List.append_nil _
  have hconsume := m.receiver.buffer.framings_consumeLine
  rw [← hunframed] at hconsume
  simp only [receiveStep, hphase, Option.some.injEq] at hx
  subst hx
  rw [Traced.value_bind] at htidy ⊢
  rw [Traced.trace_bind, reads_append, framings_append, reads_consumeLine,
    List.nil_append]
  cases hc : m.receiver.buffer.consumeLine.shown.value with
  | mk line? buffer =>
      have hline : m.receiver.buffer.consumeLine.value = (line?, buffer) := hc
      rw [hc] at htidy
      rw [hline] at hconsume
      cases line? with
      | none =>
          rw [show reads _ = [] from rfl,
            show framings (Traced.trace (pure _)) = [] from rfl,
                List.append_nil, List.append_nil]
          refine h.of_unframed htidy ?_ (Or.inl hnil)
          rw [Receiver.unframed, hnil]
          show _ ++ Framing.ofBytes (buffer.pending ++ []) = _ ∧
              leftOver (buffer.pending ++ []) = _
          rw [List.append_nil]
          exact hconsume
      | some line =>
          have hrouted {α : Type} {f : Notice → Option α}
              (hcut : f .numberCut = none)
              (hpublished : ∀ urc, f (.published urc) = none)
              (hunknown : ∀ bytes, f (.unknownLine bytes) = none) :=
            filterMap_route hcut hpublished hunknown m buffer line.kept chunk
          obtain ⟨phase, hreceiver, hheld, _⟩ :=
            m.receiver_route buffer line.kept chunk
          dsimp only at htidy ⊢
          rw [reads, hrouted rfl (fun _ => rfl) (fun _ => rfl), List.append_nil]
          rw [show framings (m.route buffer line.kept chunk).trace = [] from
            hrouted rfl (fun _ => rfl) (fun _ => rfl), List.append_nil]
          rw [hreceiver] at htidy ⊢
          refine h.of_unframed htidy ?_ (Or.inl (hheld.trans hnil))
          rw [Receiver.unframed, hheld, hnil, List.append_nil]
          exact hconsume

theorem Told.handing {line : Line} {deadline : Nat} {chunk : List UInt8}
    (h : Told pieces fs m.receiver)
    (hphase : m.receiver.phase = .handing line deadline chunk)
    (hx : m.receiveStep = some x) :
    Told (pieces ++ reads x.trace)
      (fs ++ framings x.trace) x.value.receiver := by
  have hnil : chunk = [] := by
    have htaken := h.taken (by rw [hphase]; rfl)
    rw [hphase] at htaken
    exact htaken
  have hrest : Told pieces (fs ++ []) ⟨m.receiver.buffer, .draining chunk⟩ := by
    refine h.of_unframed (fun hdrained => by cases hdrained) ?_ (Or.inl hnil)
    rw [Receiver.unframed, Receiver.unframed, hphase]
    exact ⟨rfl, rfl⟩
  simp only [receiveStep, hphase] at hx
  split at hx
  · cases hx
    rw [show reads _ = [] from rfl, List.append_nil]
    exact hrest
  · split at hx
    · cases hx
      rw [show reads _ = [] from rfl, List.append_nil]
      exact hrest
    · cases hx

theorem Told.step (h : Told pieces fs m.receiver)
    (hx : m.receiveStep = some x) :
    Told (pieces ++ reads x.trace)
      (fs ++ framings x.trace) x.value.receiver := by
  cases hphase : m.receiver.phase with
  | reading => exact h.reading hphase hx
  | filling chunk => exact h.filling hphase hx
  | draining chunk => exact h.draining hphase hx
  | handing line deadline chunk => exact h.handing hphase hx

/-! ## Histories -/

theorem told_happen {outs : List Output} {m : Modem} {x : Happening}
    (hx : x.source = .receiver)
    (h : Told (reads outs) (framings outs) m.receiver) :
    Told (reads (outs ++ (m.happen x).trace))
      (framings (outs ++ (m.happen x).trace)) (m.happen x).value.receiver := by
  rw [Happening.eq_of_receiver hx, happen_receiver]
  refine @Traced.exhaust_induction _ _ receiveStep load load_receiveStep_lt
    (fun outs m => Told (reads outs) (framings outs) m.receiver) ?_ outs m h
  intro outs m x h hx
  rw [reads_append, framings_append]
  exact h.step hx

theorem told_follow (hs : List Happening) :
    Told (reads (idle.outputsOf .receiver hs))
      (framings (idle.outputsOf .receiver hs))
      (idle.follow hs).value.receiver := by
  refine @outputsOf_induction .receiver
    (fun outs m => Told (reads outs) (framings outs) m.receiver)
    (fun outs m x hx h => told_happen hx h)
    (fun outs m x hx h => ?_) hs [] idle told_idle
  have hother : x ≠ .turn .receiver := fun hturn => hx (by rw [hturn]; rfl)
  rw [(wire_happen hother).1]
  exact h

/-- What becomes of lines, whatever happens: the receiver frames lines and drops
beginnings as the reads alone say, and each line that it frames goes on its way
as its first 256 bytes. No line is cut in this way if each one ends before it is
too long, and only then; otherwise at most 63 bytes are missing, and no overflow
is reported for it, for an overflow is a beginning without an end. -/
theorem overlong_line_fate (hs : List Happening) :
    let outs := idle.outputsOf .receiver hs
    let m := (idle.follow hs).value
    let turn := m.happen (.turn .receiver)
    (∀ c ∈ reads outs, c ≠ [] ∧ c.length ≤ Receiver.maxRead) ∧
    (framings outs ++ Framing.ofBytes m.receiver.unframed =
        Framing.ofReads [] (reads outs) ∧
      (m.receiver.phase = .reading →
        framings outs = Framing.ofReads [] (reads outs) ∧
        m.receiver.buffer.pending = waiting [] (reads outs))) ∧
    ((∀ l, .line l ∈ Framing.ofReads [] (reads outs) → l.kept = l) ↔
      ∀ past piece, past ++ [piece] <+: reads outs →
        EndsInTime (waiting [] past) piece) ∧
    ((∀ l, .line l ∈ framings outs →
        l.length < Line.maxKept + Receiver.maxRead) ∧
      ∀ n, .overflow n ∈ framings outs → Line.maxKept < n) ∧
    (CellModem.published turn.trace =
        (if m.link.awaiting then []
          else (sentOn (framed turn.trace)).filterMap Urc.ofLine?) ∧
      (.notice .replyNotTaken ∉ turn.trace →
        turn.value.outstanding = m.outstanding ++
          if m.link.awaiting then sentOn (framed turn.trace) else [])) := by
  intro outs m turn
  have h : Told (reads outs) (framings outs) m.receiver := told_follow hs
  have hnone : Unbroken [] := fun _ hb => absurd hb List.not_mem_nil
  have hshort : ∀ c ∈ reads outs, c.length ≤ Receiver.maxRead :=
    fun c hc => (h.short c hc).2
  refine ⟨h.short, ⟨h.reported, h.of_reading⟩,
    Framing.kept_iff_endsInTime hnone (Nat.zero_le _) hshort,
    ⟨fun l hl => ?_, fun n hn => ?_⟩, ?_⟩
  · refine Framing.length_lt_of_mem_ofReads hnone (Nat.zero_le _) hshort ?_
    rw [← h.reported]
    exact List.mem_append_left _ hl
  · refine @Framing.lt_of_overflow_mem_ofReads [] (reads outs) n ?_
    rw [← h.reported]
    exact List.mem_append_left _ hn
  · have hturn : turn = m.receive := m.happen_receiver
    have hreceived := received_receive m
    rw [hturn]
    exact ⟨hreceived.published, hreceived.outstanding⟩

/-- A line of 257 bytes, the last of which comes in one read with its end, while
a command is running: the line is framed, no overflow is reported, and the
command is given its first 256 bytes. -/
theorem overlong_line_cut :
    let line := Text.bytes "+CPIN: READY" ++ List.replicate 244 32 ++ [88]
    let hs : List Happening := [.action (.begin .hangUp), .turn (.task 0),
      .action (.arrive (line ++ [10])), .turn .receiver]
    line.length = 257 ∧
      framings (idle.outputsOf .receiver hs) = [.line ⟨line⟩] ∧
      (⟨line⟩ : Line).kept ≠ ⟨line⟩ ∧
      (idle.follow hs).value.outstanding = [(⟨line⟩ : Line).kept] := by
  decide +kernel

end Modem

end CellModem
