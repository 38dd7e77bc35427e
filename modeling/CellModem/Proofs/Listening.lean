import CellModem.Proofs.Awaiting
import CellModem.Proofs.Pieces

/-!
# What is heard while nobody waits for a reply

As long as no command is outstanding, all that counts is the bytes. Take those
that arrive, in one piece or in many, with failed reads and closed lines in
between: the messages that are made known are those among their lines, each line
as soon as its end has been read, and what stands behind the last end of line
waits in the buffer (`idle_reception`). Only the length of a line has a bound,
that of what is kept of it.

The invariant splits all the bytes into those of lines that are settled, those
that were read and not framed, those on the wire and those that are still to
arrive. Nobody but the receiver moves the borders, and nobody else makes a
message known as long as no run begins.
-/

namespace CellModem

/-! ## The lines in a stretch of bytes -/

/-- The lines that have come to their end, without the empty ones. -/
def completeLines (bytes : List UInt8) : List Line :=
  ((bytes.splitOnP isLineEnd).dropLast.filter (!·.isEmpty)).map Line.mk

/-- What stands behind the last end of line. -/
def openLine (bytes : List UInt8) : List UInt8 :=
  (bytes.splitOnP isLineEnd).getLastD []

theorem splitOnP_settled {settled text : List UInt8} (hs : Terminated settled)
    (ht : Unbroken text) :
    ∃ pieces, (settled ++ text).splitOnP isLineEnd = pieces ++ [text] ∧
      pieces.filter (!·.isEmpty) = stretches settled := by
  rcases List.eq_nil_or_concat settled with rfl | ⟨zs, e, rfl⟩
  · exact ⟨[], List.splitOnP_eq_singleton ht, rfl⟩
  · have he : isLineEnd e = true := hs e (by simp)
    refine ⟨zs.splitOnP isLineEnd, ?_, ?_⟩
    · rw [List.concat_eq_append, List.append_assoc, List.singleton_append,
        List.splitOnP_append_cons zs text he, List.splitOnP_eq_singleton ht]
    · rw [List.concat_eq_append, stretches_append_cons he, stretches_nil,
        List.append_nil]
      rfl

theorem completeLines_settled {settled text : List UInt8}
    (hs : Terminated settled) (ht : Unbroken text) :
    completeLines (settled ++ text) = (stretches settled).map Line.mk := by
  obtain ⟨pieces, hsplit, hpieces⟩ := splitOnP_settled hs ht
  rw [completeLines, hsplit, List.dropLast_concat, hpieces]

theorem openLine_settled {settled text : List UInt8} (hs : Terminated settled)
    (ht : Unbroken text) : openLine (settled ++ text) = text := by
  obtain ⟨pieces, hsplit, _⟩ := splitOnP_settled hs ht
  rw [openLine, hsplit, List.getLastD_concat]

/-- A text behind settled lines is part of one stretch. -/
theorem length_le_of_short {limit : Nat} {settled text rest : List UInt8}
    (hs : Terminated settled) (ht : Unbroken text)
    (hshort : ∀ s ∈ stretches (settled ++ text ++ rest), s.length ≤ limit) :
    text.length ≤ limit := by
  obtain ⟨n, b, rfl⟩ : ∃ (n : Nat) (b : LineBuffer n), b.pending = rest :=
    ⟨_, ⟨rest, Nat.le_refl _⟩, rfl⟩
  have hsplit : stretches (settled ++ text ++ b.pending) = stretches settled ++
      ((if text ++ b.head = [] then [] else [text ++ b.head]) ++
        stretches b.tail) := by
    rw [List.append_assoc, stretches_append hs, ← b.head_append_tail,
      ← List.append_assoc,
      stretches_text (ht.append b.unbroken_head) b.isLineEnd_head?_tail]
  by_cases hnil : text ++ b.head = []
  · rw [(List.append_eq_nil_iff.1 hnil).1]
    exact Nat.zero_le _
  · have hmem : text ++ b.head ∈ stretches (settled ++ text ++ b.pending) := by
      rw [hsplit, if_neg hnil]
      simp
    have hlen := hshort _ hmem
    rw [List.length_append] at hlen
    omega

namespace Modem

/-! ## Everything that was heard -/

variable {m m' : Modem} {total future settled : List UInt8} {outs : List Output}

/-- Where all the bytes are: in lines that are settled, read but not
framed, on the wire, or still to come. What is known are the messages among
the settled lines. -/
structure Heard (total future settled : List UInt8) (m : Modem)
    (outs : List Output) : Prop where
  total : total = settled ++ m.receiver.unframed ++ wireBytes m.wire ++ future
  terminated : Terminated settled
  published : CellModem.published outs =
    ((stretches settled).map Line.mk).filterMap Urc.ofLine?
  tidy : m.receiver.Tidy

theorem Heard.of_same {new : List Output} {future' : List UInt8}
    (h : Heard total future settled m outs) (ht : m'.receiver.Tidy)
    (hbytes : m'.receiver.unframed ++ wireBytes m'.wire ++ future' =
      m.receiver.unframed ++ wireBytes m.wire ++ future)
    (hpublished : CellModem.published new = []) :
    Heard total future' settled m' (outs ++ new) where
  total := by
    rw [h.total]
    simp only [List.append_assoc] at hbytes ⊢
    rw [hbytes]
  terminated := h.terminated
  published := by
    rw [published_append, h.published, hpublished, List.append_nil]
  tidy := ht

theorem Heard.length_le {text rest : List UInt8}
    (h : Heard total future settled m outs)
    (hshort : ∀ s ∈ stretches total, s.length ≤ Line.maxKept)
    (hpending : m.receiver.buffer.pending = text ++ rest) (ht : Unbroken text) :
    text.length ≤ Line.maxKept := by
  refine @length_le_of_short _ _ _ (rest ++ m.receiver.phase.held ++
    wireBytes m.wire ++ future) h.terminated ht ?_
  have htotal := h.total
  rw [Receiver.unframed, hpending] at htotal
  simp only [List.append_assoc] at htotal ⊢
  rw [← htotal]
  exact hshort

theorem sentOn_short {text : List UInt8} (h : text.length ≤ Line.maxKept) :
    sentOn [⟨text⟩] = (if text = [] then [] else [text]).map Line.mk := by
  have hkept : (⟨text⟩ : Line).kept = ⟨text⟩ := by
    rw [Line.kept, List.take_of_length_le h]
  rw [sentOn_singleton, hkept]
  cases text <;> rfl

/-- A line that is framed is settled, with the ends of line behind it. -/
theorem Heard.frame {new : List Output} {line : Line} {buffer : LineBuffer 512}
    (h : Heard total future settled m outs) (ht : m'.receiver.Tidy)
    (hshort : ∀ s ∈ stretches total, s.length ≤ Line.maxKept)
    (hline : m.receiver.buffer.consumeLine.value = (some line, buffer))
    (hbuffer : m'.receiver.buffer = buffer)
    (hheld : m'.receiver.phase.held = m.receiver.phase.held)
    (hwire : m'.wire = m.wire)
    (hpublished : CellModem.published new =
      (sentOn [line]).filterMap Urc.ofLine?) :
    ∃ settled', Heard total future settled' m' (outs ++ new) := by
  rcases m.receiver.buffer.consumeLine_cases with ⟨_, _, hv⟩ | ⟨_, _, hv⟩ |
      ⟨text, ends, rest, hp, hun, hne, hends, hv⟩
  · rw [hline] at hv
    cases hv
  · rw [hline] at hv
    cases hv
  · rw [hline] at hv
    cases hv
    rw [List.append_assoc] at hp
    have hlen := h.length_le hshort hp hun
    have hhead : ∀ b ∈ ends.head?, isLineEnd b = true := fun b hb =>
      hends b (List.mem_of_head? hb)
    refine ⟨settled ++ (text ++ ends), ?_, ?_, ?_, ht⟩
    · rw [h.total, Receiver.unframed, Receiver.unframed, hbuffer,
        hheld, hwire, hp]
      simp only [List.append_assoc]
    · rw [← List.append_assoc]
      exact terminated_append hne hends
    · rw [published_append, h.published, hpublished, sentOn_short hlen,
        stretches_append h.terminated, stretches_text hun hhead,
        stretches_ends hends, List.append_nil, List.map_append,
        List.filterMap_append]

/-- The receiver settles a line when it frames it, and otherwise only
moves bytes on. -/
theorem Heard.step {new : List Output} (h : Heard total future settled m outs)
    (hno : m.link.awaiting = false)
    (hshort : ∀ s ∈ stretches total, s.length ≤ Line.maxKept)
    (hstep : Stepped m new m') :
    ∃ settled', Heard total future settled' m' (outs ++ new) := by
  have ht := hstep.tidy h.tidy
  have hnothing := hstep.held_eq_nil h.tidy
  have hmoved (hbytes : m'.receiver.unframed ++ wireBytes m'.wire =
      m.receiver.unframed ++ wireBytes m.wire)
        (hpublished : CellModem.published new = []) :
      ∃ settled', Heard total future settled' m' (outs ++ new) :=
    ⟨settled, h.of_same ht (by rw [hbytes]) hpublished⟩
  cases hstep with
  | @fail d rest _ hphase hwire hd hpublished _ =>
      have hrest : wireBytes (d :: rest) = wireBytes rest := by
        rw [wireBytes, List.flatMap_cons, hd]
        rfl
      refine hmoved ?_ hpublished
      rw [hwire, hrest]
  | @read data rest _ hphase hwire _ hpublished _ =>
      refine hmoved ?_ hpublished
      show m.receiver.buffer.pending ++ data.take _ ++
          wireBytes (remaining data rest) = _
      rw [Receiver.unframed, hphase, hwire, List.append_assoc,
        wireBytes_remaining]
      simp [Receiver.Phase.held, wireBytes, Delivery.content]
  | stop hphase _ hpublished _ =>
      refine hmoved ?_ hpublished
      rw [Receiver.unframed, Receiver.unframed, (hnothing rfl).1]
      rfl
  | @fill chunk _ hphase hpublished _ =>
      refine hmoved ?_ hpublished
      show m.receiver.buffer.pending ++ chunk.take _ ++ chunk.drop _ ++
          wireBytes m.wire = _
      rw [Receiver.unframed, hphase,
        List.append_assoc m.receiver.buffer.pending, List.take_append_drop]
      rfl
  | @drained chunk buffer _ hphase hline hpublished _ =>
      rcases m.receiver.buffer.consumeLine_cases with
          ⟨hun, hlong, _⟩ | ⟨_, _, hv⟩ | ⟨_, _, _, _, _, _, _, hv⟩
      · -- An overlong beginning would be part of an overlong stretch.
        have hlen := h.length_le hshort (List.append_nil _).symm hun
        exact absurd hlong (Nat.not_lt.2 hlen)
      · rw [hline] at hv
        cases hv
        refine hmoved ?_ hpublished
        rw [Receiver.unframed, Receiver.unframed, hphase]
        rfl
      · rw [hline] at hv
        cases hv
  | frame hphase hline hheld _ _ _ hidle _ =>
      refine h.frame ht hshort hline rfl ?_ rfl (hidle hno).2.2
      rw [hphase]
      exact hheld
  | hand hphase hpublished _ =>
      refine hmoved ?_ hpublished
      rw [Receiver.unframed, Receiver.unframed, hphase]
      rfl
  | drop hphase hpublished _ =>
      refine hmoved ?_ hpublished
      rw [Receiver.unframed, Receiver.unframed, hphase]
      rfl

theorem Heard.receive (h : Heard total future settled m outs)
    (hno : m.link.awaiting = false)
    (hshort : ∀ s ∈ stretches total, s.length ≤ Line.maxKept) :
    ∃ settled', Heard total future settled' m.receive.value
      (outs ++ m.receive.trace) := by
  have hall :=
    @Traced.exhaust_induction _ _ receiveStep load load_receiveStep_lt
    (fun outs m => m.link.awaiting = false ∧
      ∃ settled', Heard total future settled' m outs) ?_
    outs m ⟨hno, settled, h⟩
  · exact hall.2
  · rintro outs m x ⟨hno, settled, h⟩ hx
    exact ⟨(received_step hx).awaiting.trans hno,
      h.step hno hshort (stepped_receiveStep hx)⟩

/-! ## Histories without a command -/

/-- As long as no run begins, nobody but the receiver makes a message known. -/
theorem published_of_not_awaiting {deserted : Bool} (hf : Flagged m deserted)
    (hno : m.link.awaiting = false) {x : Happening} (hx : x ≠ .turn .receiver)
    (hno' : (m.happen x).value.link.awaiting = false) :
    CellModem.published (m.happen x).trace = [] := by
  rcases m.happen_cases x with ⟨job, rfl⟩ | ⟨id, rfl⟩ | ⟨ms, rfl⟩ | rfl |
      ⟨t, y, ht, rfl, _, hy, he⟩ | ⟨_, _, hkept⟩
  · cases job <;> rfl
  · rfl
  · rfl
  · exact absurd rfl hx
  · rw [he] at hno' ⊢
    rcases pollTask_cases hy with ⟨_, _, _, rfl⟩ | ⟨plan, _, rfl⟩ |
        ⟨plan, run, hs, _, _⟩
    · rfl
    · obtain ⟨_, hcarried⟩ := carried_carryOut m t.id plan.next
      have hawaiting := hcarried.awaiting
      cases hmove : plan.next with
      | run timeout request rest =>
          rw [hmove] at hawaiting hno'
          rw [hno'] at hawaiting
          cases hawaiting
      | pause ms rest => rfl
      | finish outcome => rfl
    · have hrunning : m.isRunning = true :=
        isRunning_eq_true_iff.2 ⟨t, ht, by rw [hs]; rfl⟩
      have hawaiting := hf.awaiting
      rw [hno, hrunning] at hawaiting
      cases hawaiting
  · exact hkept.published

theorem Heard.follow {deserted : Bool} (hs : List Happening)
    (hf : Flagged m deserted)
    (h : Heard total (wireBytes (arrivals hs)) settled m outs)
    (hidle : ∀ pre, pre <+: hs → (m.follow pre).value.link.awaiting = false)
    (hshort : ∀ s ∈ stretches total, s.length ≤ Line.maxKept) :
    ∃ settled', Heard total [] settled' (m.follow hs).value
      (outs ++ (m.follow hs).trace) := by
  induction hs generalizing m outs settled deserted with
  | nil =>
      rw [follow, Traced.trace_pure, List.append_nil]
      exact ⟨settled, h⟩
  | cons x hs ih =>
      have hno : m.link.awaiting = false := hidle [] List.nil_prefix
      have hrest {pre : List Happening} (hpre : pre <+: hs) :
          ((m.happen x).value.follow pre).value.link.awaiting = false :=
        hidle (x :: pre) (List.cons_prefix_cons.2 ⟨rfl, hpre⟩)
      have harrivals : arrivals (x :: hs) = x.arrival ++ arrivals hs :=
        List.flatMap_cons
      obtain ⟨settled', h'⟩ :
          ∃ settled', Heard total (wireBytes (arrivals hs)) settled'
          (m.happen x).value (outs ++ (m.happen x).trace) := by
        rw [harrivals, wireBytes_append] at h
        by_cases hx : x = .turn .receiver
        · rw [hx, happen_receiver]
          rw [hx] at h
          exact h.receive hno hshort
        · obtain ⟨hreceiver, hwire⟩ := wire_happen (m := m) hx
          refine ⟨settled, h.of_same (hreceiver ▸ h.tidy) ?_
            (published_of_not_awaiting hf hno hx (hrest List.nil_prefix))⟩
          rw [hreceiver, hwire, wireBytes_append]
          simp only [List.append_assoc]
      obtain ⟨settled'', h''⟩ :=
        ih (flagged_happen hf x) h' (fun pre hpre => hrest hpre)
      rw [List.append_assoc] at h''
      exact ⟨settled'', h''⟩

/-! ## Lines left over for nobody -/

/-- While no command is outstanding, no more than one line is
left over for one. -/
def Sparse (m : Modem) : Prop :=
  m.link.awaiting = false → m.outstanding.length ≤ 1

theorem sparse_happen {deserted : Bool} (hf : Flagged m deserted) (h : m.Sparse)
    (x : Happening) : (m.happen x).value.Sparse := by
  have hsame {m' : Modem} (hawaiting : m'.link.awaiting = m.link.awaiting)
      (houtstanding : m'.outstanding = m.outstanding) : m'.Sparse := by
    intro hno
    rw [houtstanding]
    exact h (hawaiting.symm.trans hno)
  rcases m.happen_cases x with ⟨job, rfl⟩ | ⟨id, rfl⟩ | ⟨ms, rfl⟩ | rfl |
      ⟨t, y, ht, rfl, _, hy, he⟩ | ⟨_, _, hkept⟩
  · have hv : (m.happen (.action (.begin job))).value = (m.begin job).value :=
      rfl
    rw [hv, value_begin]
    exact hsame rfl rfl
  · exact hsame rfl rfl
  · exact hsame rfl rfl
  · rw [happen_receiver]
    have hr := routed_receive m
    intro hno
    have hno' := hr.awaiting.symm.trans hno
    exact Nat.le_trans (hr.outstanding hno').length_le (h hno')
  · obtain ⟨stage?, hturn⟩ := turned_pollTask (hf.orderly.isOpen t ht) hy
    rw [he]
    intro hno
    rw [outstanding, hturn.replies, hturn.receiver]
    cases hempties : t.stage.empties with
    | true => exact length_inHand_le _
    | false =>
        have hrest : t.stage.isRunning = false := by
          cases hs : t.stage with
          | running plan run =>
              rw [hs] at hempties
              cases hempties
          | listening => rfl
          | waiting plan => rfl
          | pausing plan deadline => rfl
        rw [hturn.begins hrest, hempties] at hno
        exact h hno
  · exact hsame hkept.awaiting
      (by rw [outstanding, outstanding, hkept.replies, hkept.receiver])

theorem sparse_follow (hs : List Happening) :
    (idle.follow hs).value.Sparse := by
  have hall :=
    @follow_induction (fun _ m => m.Sparse ∧ ∃ deserted, Flagged m deserted) ?_
      hs [] idle ⟨fun _ => Nat.zero_le 1, false, flagged_idle⟩
  · exact hall.1
  · rintro _ m x ⟨h, deserted, hf⟩
    exact ⟨sparse_happen hf h x, _, flagged_happen hf x⟩

/-- While no command is outstanding, the receiver reads all that is there. -/
theorem wire_receive (h : m.Sparse) (hno : m.link.awaiting = false) :
    m.receive.value.receiver.phase = .reading ∧ m.receive.value.wire = [] := by
  have hfew : m.receive.value.link.replies.length < Link.maxReplies := by
    have hle := Nat.le_trans
        ((routed_receive m).outstanding hno).length_le (h hno)
    rw [outstanding, List.length_append] at hle
    have height : Link.maxReplies = 8 := rfl
    omega
  have hnone := m.receiveStep_receive
  have hphase := reading_of_receiveStep hnone hfew
  refine ⟨hphase, ?_⟩
  unfold receiveStep at hnone
  rw [hphase] at hnone
  dsimp only at hnone
  split at hnone
  · assumption
  · cases hnone
  · cases hnone
  · cases hnone

theorem heard_start (past : List Happening) (future : List UInt8) :
    Heard ((idle.follow past).value.receiver.unframed ++
      wireBytes (idle.follow past).value.wire ++ future) future []
        (idle.follow past).value [] where
  total := rfl
  terminated := terminated_nil
  published := rfl
  tidy := tidy_follow past

/-- From any time on at which no command is outstanding, and as long as none
is, the messages made known are those among the complete lines of the bytes
that were read, whatever the pieces in which they came, and what is left waits
in the buffer. Each read that fails is reported once, and each turn of the
receiver reads all that is there. It puts the messages into the backlog, and
it never goes back to the wire with anything in hand, with a command
outstanding or without. -/
theorem idle_reception {past hs : List Happening}
    (hidle : ∀ pre, pre <+: hs →
      (idle.follow (past ++ pre)).value.link.awaiting = false)
    (hshort : ∀ s ∈ stretches ((idle.follow past).value.receiver.unframed ++
      wireBytes ((idle.follow past).value.wire ++ arrivals hs)),
        s.length ≤ Line.maxKept) :
    let m := (idle.follow past).value
    let m' := (m.follow hs).value
    let outs := (m.follow hs).trace
    let turn := m'.happen (.turn .receiver)
    (∃ data, m.receiver.unframed ++ wireBytes (m.wire ++ arrivals hs) =
        data ++ wireBytes m'.wire ∧
      (m'.receiver.phase = .reading →
        CellModem.published outs = (completeLines data).filterMap Urc.ofLine? ∧
        m'.receiver.buffer.pending = openLine data)) ∧
    (∃ n, readFailures outs = List.replicate n .serial ∧
      n + wireFailures m'.wire = wireFailures (m.wire ++ arrivals hs)) ∧
    (turn.value.receiver.phase = .reading ∧ turn.value.wire = [] ∧
      turn.value.link.urcs =
        (CellModem.published turn.trace).foldl Backlog.push m'.link.urcs) ∧
    ∀ any before x, Advanced (idle.follow any).value before →
      before.receiveStep = some x → x.value.receiver.phase = .reading →
      before.receiver.phase.held = [] ∧
      x.value.receiver.buffer = before.receiver.buffer := by
  intro m m' outs turn
  have hidle' {pre : List Happening} (hpre : pre <+: hs) :
      (m.follow pre).value.link.awaiting = false := by
    have hno := hidle pre hpre
    rw [follow_append] at hno
    exact hno
  have hf : Flagged m (idle.deserted false past) :=
    flagged_follow flagged_idle past
  refine ⟨?_, failed_follow m hs, ?_, ?_⟩
  · have hstart :
        Heard (m.receiver.unframed ++ wireBytes (m.wire ++ arrivals hs))
        (wireBytes (arrivals hs)) [] m [] := by
      rw [wireBytes_append, ← List.append_assoc]
      exact heard_start past _
    obtain ⟨settled, h⟩ :=
      hstart.follow hs hf (fun pre hpre => hidle' hpre) hshort
    have htotal := h.total
    rw [List.append_nil] at htotal
    refine ⟨settled ++ m'.receiver.unframed, htotal, fun hphase => ?_⟩
    have hunframed : m'.receiver.unframed = m'.receiver.buffer.pending := by
      rw [Receiver.unframed, hphase]
      exact List.append_nil _
    obtain ⟨hun, _⟩ := h.tidy (by rw [hphase]; rfl)
    rw [hunframed, completeLines_settled h.terminated hun,
      openLine_settled h.terminated hun]
    exact ⟨h.published, rfl⟩
  · have hno : m'.link.awaiting = false := hidle' List.prefix_rfl
    have hsparse : m'.Sparse := by
      have hall := sparse_follow (past ++ hs)
      rw [follow_append] at hall
      exact hall
    obtain ⟨hphase, hwire⟩ := wire_receive hsparse hno
    have hturn : turn = m'.receive := m'.happen_receiver
    rw [hturn]
    exact ⟨hphase, hwire, (routed_receive m').urcs⟩
  · intro any before x hbefore hx hphase
    exact (stepped_receiveStep hx).held_eq_nil
      (hbefore.tidy (tidy_follow any)) hphase

/-- Behind the reply to a command come three lines in four pieces, and the end
of the first one is split; a read fails in the middle of it, and the far end
closes the line before it has ended. -/
theorem idle_reception_of_pieces :
    let past : List Happening := [.action (.begin .answer), .turn (.task 0),
      .action (.arrive (Text.bytes "OK\r\nRI")), .turn .receiver,
      .turn (.task 0)]
    let hs : List Happening :=
      [.action .failRead, .action (.arrive (Text.bytes "NG\r")),
      .turn .receiver, .action .close,
      .action (.arrive (Text.bytes "\n\r\nRDY\r")), .turn .receiver,
      .action (.arrive (Text.bytes "POWERED D")), .turn .receiver]
    let m := (idle.follow past).value
    let data := Text.bytes "RING\r\n\r\nRDY\rPOWERED D"
    CellModem.published (m.follow hs).trace =
      (completeLines data).filterMap Urc.ofLine? ∧
      (completeLines data).filterMap Urc.ofLine? = [.ring, .ready] ∧
      (m.follow hs).value.receiver.buffer.pending = openLine data ∧
      readFailures (m.follow hs).trace = [.serial, .serial] := by
  intro past hs m data
  have hidle :
      ∀ k < 9, (idle.follow (past ++ hs.take k)).value.link.awaiting =
      false := by
    decide +kernel
  have hbytes :
      m.receiver.unframed ++ wireBytes (m.wire ++ arrivals hs) = data := by
    decide +kernel
  have hwire : (m.follow hs).value.wire = [] := by decide +kernel
  have hphase : (m.follow hs).value.receiver.phase = .reading := by
    decide +kernel
  obtain ⟨⟨data', hdata, hheard⟩, ⟨n, hn, hcount⟩, _⟩ := @idle_reception past hs
    (fun pre hpre => by
      rw [List.prefix_iff_eq_take.1 hpre]
      exact hidle _ (Nat.lt_succ_of_le hpre.length_le))
    (show ∀ s ∈ stretches (m.receiver.unframed ++
        wireBytes (m.wire ++ arrivals hs)), s.length ≤ Line.maxKept by
      rw [hbytes]
      decide +kernel)
  have hall : data' = data := by
    have hsame := hbytes.symm.trans hdata
    rw [hwire] at hsame
    exact (hsame.trans (List.append_nil _)).symm
  subst hall
  obtain ⟨hpublished, hpending⟩ := hheard hphase
  have htwo : wireFailures (m.wire ++ arrivals hs) = 2 := by decide +kernel
  rw [hwire] at hcount
  obtain rfl : n = 2 := hcount.trans htwo
  exact ⟨hpublished, by decide +kernel, hpending, hn⟩

end Modem

end CellModem
