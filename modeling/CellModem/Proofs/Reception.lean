import CellModem.Modem.Receiving
import CellModem.Proofs.Exchange
import CellModem.Proofs.Framing

/-!
# What the receiver does with bytes

The receiver is interrupted at any point: by the other parties, by bytes that
come late, and by a queue that is full. None of that shows in the lines it
frames. They are the lines that a buffer gives out if the same pieces are put
into it one after the other, and what the receiver has still in hand is on its
way to the same end (`Receiver.reach`).

A line that is framed goes one of two ways. While a command is running it joins
the lines that are outstanding, those queued for the command and the one that
waits for space in the queue; and otherwise it is published if it is a message.
Either way the order is kept, and no line is lost unless the receiver gives up
waiting for space.
-/

namespace CellModem

/-! ## A buffer that is read to the end -/

namespace LineBuffer

variable {capacity : Nat}

/-- The lines that come out when a piece of data is read to its end, and the
buffer behind it. -/
def readPiece (b : LineBuffer capacity) (piece : List UInt8) :
    List Line × LineBuffer capacity :=
  let (_, lines, b, _) :=
    (b.pump Channel.ofBytes (fun ls l => pure (ls ++ [l])) [] piece).value
  (lines, b)

/-- The lines that come out when pieces are read one after the other. -/
def readAll (b : LineBuffer capacity) :
    List (List UInt8) → List Line × LineBuffer capacity
  | [] => ([], b)
  | piece :: pieces =>
    let (lines, b) := b.readPiece piece
    let (more, b) := b.readAll pieces
    (lines ++ more, b)

theorem value_drain_collect (b : LineBuffer capacity) (lines : List Line) :
    (b.drain (fun ls l => pure (ls ++ [l])) lines).value =
      (lines ++ b.consumeLines.value.1, b.consumeLines.value.2) := by
  induction hn : b.length using Nat.strongRecOn generalizing b lines with
  | ind n ih =>
      cases hc : b.consumeLine.value with
      | mk line? b' =>
          cases line? with
          | none =>
              rw [consumeLines, value_drain_of_none hc, value_drain_of_none hc,
                List.append_nil]
          | some l =>
              have hlt : b'.length < n := hn ▸ length_consumeLine_lt hc
              rw [consumeLines, value_drain_of_some hc, value_drain_of_some hc,
                Traced.value_pure, Traced.value_pure, ih _ hlt b' _ rfl,
                ih _ hlt b' _ rfl]
              simp only [List.nil_append, List.append_assoc]

theorem consumeLines_of_none {b b' : LineBuffer capacity}
    (h : b.consumeLine.value = (none, b')) : b.consumeLines.value = ([], b') :=
  value_drain_of_none h

theorem consumeLines_of_some {b b' : LineBuffer capacity} {l : Line}
    (h : b.consumeLine.value = (some l, b')) :
    b.consumeLines.value =
      (l :: b'.consumeLines.value.1, b'.consumeLines.value.2) := by
  rw [consumeLines, value_drain_of_some h]
  exact value_drain_collect b' _

section Pump

variable {σ τ : Type} {ch : Channel σ} {handle : τ → Line → Logged τ}
  {b b' : LineBuffer capacity} {s s' : σ}

theorem value_pumpFor_of_done (h : (b.fill ch s).value = (.done, b', s'))
    (n : Nat) (t : τ) :
    (pumpFor ch handle (n + 1) t b s).value = (0, t, b', s') := by
  rw [pumpFor, Traced.value_bind, h]
  rfl

theorem value_pumpFor_of_data (h : (b.fill ch s).value = (.data, b', s'))
    (n : Nat) (t : τ) : (pumpFor ch handle (n + 1) t b s).value =
      ((pumpFor ch handle n (b'.drain handle t).value.1
        (b'.drain handle t).value.2 s').value.1 + 1,
          (pumpFor ch handle n (b'.drain handle t).value.1
            (b'.drain handle t).value.2 s').value.2) := by
  rw [pumpFor, Traced.value_bind, h]
  rfl

end Pump

theorem length_lt_of_fill {b b' : LineBuffer capacity} {piece rest : List UInt8}
    (h : (b.fill Channel.ofBytes piece).value = (.data, b', rest)) :
    rest.length < piece.length := by
  rw [value_fill_ofBytes] at h
  split at h
  · cases h
  · next hne =>
      cases h
      have hpos : 0 < piece.length :=
        List.length_pos_iff.2 fun hnil => hne (Or.inr hnil)
      have hroom : b.room ≠ 0 := fun hz => hne (Or.inl hz)
      rw [List.length_drop]
      omega

/-- More rounds than there are bytes make no difference. -/
theorem value_pumpFor_congr {τ : Type} (handle : τ → Line → Logged τ) :
    ∀ (n k : Nat) (t : τ) (b : LineBuffer capacity) (piece : List UInt8),
      piece.length < n → piece.length < k →
      (pumpFor Channel.ofBytes handle n t b piece).value =
        (pumpFor Channel.ofBytes handle k t b piece).value := by
  intro n
  induction n with
  | zero =>
      intro k t b piece hn _
      exact absurd hn (Nat.not_lt_zero _)
  | succ n ih =>
      intro k t b piece hn hk
      obtain ⟨k, rfl⟩ : ∃ j, k = j + 1 := ⟨k - 1, by omega⟩
      cases hf : (b.fill Channel.ofBytes piece).value with
      | mk filled rest =>
          cases filled with
          | done => rw [value_pumpFor_of_done hf, value_pumpFor_of_done hf]
          | data =>
              have hlt := length_lt_of_fill hf
              rw [value_pumpFor_of_data hf, value_pumpFor_of_data hf,
                ih k _ _ _ (by omega) (by omega)]

theorem value_pumpFor_collect {σ : Type} (ch : Channel σ) (n : Nat)
    (lines : List Line) (b : LineBuffer capacity) (s : σ) :
    (pumpFor ch (fun ls l => pure (ls ++ [l])) n lines b s).value.2 =
      (lines ++ (pumpFor ch (fun ls l => pure (ls ++ [l])) n [] b s).value.2.1,
        (pumpFor ch (fun ls l => pure (ls ++ [l])) n [] b s).value.2.2) := by
  induction n generalizing lines b s with
  | zero => rw [pumpFor, pumpFor, Traced.value_pure, Traced.value_pure,
      List.append_nil]
  | succ n ih =>
      cases hf : (b.fill ch s).value with
      | mk filled rest =>
          cases filled with
          | done =>
              rw [value_pumpFor_of_done hf, value_pumpFor_of_done hf,
                List.append_nil]
          | data =>
              rw [value_pumpFor_of_data hf, value_pumpFor_of_data hf,
                value_drain_collect, value_drain_collect]
              dsimp only
              rw [ih (lines ++ _), ih ([] ++ _)]
              simp only [List.nil_append, List.append_assoc]

theorem readPiece_of_done {b b' : LineBuffer capacity} {piece rest : List UInt8}
    (h : (b.fill Channel.ofBytes piece).value = (.done, b', rest)) :
    b.readPiece piece = ([], b') := by
  rw [readPiece, pump, value_pumpFor_of_done h]

theorem readPiece_of_data {b b' : LineBuffer capacity} {piece rest : List UInt8}
    (h : (b.fill Channel.ofBytes piece).value = (.data, b', rest)) :
    b.readPiece piece =
      (b'.consumeLines.value.1 ++ (b'.consumeLines.value.2.readPiece rest).1,
        (b'.consumeLines.value.2.readPiece rest).2) := by
  have hlt := length_lt_of_fill h
  rw [readPiece, pump, value_pumpFor_of_data h,
    value_pumpFor_congr _ piece.length (rest.length + 1) _ _ _ hlt
    (Nat.lt_succ_self _), value_pumpFor_collect, value_drain_collect]
  rfl

end LineBuffer

/-! ## What the outputs tell -/

/-- The line that a notice says was framed. -/
def Notice.line? : Notice → Option Line
  | .framed bytes => some ⟨bytes⟩
  | _ => none

/-- The bytes that a notice says were read. -/
def Notice.piece? : Notice → Option (List UInt8)
  | .bytesRead bytes => some bytes
  | _ => none

def Output.tells {α : Type} (f : Notice → Option α) : Output → Option α
  | .notice n => f n
  | _ => none

/-- The messages that were made known, in order. -/
def published (outs : List Output) : List Urc :=
  outs.filterMap (Output.tells Notice.message?)

/-- The lines that were framed, in order. -/
def framed (outs : List Output) : List Line :=
  outs.filterMap (Output.tells Notice.line?)

/-- The pieces that were read from the wire, in order. -/
def reads (outs : List Output) : List (List UInt8) :=
  outs.filterMap (Output.tells Notice.piece?)

/-- Of the lines that were framed, what was sent on its way: their first 256
bytes, and nothing for an empty line. -/
def sentOn (lines : List Line) : List Line :=
  (lines.map Line.kept).filter (!·.isEmpty)

/-- The lines that are sent on their way if pieces are read, one after the
other, into the receiver's buffer. -/
def linesIn (pieces : List (List UInt8)) : List Line :=
  sentOn ((LineBuffer.empty : LineBuffer 512).readAll pieces).1

@[simp] theorem published_append (xs ys : List Output) :
    published (xs ++ ys) = published xs ++ published ys :=
  List.filterMap_append

@[simp] theorem framed_append (xs ys : List Output) :
    framed (xs ++ ys) = framed xs ++ framed ys :=
  List.filterMap_append

@[simp] theorem reads_append (xs ys : List Output) :
    reads (xs ++ ys) = reads xs ++ reads ys :=
  List.filterMap_append

@[simp] theorem sentOn_append (xs ys : List Line) :
    sentOn (xs ++ ys) = sentOn xs ++ sentOn ys := by
  rw [sentOn, List.map_append, List.filter_append]
  rfl

theorem sentOn_singleton (l : Line) :
    sentOn [l] = if l.kept.isEmpty then [] else [l.kept] := by
  cases h : l.kept.isEmpty <;> simp [sentOn, h]

theorem tells_shown {α β : Type} (f : Notice → Option α) (x : Logged β) :
    x.shown.trace.filterMap (Output.tells f) = x.trace.filterMap f := by
  rw [Logged.shown, Traced.trace_mapTrace, List.filterMap_map]
  rfl

theorem published_shown {β : Type} (x : Logged β) :
    published x.shown.trace = messages x.trace :=
  tells_shown _ x

theorem mem_shown {β : Type} {x : Logged β} {n : Notice} :
    .notice n ∈ x.shown.trace ↔ n ∈ x.trace := by
  rw [Logged.shown, Traced.trace_mapTrace, List.mem_map]
  constructor
  · rintro ⟨k, hk, he⟩
    cases he
    exact hk
  · exact fun h => ⟨n, h, rfl⟩

theorem mem_notices {outs : List Output} {n : Notice} :
    n ∈ outs.filterMap (Output.tells some) ↔ .notice n ∈ outs := by
  rw [List.mem_filterMap]
  constructor
  · rintro ⟨o, ho, he⟩
    cases o with
    | notice k =>
        cases he
        exact ho
    | begun id => cases he
    | finished id outcome => cases he
    | heard receipt => cases he
    | wrote bytes => cases he
    | flushed => cases he
    | receiverFailed failure => cases he
    | transmitterFailed failure => cases he
  · exact fun h => ⟨.notice n, h, rfl⟩

theorem mem_readLine {l : Line} {n : Notice} (h : n ∈ (Urc.readLine l).trace) :
    n = .numberCut := by
  unfold Urc.readLine at h
  split at h
  · exact absurd h List.not_mem_nil
  · simp only [Urc.read, Traced.trace_bind, Logged.trace_noteIf,
      Traced.trace_pure, List.append_nil] at h
    split at h
    · exact List.mem_singleton.1 h
    · exact absurd h List.not_mem_nil

theorem filterMap_readLine {α : Type} {f : Notice → Option α}
    (h : f .numberCut = none) (l : Line) :
    (Urc.readLine l).trace.filterMap f = [] := by
  rw [List.filterMap_eq_nil_iff]
  intro n hn
  rw [mem_readLine hn]
  exact h

/-! ## The receiver's work, piece by piece -/

namespace Receiver

/-- The lines that the receiver will frame of what it has in hand, and the
buffer behind them. -/
def upcoming (r : Receiver) : List Line × LineBuffer 512 :=
  match r.phase with
  | .reading => ([], r.buffer)
  | .filling chunk => r.buffer.readPiece chunk
  | .draining chunk | .handing _ _ chunk =>
    let (lines, b) := r.buffer.consumeLines.value
    let (more, b) := b.readPiece chunk
    (lines ++ more, b)

/-- The lines that the receiver will frame if it goes on to read some pieces. -/
def reach (r : Receiver) (pieces : List (List UInt8)) :
    List Line × LineBuffer 512 :=
  let (lines, b) := r.upcoming
  let (more, b) := b.readAll pieces
  (lines ++ more, b)

/-- The line that waits for space in the queue of received lines. -/
def inHand (r : Receiver) : List Line :=
  match r.phase with
  | .handing line _ _ => [line]
  | .reading | .filling _ | .draining _ => []

theorem upcoming_of_draining {r : Receiver} {chunk : List UInt8}
    (h : r.phase = .draining chunk) :
    r.upcoming = (r.buffer.consumeLines.value.1 ++
        (r.buffer.consumeLines.value.2.readPiece chunk).1,
      (r.buffer.consumeLines.value.2.readPiece chunk).2) := by
  rw [upcoming, h]

theorem inHand_of_not_handing {r : Receiver}
    (h : ∀ line deadline chunk, r.phase ≠ .handing line deadline chunk) :
    r.inHand = [] := by
  unfold inHand
  split
  · next hp => exact absurd hp (h _ _ _)
  · rfl
  · rfl
  · rfl

/-- Whether the time is not up for the line that waits for space. -/
def InTime (r : Receiver) (now : Nat) : Prop :=
  ∀ line deadline chunk, r.phase = .handing line deadline chunk → now < deadline

end Receiver

namespace Modem

/-- The lines that were received for a command and not taken yet,
the oldest first. -/
def outstanding (m : Modem) : List Line := m.link.replies ++ m.receiver.inHand

theorem outstanding_of_not_handing {m : Modem}
    (h : ∀ line deadline chunk, m.receiver.phase ≠
      .handing line deadline chunk) :
    m.outstanding = m.link.replies := by
  rw [outstanding, Receiver.inHand_of_not_handing h, List.append_nil]

/-- What becomes of a modem and the lines on their way when only the
receiver works. -/
structure Received (m : Modem) (outs : List Output) (m' : Modem) : Prop where
  tasks : m'.tasks = m.tasks
  begun : m'.begun = m.begun
  transmitter : m'.transmitter = m.transmitter
  writer : m'.writer = m.writer
  transmitting : m'.transmitting = m.transmitting
  now : m'.now = m.now
  awaiting : m'.link.awaiting = m.link.awaiting
  commands : m'.link.commands = m.link.commands
  reach : ∀ pieces, m.receiver.reach (reads outs ++ pieces) =
    (framed outs ++ (m'.receiver.reach pieces).1, (m'.receiver.reach pieces).2)
  outstanding : .notice .replyNotTaken ∉ outs → m'.outstanding =
    m.outstanding ++ if m.link.awaiting then sentOn (framed outs) else []
  published : published outs =
    if m.link.awaiting then [] else (sentOn (framed outs)).filterMap Urc.ofLine?
  /-- No line is given up as long as the time is not up for any. -/
  inTime : m.receiver.InTime m.now →
    .notice .replyNotTaken ∉ outs ∧ m'.receiver.InTime m'.now

theorem Received.refl (m : Modem) : Received m [] m where
  tasks := rfl
  begun := rfl
  transmitter := rfl
  writer := rfl
  transmitting := rfl
  now := rfl
  awaiting := rfl
  commands := rfl
  reach _ := rfl
  outstanding _ := by cases m.link.awaiting <;> exact (List.append_nil _).symm
  published := by cases m.link.awaiting <;> rfl
  inTime h := ⟨List.not_mem_nil, h⟩

theorem Received.trans {m m' m'' : Modem} {outs outs' : List Output}
    (h : Received m outs m') (h' : Received m' outs' m'') :
    Received m (outs ++ outs') m'' where
  tasks := h'.tasks.trans h.tasks
  begun := h'.begun.trans h.begun
  transmitter := h'.transmitter.trans h.transmitter
  writer := h'.writer.trans h.writer
  transmitting := h'.transmitting.trans h.transmitting
  now := h'.now.trans h.now
  awaiting := h'.awaiting.trans h.awaiting
  commands := h'.commands.trans h.commands
  reach pieces := by
    rw [reads_append, List.append_assoc, h.reach, h'.reach, framed_append,
      List.append_assoc]
  outstanding hmem := by
    rw [List.mem_append, not_or] at hmem
    rw [h'.outstanding hmem.2, h.outstanding hmem.1, h.awaiting, framed_append,
      sentOn_append]
    cases m.link.awaiting <;> simp
  published := by
    rw [published_append, h.published, h'.published, h.awaiting, framed_append,
      sentOn_append]
    cases m.link.awaiting <;> simp
  inTime hin := by
    obtain ⟨hnone, hin'⟩ := h.inTime hin
    obtain ⟨hnone', hin''⟩ := h'.inTime hin'
    exact ⟨by rw [List.mem_append, not_or]; exact ⟨hnone, hnone'⟩, hin''⟩

theorem received_of_link {m : Modem} {link : Link} {buffer : LineBuffer 512}
    {phase : Receiver.Phase} {outs : List Output}
    (hawaiting : link.awaiting = m.link.awaiting)
    (hcommands : link.commands = m.link.commands) (hreads : reads outs = [])
    (hupcoming : m.receiver.upcoming =
      (framed outs ++ (Receiver.mk buffer phase).upcoming.1,
        (Receiver.mk buffer phase).upcoming.2))
    (houtstanding : .notice .replyNotTaken ∉ outs →
      link.replies ++ (Receiver.mk buffer phase).inHand =
        m.outstanding ++ if m.link.awaiting then sentOn (framed outs) else [])
    (hpublished : published outs =
      if m.link.awaiting then []
        else (sentOn (framed outs)).filterMap Urc.ofLine?)
    (hinTime : m.receiver.InTime m.now →
      .notice .replyNotTaken ∉ outs ∧ (Receiver.mk buffer phase).InTime m.now) :
    Received m outs ({ m with link := link }.setReceiver buffer phase) where
  tasks := rfl
  begun := rfl
  transmitter := rfl
  writer := rfl
  transmitting := rfl
  now := rfl
  awaiting := hawaiting
  commands := hcommands
  reach pieces := by
    rw [hreads, List.nil_append]
    simp only [Receiver.reach, setReceiver, hupcoming, List.append_assoc]
  outstanding := houtstanding
  published := hpublished
  inTime := hinTime

/-! ### Each piece of work -/

theorem mem_fill {σ : Type} {b : LineBuffer 512} {ch : Channel σ}
    {s : σ} {n : Notice} (h : n ∈ (b.fill ch s).trace) :
    n = .bufferFull 512 := by
  unfold LineBuffer.fill at h
  split at h
  · exact List.mem_singleton.1 h
  · dsimp only at h
    split at h
    · exact absurd h List.not_mem_nil
    · exact absurd h List.not_mem_nil

theorem filterMap_fill {α σ : Type} {f : Notice → Option α}
    (hf : f (.bufferFull 512) = none) (b : LineBuffer 512) (ch : Channel σ)
    (s : σ) : (b.fill ch s).trace.filterMap f = [] := by
  rw [List.filterMap_eq_nil_iff]
  intro n hn
  rw [mem_fill hn]
  exact hf

theorem trace_consumeLine (b : LineBuffer 512) :
    (b.consumeLine.value.1 = none ∧ ∀ n ∈ b.consumeLine.trace, ∃ k j, n =
      .lineTooLong k j) ∨
    ∃ l, b.consumeLine.value.1 = some l ∧
    b.consumeLine.trace = [.framed l.bytes] := by
  unfold LineBuffer.consumeLine
  split
  · left
    split
    · refine ⟨rfl, fun n hn => ?_⟩
      exact ⟨_, _, List.mem_singleton.1 hn⟩
    · exact ⟨rfl, fun n hn => absurd hn List.not_mem_nil⟩
  · exact Or.inr ⟨⟨b.head⟩, rfl, rfl⟩

theorem filterMap_consumeLine {α : Type} {f : Notice → Option α}
    (hf : ∀ k j, f (.lineTooLong k j) = none) (b : LineBuffer 512) :
    b.consumeLine.trace.filterMap f =
      (b.consumeLine.value.1.bind fun l => f (.framed l.bytes)).toList := by
  rcases trace_consumeLine b with ⟨hnone, hlong⟩ | ⟨l, hsome, htrace⟩
  · rw [hnone, Option.bind_none, Option.toList_none, List.filterMap_eq_nil_iff]
    intro n hn
    obtain ⟨k, j, rfl⟩ := hlong n hn
    exact hf k j
  · rw [hsome, htrace, Option.bind_some]
    cases h : f (.framed l.bytes) <;> simp [h]

theorem framed_consumeLine (b : LineBuffer 512) :
    framed b.consumeLine.shown.trace = b.consumeLine.value.1.toList := by
  rw [framed, tells_shown, filterMap_consumeLine fun _ _ => rfl]
  cases b.consumeLine.value.1 <;> rfl

theorem reads_consumeLine (b : LineBuffer 512) :
    reads b.consumeLine.shown.trace = [] := by
  rw [reads, tells_shown, filterMap_consumeLine fun _ _ => rfl]
  cases b.consumeLine.value.1 <;> rfl

theorem published_consumeLine (b : LineBuffer 512) :
    published b.consumeLine.shown.trace = [] := by
  rw [published, tells_shown, filterMap_consumeLine fun _ _ => rfl]
  cases b.consumeLine.value.1 <;> rfl

theorem replyNotTaken_consumeLine (b : LineBuffer 512) :
    .notice .replyNotTaken ∉ b.consumeLine.shown.trace := by
  rw [mem_shown]
  intro h
  rcases trace_consumeLine b with ⟨_, hlong⟩ | ⟨l, _, htrace⟩
  · obtain ⟨k, j, he⟩ := hlong _ h
    cases he
  · rw [htrace] at h
    cases List.mem_singleton.1 h

/-- All that can become of a line that is sent on its way. -/
theorem route_cases (m : Modem) (buffer : LineBuffer 512) (line : Line)
    (chunk : List UInt8) : (line.isEmpty = true ∧ m.route buffer line chunk =
      pure (m.setReceiver buffer (.draining chunk))) ∨
    (line.isEmpty = false ∧ m.link.awaiting = true ∧ m.route buffer line chunk =
      pure ({ m with
        link := { m.link with replies := m.link.replies ++ [line] }
          }.setReceiver buffer (.draining chunk))) ∨
    (line.isEmpty = false ∧ m.link.awaiting = true ∧ m.route buffer line chunk =
      pure (m.setReceiver buffer
        (.handing line (m.now + handingTimeout) chunk))) ∨
    (line.isEmpty = false ∧ m.link.awaiting = false ∧
      (m.route buffer line chunk).value =
        { m with link := m.link.publishAll (Urc.ofLine? line).toList
          }.setReceiver buffer (.draining chunk) ∧
      published (m.route buffer line chunk).trace = (Urc.ofLine? line).toList ∧
      framed (m.route buffer line chunk).trace = [] ∧
      reads (m.route buffer line chunk).trace = [] ∧
      .notice .replyNotTaken ∉ (m.route buffer line chunk).trace) := by
  unfold route
  split
  · next he => exact Or.inl ⟨he, rfl⟩
  · next he =>
      have he : line.isEmpty = false := by simpa using he
      split
      · next ha =>
          split
          · exact Or.inr (Or.inl ⟨he, ha, rfl⟩)
          · exact Or.inr (Or.inr (Or.inl ⟨he, ha, rfl⟩))
      · next ha =>
          have ha : m.link.awaiting = false := by simpa using ha
          have hvalue : (Urc.readLine line).shown.value = Urc.ofLine? line :=
            Urc.value_readLine line
          have hread {α : Type} {f : Notice → Option α}
              (hf : f .numberCut = none) :
              (Urc.readLine line).shown.trace.filterMap
              (Output.tells f) = [] := by
            rw [tells_shown, filterMap_readLine hf]
          have hnot : .notice .replyNotTaken ∉
              (Urc.readLine line).shown.trace := by
            intro h
            cases mem_readLine (mem_shown.1 h)
          refine Or.inr (Or.inr (Or.inr ⟨he, ha, ?_⟩))
          simp only [Traced.value_bind, Traced.trace_bind, hvalue, published,
            framed, reads, List.filterMap_append,
            hread (f := Notice.message?) rfl,
            hread (f := Notice.line?) rfl, hread (f := Notice.piece?) rfl,
              List.mem_append, hnot]
          cases Urc.ofLine? line with
          | none => exact ⟨rfl, rfl, rfl, rfl, by simp⟩
          | some urc =>
              exact ⟨rfl, rfl, rfl, rfl, by simp [Logged.shown, Link.publish]⟩

theorem inTime_of_phase {m : Modem} {phase : Receiver.Phase}
    {buffer : LineBuffer 512}
    (h : ∀ line deadline chunk, phase ≠ .handing line deadline chunk) :
    (Receiver.mk buffer phase).InTime m.now :=
  fun line deadline chunk hp => absurd hp (h line deadline chunk)

theorem received_fault {m : Modem} (rest : List Delivery) {outs : List Output}
    (hreads : reads outs = []) (hframed : framed outs = [])
    (hpublished : published outs = []) (hnot : .notice .replyNotTaken ∉ outs) :
    Received m outs { m with wire := rest } where
  tasks := rfl
  begun := rfl
  transmitter := rfl
  writer := rfl
  transmitting := rfl
  now := rfl
  awaiting := rfl
  commands := rfl
  reach pieces := by
    rw [hreads, hframed]
    rfl
  outstanding _ := by
    rw [hframed]
    cases m.link.awaiting <;> exact (List.append_nil _).symm
  published := by
    rw [hpublished, hframed]
    cases m.link.awaiting <;> rfl
  inTime h := ⟨hnot, h⟩

/-- A piece that is read from the wire comes after all that the
receiver has in hand. -/
theorem received_piece {m : Modem} (hphase : m.receiver.phase = .reading)
    (chunk : List UInt8) (wire : List Delivery) :
    Received m [.notice (.bytesRead chunk)]
      ({ m with wire := wire }.setReceiver m.receiver.buffer
        (.filling chunk)) where
  tasks := rfl
  begun := rfl
  transmitter := rfl
  writer := rfl
  transmitting := rfl
  now := rfl
  awaiting := rfl
  commands := rfl
  reach pieces := by
    rw [Receiver.reach, Receiver.upcoming, hphase]
    rfl
  outstanding _ := by
    have hhand : m.outstanding = m.link.replies :=
      outstanding_of_not_handing fun _ _ _ hp => by rw [hphase] at hp; cases hp
    rw [hhand]
    cases m.link.awaiting <;> rfl
  published := by cases m.link.awaiting <;> rfl
  inTime _ := ⟨by simp, fun line deadline chunk hp => by cases hp⟩

theorem received_filling {m : Modem} {chunk : List UInt8}
    (hphase : m.receiver.phase = .filling chunk) {x : Traced Output Modem}
    (h : m.receiveStep = some x) : Received m x.trace x.value := by
  simp only [receiveStep, hphase, Option.some.injEq] at h
  subst h
  have hnone {α : Type} (f : Notice → Option α)
      (hf : f (.bufferFull 512) = none) :
      (m.receiver.buffer.fill Channel.ofBytes chunk).shown.trace.filterMap
        (Output.tells f) = [] := by
    rw [tells_shown, filterMap_fill hf]
  have hnot : .notice .replyNotTaken ∉
      (m.receiver.buffer.fill Channel.ofBytes chunk).shown.trace := by
    intro hmem
    cases mem_fill (mem_shown.1 hmem)
  have hhand : m.outstanding = m.link.replies :=
    outstanding_of_not_handing fun _ _ _ hp => by rw [hphase] at hp; cases hp
  have hup : m.receiver.upcoming = m.receiver.buffer.readPiece chunk := by
    rw [Receiver.upcoming, hphase]
  rw [Traced.value_bind, Traced.trace_bind]
  cases hf : (m.receiver.buffer.fill Channel.ofBytes chunk).shown.value with
  | mk filled rest =>
      obtain ⟨buffer, rest⟩ := rest
      have hf' : (m.receiver.buffer.fill Channel.ofBytes chunk).value =
          (filled, buffer, rest) := hf
      have hlines (phase : Receiver.Phase)
          (hin : (Receiver.mk buffer phase).inHand = []) :
          m.link.replies ++ (Receiver.mk buffer phase).inHand = m.outstanding ++
            if m.link.awaiting then sentOn (framed
              (m.receiver.buffer.fill Channel.ofBytes
                chunk).shown.trace) else [] := by
        rw [hhand, hin, framed, hnone _ rfl]
        cases m.link.awaiting <;> rfl
      have hpublished :
          published (m.receiver.buffer.fill Channel.ofBytes chunk).shown.trace =
          if m.link.awaiting then [] else (sentOn (framed
            (m.receiver.buffer.fill Channel.ofBytes
              chunk).shown.trace)).filterMap Urc.ofLine? := by
        rw [published, framed, hnone _ rfl, hnone _ rfl]
        cases m.link.awaiting <;> rfl
      cases filled with
      | done =>
          rw [Traced.trace_pure, List.append_nil, Traced.value_pure]
          refine @received_of_link m m.link _ _ _ rfl rfl (hnone _ rfl) ?_
            (fun _ => hlines _ rfl) hpublished (fun _ =>
              ⟨hnot, inTime_of_phase nofun⟩)
          rw [hup, LineBuffer.readPiece_of_done hf', framed, hnone _ rfl]
          rfl
      | data =>
          rw [Traced.trace_pure, List.append_nil, Traced.value_pure]
          refine @received_of_link m m.link _ _ _ rfl rfl (hnone _ rfl) ?_
            (fun _ => hlines _ rfl) hpublished (fun _ =>
              ⟨hnot, inTime_of_phase nofun⟩)
          rw [hup, LineBuffer.readPiece_of_data hf', framed, hnone _ rfl]
          rfl

theorem received_route {m : Modem} {chunk : List UInt8}
    {buffer : LineBuffer 512} {line : Line}
    (hphase : m.receiver.phase = .draining chunk)
    (hline : m.receiver.buffer.consumeLine.value = (some line, buffer)) :
    Received m (m.receiver.buffer.consumeLine.shown.trace ++
        (m.route buffer line.kept chunk).trace)
      (m.route buffer line.kept chunk).value := by
  have hhand : m.outstanding = m.link.replies :=
    outstanding_of_not_handing fun _ _ _ hp => by rw [hphase] at hp; cases hp
  have hsome : m.receiver.buffer.consumeLine.value.1 = some line := by
    rw [hline]
  have hreads := reads_consumeLine m.receiver.buffer
  have hpublished := published_consumeLine m.receiver.buffer
  have hnot := replyNotTaken_consumeLine m.receiver.buffer
  have hframed : framed m.receiver.buffer.consumeLine.shown.trace = [line] := by
    rw [framed_consumeLine, hsome]
    rfl
  have hup (phase : Receiver.Phase)
      (hp : (Receiver.mk buffer phase).upcoming =
        (Receiver.mk buffer (.draining chunk)).upcoming) :
      m.receiver.upcoming = ([line] ++ (Receiver.mk buffer phase).upcoming.1,
        (Receiver.mk buffer phase).upcoming.2) := by
    rw [hp, Receiver.upcoming_of_draining hphase,
      LineBuffer.consumeLines_of_some hline]
    rfl
  rcases m.route_cases buffer line.kept chunk with ⟨he, hr⟩ | ⟨he, ha, hr⟩ |
      ⟨he, ha, hr⟩ | ⟨he, ha, hvalue, hpub, hfr, hrd, hno⟩
  · rw [hr, Traced.trace_pure, List.append_nil, Traced.value_pure]
    refine @received_of_link m m.link _ _ _ rfl rfl hreads ?_ (fun _ => ?_) ?_
      (fun _ => ⟨hnot, inTime_of_phase nofun⟩)
    · rw [hframed]
      exact hup _ rfl
    · rw [hframed, sentOn_singleton, he, hhand]
      cases m.link.awaiting <;> rfl
    · rw [hframed, sentOn_singleton, he, hpublished]
      cases m.link.awaiting <;> rfl
  · rw [hr, Traced.trace_pure, List.append_nil, Traced.value_pure]
    refine received_of_link rfl rfl hreads ?_ (fun _ => ?_) ?_
      (fun _ => ⟨hnot, inTime_of_phase nofun⟩)
    · rw [hframed]
      exact hup _ rfl
    · rw [hframed, sentOn_singleton, he, hhand, ha]
      exact List.append_nil _
    · rw [hpublished, ha]
      rfl
  · rw [hr, Traced.trace_pure, List.append_nil, Traced.value_pure]
    refine @received_of_link m m.link _ _ _ rfl rfl hreads ?_ (fun _ => ?_) ?_
      (fun _ => ⟨hnot, fun _ _ _ hp => ?_⟩)
    · rw [hframed]
      exact hup _ rfl
    · rw [hframed, sentOn_singleton, he, hhand, ha]
      rfl
    · rw [hpublished, ha]
      rfl
    · cases hp
      exact Nat.lt_add_of_pos_right (by decide)
  · rw [hvalue]
    have hall : framed (m.receiver.buffer.consumeLine.shown.trace ++
        (m.route buffer line.kept chunk).trace) = [line] := by
      rw [framed_append, hframed, hfr, List.append_nil]
    refine received_of_link rfl rfl ?_ ?_ (fun _ => ?_) ?_
      (fun _ => ⟨?_, inTime_of_phase nofun⟩)
    · rw [reads_append, hreads, hrd, List.append_nil]
    · rw [hall]
      exact hup _ rfl
    · rw [hall, hhand, ha]
      rfl
    · rw [hall, published_append, hpublished, hpub, ha, sentOn_singleton, he]
      cases h : Urc.ofLine? line.kept <;> simp [h]
    · rw [List.mem_append, not_or]
      exact ⟨hnot, hno⟩

theorem received_draining {m : Modem} {chunk : List UInt8}
    (hphase : m.receiver.phase = .draining chunk) {x : Traced Output Modem}
    (h : m.receiveStep = some x) : Received m x.trace x.value := by
  simp only [receiveStep, hphase, Option.some.injEq] at h
  subst h
  have hhand : m.outstanding = m.link.replies :=
    outstanding_of_not_handing fun _ _ _ hp => by rw [hphase] at hp; cases hp
  rw [Traced.value_bind, Traced.trace_bind]
  cases hc : m.receiver.buffer.consumeLine.shown.value with
  | mk line? buffer =>
      have hc' : m.receiver.buffer.consumeLine.value = (line?, buffer) := hc
      cases line? with
      | some line => exact received_route hphase hc'
      | none =>
          have hnone : m.receiver.buffer.consumeLine.value.1 = none := by
            rw [hc']
          have hframed :
              framed m.receiver.buffer.consumeLine.shown.trace = [] := by
            rw [framed_consumeLine, hnone]
            rfl
          rw [Traced.trace_pure, List.append_nil, Traced.value_pure]
          refine @received_of_link m m.link _ _ _ rfl rfl
            (reads_consumeLine _) ?_ (fun _ => ?_) ?_ (fun _ =>
              ⟨replyNotTaken_consumeLine _, inTime_of_phase nofun⟩)
          · rw [hframed, Receiver.upcoming_of_draining hphase,
              LineBuffer.consumeLines_of_none hc']
            rfl
          · rw [hframed, hhand]
            cases m.link.awaiting <;> rfl
          · rw [hframed, published_consumeLine]
            cases m.link.awaiting <;> rfl

/-- A line that waits joins the queue as soon as there is space, whoever is
waiting by then. -/
theorem received_handing {m : Modem} {line : Line} {deadline : Nat}
    {chunk : List UInt8}
    (hphase : m.receiver.phase = .handing line deadline chunk)
    {x : Traced Output Modem} (h : m.receiveStep = some x) :
    Received m x.trace x.value := by
  have hup (phase : Receiver.Phase) (hp : phase = .draining chunk) :
      m.receiver.upcoming = (Receiver.mk m.receiver.buffer phase).upcoming := by
    rw [hp, Receiver.upcoming, hphase]
    rfl
  simp only [receiveStep, hphase] at h
  split at h
  · cases h
    rw [Traced.trace_pure, Traced.value_pure]
    refine received_of_link rfl rfl rfl (hup _ rfl) (fun _ => ?_) ?_
      (fun _ => ⟨List.not_mem_nil, inTime_of_phase nofun⟩)
    · rw [Modem.outstanding, Receiver.inHand, Receiver.inHand, hphase]
      cases m.link.awaiting <;> rfl
    · cases m.link.awaiting <;> rfl
  · split at h
    · next hdue =>
        cases h
        refine @received_of_link m m.link _ _ _ rfl rfl rfl (hup _ rfl)
          (fun hno => ?_) ?_ (fun hin => ?_)
        · exact absurd (List.mem_singleton.2 rfl) hno
        · cases m.link.awaiting <;> rfl
        · exact absurd (hin _ _ _ hphase) (Nat.not_lt.2 hdue)
    · cases h

theorem received_reading {m : Modem} (hphase : m.receiver.phase = .reading)
    {x : Traced Output Modem} (h : m.receiveStep = some x) :
    Received m x.trace x.value := by
  simp only [receiveStep, hphase] at h
  split at h
  · cases h
  · next rest _ =>
      cases h
      exact received_fault rest rfl rfl rfl (by simp [failRead])
  · next rest _ =>
      cases h
      exact received_fault rest rfl rfl rfl (by simp [failRead])
  · next data rest _ _ =>
      cases h
      exact received_piece hphase _ _

theorem received_step {m : Modem} {x : Traced Output Modem}
    (h : m.receiveStep = some x) :
    Received m x.trace x.value := by
  cases hphase : m.receiver.phase with
  | reading => exact received_reading hphase h
  | filling chunk => exact received_filling hphase h
  | draining chunk => exact received_draining hphase h
  | handing line deadline chunk => exact received_handing hphase h

/-- All that the receiver does in one turn. -/
theorem received_receive (m : Modem) :
    Received m m.receive.trace m.receive.value := by
  have h := @Traced.exhaust_induction _ _ receiveStep load
    load_receiveStep_lt (Received m)
    (fun outs m' x hm hx => hm.trans (received_step hx)) [] m (.refl m)
  exact h

theorem receiveStep_receive (m : Modem) : m.receive.value.receiveStep = none :=
  Traced.step_exhaust m

/-- A receiver that can do nothing waits for bytes, unless the queue
of lines is full. -/
theorem reading_of_receiveStep {m : Modem} (h : m.receiveStep = none)
    (hfew : m.link.replies.length < Link.maxReplies) :
    m.receiver.phase = .reading := by
  unfold receiveStep at h
  split at h
  · next hphase => exact hphase
  · cases h
  · cases h
  · rw [if_pos (show m.link.acceptsReply = true from decide_eq_true hfew)] at h
    cases h

theorem inHand_of_reading {r : Receiver} (h : r.phase = .reading) :
    r.inHand = [] := by
  rw [Receiver.inHand, h]

theorem length_inHand_le (r : Receiver) : r.inHand.length ≤ 1 := by
  unfold Receiver.inHand
  split
  · exact Nat.le_refl 1
  · exact Nat.zero_le 1
  · exact Nat.zero_le 1
  · exact Nat.zero_le 1

end Modem

end CellModem
