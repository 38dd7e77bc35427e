import CellModem.Modem

/-!
# The receiver's work

The receiver reads up to 64 bytes at a time, frames them into lines, and sends
every line on its way: to the command that is running, or else to the backlog if
it is a message. Lines go no further than the queue of a command that is slow,
so the receiver waits for space there, with the rest of its bytes in hand; after
five seconds it drops the line.

`receiveStep` is one small piece of this. Each piece brings the receiver
closer to the end of what there is (`load_receiveStep_lt`), so doing all of
them needs no other bound.
-/

namespace CellModem.Modem

/-- How long the receiver waits for space in the queue of received lines. -/
def handingTimeout : Nat := 5000

def setReceiver (m : Modem) (buffer : LineBuffer 512) (phase : Receiver.Phase) :
    Modem :=
  { m with receiver := ⟨buffer, phase⟩ }

def route (m : Modem) (buffer : LineBuffer 512) (line : Line)
    (chunk : List UInt8) : Traced Output Modem :=
  if line.isEmpty then pure (m.setReceiver buffer (.draining chunk))
  else if m.link.awaiting then
    if m.link.acceptsReply then
      pure ({ m with
        link := { m.link with replies := m.link.replies ++ [line] }
          }.setReceiver buffer (.draining chunk))
    else pure (m.setReceiver buffer
      (.handing line (m.now + handingTimeout) chunk))
  else do
    match ← (Urc.readLine line).shown with
    | some urc =>
      let link ← (m.link.publish urc).shown
      return { m with link := link }.setReceiver buffer (.draining chunk)
    | none =>
      Traced.report (.notice (.unknownLine line.bytes))
      return m.setReceiver buffer (.draining chunk)

def failRead (m : Modem) (rest : List Delivery) : Traced Output Modem := do
  Traced.report (.receiverFailed .serial)
  return { m with wire := rest }

/-- What is left on the wire when as much of `data` as fits has been read. -/
def remaining (data : List UInt8) (rest : List Delivery) : List Delivery :=
  if data.length ≤ Receiver.maxRead then rest
  else .bytes (data.drop Receiver.maxRead) :: rest

/-- One piece of the receiver's work; there is no result if it has to wait. -/
def receiveStep (m : Modem) : Option (Traced Output Modem) :=
  match m.receiver.phase with
  | .reading =>
    match m.wire with
    | [] => none
    | .fault :: rest => some (m.failRead rest)
    | .bytes [] :: rest => some do
      Traced.report (.notice .transportClosed)
      m.failRead rest
    | .bytes data :: rest => some do
      let chunk := data.take Receiver.maxRead
      Traced.report (.notice (.bytesRead chunk))
      return { m with wire := remaining data rest }.setReceiver
        m.receiver.buffer (.filling chunk)
  | .filling chunk => some do
    let (filled, buffer, chunk) ←
      (m.receiver.buffer.fill Channel.ofBytes chunk).shown
    match filled with
    | .data => return m.setReceiver buffer (.draining chunk)
    | .done => return m.setReceiver buffer .reading
  | .draining chunk => some do
    let (line?, buffer) ← m.receiver.buffer.consumeLine.shown
    match line? with
    | none => return m.setReceiver buffer (.filling chunk)
    | some line => m.route buffer line.kept chunk
  | .handing line deadline chunk =>
    if m.link.acceptsReply then
      some (pure ({ m with
        link := { m.link with replies := m.link.replies ++ [line] }
          }.setReceiver m.receiver.buffer (.draining chunk)))
    else if deadline ≤ m.now then some do
      Traced.report (.notice .replyNotTaken)
      return m.setReceiver m.receiver.buffer (.draining chunk)
    else none

/-! ### The work ends -/

def deliveryLoad : Delivery → Nat
  | .bytes data => 1 + 6 * data.length
  | .fault => 1

def wireLoad : List Delivery → Nat
  | [] => 0
  | d :: ds => deliveryLoad d + wireLoad ds

def phaseLoad : Receiver.Phase → Nat
  | .reading => 0
  | .filling chunk => 1 + 4 * chunk.length
  | .draining chunk => 2 + 4 * chunk.length
  | .handing _ _ chunk => 3 + 4 * chunk.length

/-- How many pieces of work are left for the receiver at most. -/
def load (m : Modem) : Nat :=
  wireLoad m.wire + phaseLoad m.receiver.phase + 2 * m.receiver.buffer.length

@[simp] theorem load_setReceiver (m : Modem) (buffer : LineBuffer 512)
    (phase : Receiver.Phase) : (m.setReceiver buffer phase).load =
      wireLoad m.wire + phaseLoad phase + 2 * buffer.length := rfl

theorem load_remaining (data : List UInt8) (rest : List Delivery)
    (h : data ≠ []) :
    wireLoad (remaining data rest) + 4 * (data.take Receiver.maxRead).length +
        1 <
      deliveryLoad (.bytes data) + wireLoad rest := by
  have hpos : 0 < data.length := List.length_pos_iff.2 h
  unfold remaining
  split <;> simp [wireLoad, deliveryLoad, Receiver.maxRead] at * <;> omega

theorem load_route_le (m : Modem) (buffer : LineBuffer 512) (line : Line)
    (chunk : List UInt8) : (m.route buffer line chunk).value.load ≤
      wireLoad m.wire + (3 + 4 * chunk.length) + 2 * buffer.length := by
  unfold route
  split
  · simp [phaseLoad]
  · split
    · split <;> simp [phaseLoad]
    · simp only [Traced.value_bind]
      split <;> simp [phaseLoad]

theorem length_consumeLine_le {b b' : LineBuffer 512}
    (h : b.consumeLine.value = (none, b')) : b'.length ≤ b.length := by
  unfold LineBuffer.consumeLine at h
  split at h
  · split at h <;> simp at h <;> subst h
    · simp [LineBuffer.length, LineBuffer.empty]
    · exact Nat.le_refl _
  · simp at h

theorem load_fill_lt (m : Modem) (chunk : List UInt8)
    (hphase : m.receiver.phase = .filling chunk) :
    (match (m.receiver.buffer.fill Channel.ofBytes chunk).value with
      | (.data, buffer, chunk) => m.setReceiver buffer (.draining chunk)
      | (.done, buffer, _) => m.setReceiver buffer .reading).load < m.load := by
  rw [LineBuffer.value_fill_ofBytes]
  split
  · next h =>
    split at h
    · cases h
    · next hsome =>
      obtain ⟨-, rfl, rfl⟩ := Prod.mk.injEq .. ▸ h
      simp only [load_setReceiver]
      simp only [load, hphase, phaseLoad, LineBuffer.length,
        LineBuffer.pending_append, List.length_append, List.length_take,
        List.length_drop]
      simp only [not_or] at hsome
      have : chunk.length ≠ 0 := by simpa using hsome.2
      omega
  · next h =>
    split at h
    · obtain ⟨-, rfl, rfl⟩ := Prod.mk.injEq .. ▸ h
      simp only [load_setReceiver]
      simp only [load, hphase, phaseLoad]
      omega
    · cases h

/-- Every piece of work leaves less to do. -/
theorem load_receiveStep_lt (m : Modem) (x : Traced Output Modem)
    (h : m.receiveStep = some x) : x.value.load < m.load := by
  unfold receiveStep at h
  split at h
  · next hphase =>
    split at h
    · cases h
    · next rest hwire =>
      cases h
      simp [failRead, load, hwire, wireLoad, deliveryLoad]
    · next rest hwire =>
      cases h
      simp [failRead, load, hwire, wireLoad, deliveryLoad]
    · next data rest hne hwire =>
      cases h
      have := load_remaining data rest fun hd => hne hd
      simp only [Traced.value_bind, Traced.value_pure, load_setReceiver]
      simp only [load, hwire, hphase, phaseLoad, wireLoad]
      omega
  · next chunk hphase =>
    cases h
    have hlt := load_fill_lt m chunk hphase
    simp only [Logged.shown, Traced.value_bind, Traced.value_mapTrace]
    generalize (m.receiver.buffer.fill Channel.ofBytes chunk).value = r at hlt ⊢
    obtain ⟨filled, buffer, rest⟩ := r
    cases filled <;> exact hlt
  · next chunk hphase =>
    cases h
    simp only [Logged.shown, Traced.value_bind, Traced.value_mapTrace]
    cases hc : m.receiver.buffer.consumeLine.value with
    | mk line? buffer =>
      cases line? with
      | none =>
        have := length_consumeLine_le hc
        simp only [Traced.value_pure, load_setReceiver]
        simp only [load, hphase, phaseLoad]
        omega
      | some line =>
        have h₁ := LineBuffer.length_consumeLine_lt hc
        have h₂ := load_route_le m buffer line.kept chunk
        simp only [load, hphase, phaseLoad] at h₂ ⊢
        omega
  · next line deadline chunk hphase =>
    split at h
    · cases h
      simp only [Traced.value_pure, load_setReceiver]
      simp only [load, hphase, phaseLoad]
      omega
    · split at h
      · cases h
        simp only [Traced.value_bind, Traced.value_pure, load_setReceiver]
        simp only [load, hphase, phaseLoad]
        omega
      · cases h

/-- All of the receiver's work that can be done now. -/
def receive (m : Modem) : Traced Output Modem :=
  Traced.exhaust receiveStep load load_receiveStep_lt m

end CellModem.Modem
