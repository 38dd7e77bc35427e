import CellModem.Proofs.Outputs
import Mathlib.Logic.Relation

/-!
# Nothing is lost between the wire and the buffer

The receiver has bytes in hand from the moment it has read them to the moment
they are in its buffer, and it goes back to the wire only when the buffer takes
no more of them. That would lose what is left if the buffer were ever full. It
never is: the receiver takes all complete lines out before it fills the buffer
again, and what remains is the beginning of one line, which is dropped when it
takes up more than half of the space. So the receiver goes back to the wire with
empty hands (`Stepped.held_eq_nil`), whatever else happens to the modem, and a
read that fails finds it that way.

All of this is read off the list of what one piece of the receiver's work
can be (`Stepped`).
-/

namespace CellModem

/-- The bytes that a delivery brings. -/
def Delivery.content : Delivery → List UInt8
  | .bytes data => data
  | .fault => []

/-- The bytes on the wire. -/
def wireBytes (ds : List Delivery) : List UInt8 := ds.flatMap Delivery.content

/-- How many reads will fail of what is on the wire. -/
def wireFailures (ds : List Delivery) : Nat := ds.countP (·.content.isEmpty)

def Output.readFailure? : Output → Option Failure
  | .receiverFailed failure => some failure
  | _ => none

/-- The failed reads that were reported. -/
def readFailures (outs : List Output) : List Failure :=
  outs.filterMap Output.readFailure?

namespace Receiver

/-- The bytes that were read and are not in the buffer. -/
def Phase.held : Phase → List UInt8
  | .reading => []
  | .filling chunk | .draining chunk | .handing _ _ chunk => chunk

/-- Whether all complete lines are out of the buffer. -/
def Phase.isDrained : Phase → Bool
  | .reading | .filling _ => true
  | .draining _ | .handing _ _ _ => false

/-- The bytes that were read and are not framed. -/
def unframed (r : Receiver) : List UInt8 := r.buffer.pending ++ r.phase.held

/-- Whether what remains in a drained buffer is the beginning of a line,
and leaves space. -/
def Tidy (r : Receiver) : Prop :=
  r.phase.isDrained = true →
    Unbroken r.buffer.pending ∧ r.buffer.pending.length ≤ LineBuffer.maxLine 512

end Receiver

/-- What arrives on the wire in a happening. -/
def Happening.arrival : Happening → List Delivery
  | .action (.arrive data) => if data.isEmpty then [] else [.bytes data]
  | .action .failRead => [.fault]
  | .action .close => [.bytes []]
  | .action _ | .turn _ => []

/-- What arrives on the wire in a history. -/
def arrivals (hs : List Happening) : List Delivery :=
  hs.flatMap Happening.arrival

theorem readFailures_append (xs ys : List Output) :
    readFailures (xs ++ ys) = readFailures xs ++ readFailures ys :=
  List.filterMap_append

theorem readFailures_shown {α : Type} (x : Logged α) :
    readFailures x.shown.trace = [] := by
  rw [readFailures, Logged.shown, Traced.trace_mapTrace, List.filterMap_map]
  exact List.filterMap_eq_nil_iff.2 fun _ _ => rfl

theorem wireBytes_append (ds es : List Delivery) :
    wireBytes (ds ++ es) = wireBytes ds ++ wireBytes es :=
  List.flatMap_append

theorem wireFailures_append (ds es : List Delivery) :
    wireFailures (ds ++ es) = wireFailures ds + wireFailures es :=
  List.countP_append

/-- What is read of a delivery and what is left of it are all of it. -/
theorem wireBytes_remaining (data : List UInt8) (rest : List Delivery) :
    data.take Receiver.maxRead ++ wireBytes (Modem.remaining data rest) =
      data ++ wireBytes rest := by
  unfold Modem.remaining
  split
  · next hall => rw [List.take_of_length_le hall]
  · show data.take _ ++ (data.drop _ ++ wireBytes rest) = _
    rw [← List.append_assoc, List.take_append_drop]

theorem wireFailures_remaining {data : List UInt8} (hdata : data ≠ [])
    (rest : List Delivery) :
    wireFailures (Modem.remaining data rest) =
      wireFailures (.bytes data :: rest) := by
  have hcons {bytes : List UInt8} (hne : bytes ≠ []) :
      wireFailures (.bytes bytes :: rest) = wireFailures rest :=
    List.countP_cons_of_neg (by simpa [Delivery.content] using hne)
  rw [hcons hdata]
  unfold Modem.remaining
  split
  · rfl
  · next hmore => exact hcons fun hnil => hmore (List.drop_eq_nil_iff.1 hnil)

namespace Modem

/-! ## One piece of work -/

/-- All that one piece of the receiver's work can be. -/
inductive Stepped (m : Modem) : List Output → Modem → Prop
  /-- A read fails. -/
  | fail {d : Delivery} {rest : List Delivery} {outs : List Output} :
      m.receiver.phase = .reading → m.wire = d :: rest → d.content = [] →
      CellModem.published outs = [] → readFailures outs = [.serial] →
      Stepped m outs { m with wire := rest }
  | read {data : List UInt8} {rest : List Delivery} {outs : List Output} :
      m.receiver.phase = .reading → m.wire = .bytes data :: rest → data ≠ [] →
      CellModem.published outs = [] → readFailures outs = [] →
      Stepped m outs ({ m with wire := remaining data rest }.setReceiver
        m.receiver.buffer (.filling (data.take Receiver.maxRead)))
  /-- The buffer takes no more. -/
  | stop {chunk : List UInt8} {outs : List Output} :
      m.receiver.phase = .filling chunk →
      m.receiver.buffer.room = 0 ∨ chunk = [] → CellModem.published outs = [] →
      readFailures outs = [] →
      Stepped m outs (m.setReceiver m.receiver.buffer .reading)
  | fill {chunk : List UInt8} {outs : List Output} :
      m.receiver.phase = .filling chunk →
      CellModem.published outs = [] → readFailures outs = [] →
      Stepped m outs (m.setReceiver (m.receiver.buffer.append chunk)
        (.draining (chunk.drop m.receiver.buffer.room)))
  /-- There is no complete line. -/
  | drained {chunk : List UInt8} {buffer : LineBuffer 512}
      {outs : List Output} :
      m.receiver.phase = .draining chunk → m.receiver.buffer.consumeLine.value =
      (none, buffer) → CellModem.published outs = [] → readFailures outs = [] →
      Stepped m outs (m.setReceiver buffer (.filling chunk))
  | frame {chunk : List UInt8} {line : Line} {link : Link}
      {buffer : LineBuffer 512} {phase : Receiver.Phase} {outs : List Output} :
      m.receiver.phase = .draining chunk →
      m.receiver.buffer.consumeLine.value = (some line, buffer) →
      phase.held = chunk → phase.isDrained = false →
      link.awaiting = m.link.awaiting →
      link.urcs = (CellModem.published outs).foldl Backlog.push m.link.urcs →
        (m.link.awaiting = false → link.replies = m.link.replies ∧
          phase = .draining chunk ∧
          CellModem.published outs = (sentOn [line]).filterMap Urc.ofLine?) →
      readFailures outs = [] →
      Stepped m outs ({ m with link := link }.setReceiver buffer phase)
  /-- A line leaves the receiver's hand for the queue. -/
  | hand {line : Line} {deadline : Nat} {chunk : List UInt8}
      {outs : List Output} : m.receiver.phase = .handing line deadline chunk →
      CellModem.published outs = [] → readFailures outs = [] →
      Stepped m outs ({ m with
        link := { m.link with replies := m.link.replies ++ [line] }
          }.setReceiver m.receiver.buffer (.draining chunk))
  /-- A line is given up. -/
  | drop {line : Line} {deadline : Nat} {chunk : List UInt8}
      {outs : List Output} : m.receiver.phase = .handing line deadline chunk →
      CellModem.published outs = [] → readFailures outs = [] →
      Stepped m outs (m.setReceiver m.receiver.buffer (.draining chunk))

variable {m m' : Modem} {outs : List Output}

theorem stepped_reading (hphase : m.receiver.phase = .reading)
    {x : Traced Output Modem} (h : m.receiveStep = some x) :
    Stepped m x.trace x.value := by
  simp only [receiveStep, hphase] at h
  split at h
  · cases h
  · next hwire =>
      cases h
      exact .fail hphase hwire rfl rfl rfl
  · next hwire =>
      cases h
      exact .fail hphase hwire rfl rfl rfl
  · next data rest hdata hwire =>
      cases h
      exact .read hphase hwire (fun hnil => hdata hnil) rfl rfl

theorem stepped_filling {chunk : List UInt8}
    (hphase : m.receiver.phase = .filling chunk) {x : Traced Output Modem}
    (h : m.receiveStep = some x) : Stepped m x.trace x.value := by
  simp only [receiveStep, hphase, Option.some.injEq] at h
  subst h
  have hpublished : CellModem.published
      (m.receiver.buffer.fill Channel.ofBytes chunk).shown.trace = [] := by
    rw [CellModem.published, tells_shown, filterMap_fill rfl]
  have hfailures :=
    readFailures_shown (m.receiver.buffer.fill Channel.ofBytes chunk)
  have hvalue :
      (m.receiver.buffer.fill Channel.ofBytes chunk).shown.value = _ :=
    m.receiver.buffer.value_fill_ofBytes chunk
  rw [Traced.value_bind, Traced.trace_bind, hvalue]
  by_cases hnone : m.receiver.buffer.room = 0 ∨ chunk = []
  · rw [if_pos hnone, Traced.trace_pure, List.append_nil, Traced.value_pure]
    exact .stop hphase hnone hpublished hfailures
  · rw [if_neg hnone, Traced.trace_pure, List.append_nil, Traced.value_pure]
    exact .fill hphase hpublished hfailures

theorem readFailures_route (m : Modem) (buffer : LineBuffer 512) (line : Line)
    (chunk : List UInt8) :
    readFailures (m.route buffer line chunk).trace = [] := by
  unfold route
  split
  · rfl
  · split
    · split <;> rfl
    · rw [Traced.trace_bind, readFailures_append, readFailures_shown]
      cases (Urc.readLine line).shown.value with
      | none => rfl
      | some urc =>
          show readFailures ((m.link.publish urc).shown.trace ++ []) = []
          rw [List.append_nil, readFailures_shown]

/-- A line that is taken out of the buffer is empty, or for the queue, or taken
in hand, or not for a command. -/
theorem stepped_route {chunk : List UInt8} {buffer : LineBuffer 512}
    {line : Line} (hphase : m.receiver.phase = .draining chunk)
    (hline : m.receiver.buffer.consumeLine.value = (some line, buffer)) :
    Stepped m (m.receiver.buffer.consumeLine.shown.trace ++
        (m.route buffer line.kept chunk).trace)
      (m.route buffer line.kept chunk).value := by
  have hpublished := published_consumeLine m.receiver.buffer
  have hfailures := readFailures_shown m.receiver.buffer.consumeLine
  rcases m.route_cases buffer line.kept chunk with
      ⟨he, hr⟩ | ⟨_, ha, hr⟩ | ⟨_, ha, hr⟩ | ⟨he, _, hvalue, hpub, _⟩
  · rw [hr, Traced.trace_pure, List.append_nil, Traced.value_pure]
    refine @Stepped.frame m chunk line m.link _ _ _ hphase hline rfl rfl rfl ?_
      (fun _ => ⟨rfl, rfl, ?_⟩) hfailures
    · rw [hpublished]
      rfl
    · rw [hpublished, sentOn_singleton, he]
      rfl
  · rw [hr, Traced.trace_pure, List.append_nil, Traced.value_pure]
    refine .frame hphase hline rfl rfl rfl ?_ (fun hno => ?_) hfailures
    · rw [hpublished]
      rfl
    · rw [hno] at ha
      cases ha
  · rw [hr, Traced.trace_pure, List.append_nil, Traced.value_pure]
    refine @Stepped.frame m chunk line m.link _ _ _ hphase hline rfl rfl rfl ?_
      (fun hno => ?_) hfailures
    · rw [hpublished]
      rfl
    · rw [hno] at ha
      cases ha
  · have hall : CellModem.published
        (m.receiver.buffer.consumeLine.shown.trace ++
          (m.route buffer line.kept chunk).trace) =
        (Urc.ofLine? line.kept).toList := by
      rw [published_append, hpublished, hpub]
      rfl
    have hfail : readFailures (m.receiver.buffer.consumeLine.shown.trace ++
        (m.route buffer line.kept chunk).trace) = [] := by
      rw [readFailures_append, hfailures, readFailures_route]
      rfl
    rw [hvalue]
    refine .frame hphase hline rfl rfl rfl ?_ (fun _ => ⟨rfl, rfl, ?_⟩) hfail
    · rw [hall]
      rfl
    · rw [hall, sentOn_singleton, he]
      cases h : Urc.ofLine? line.kept <;> simp [h]

theorem stepped_draining {chunk : List UInt8}
    (hphase : m.receiver.phase = .draining chunk) {x : Traced Output Modem}
    (h : m.receiveStep = some x) : Stepped m x.trace x.value := by
  simp only [receiveStep, hphase, Option.some.injEq] at h
  subst h
  rw [Traced.value_bind, Traced.trace_bind]
  cases hc : m.receiver.buffer.consumeLine.shown.value with
  | mk line? buffer =>
      have hline : m.receiver.buffer.consumeLine.value = (line?, buffer) := hc
      cases line? with
      | none =>
          rw [Traced.trace_pure, List.append_nil, Traced.value_pure]
          exact .drained hphase hline (published_consumeLine _)
            (readFailures_shown _)
      | some line => exact stepped_route hphase hline

theorem stepped_handing {line : Line} {deadline : Nat} {chunk : List UInt8}
    (hphase : m.receiver.phase = .handing line deadline chunk)
    {x : Traced Output Modem} (h : m.receiveStep = some x) :
    Stepped m x.trace x.value := by
  simp only [receiveStep, hphase] at h
  split at h
  · cases h
    exact .hand hphase rfl rfl
  · split at h
    · cases h
      exact .drop hphase rfl rfl
    · cases h

theorem stepped_receiveStep {x : Traced Output Modem}
    (h : m.receiveStep = some x) :
    Stepped m x.trace x.value := by
  cases hphase : m.receiver.phase with
  | reading => exact stepped_reading hphase h
  | filling chunk => exact stepped_filling hphase h
  | draining chunk => exact stepped_draining hphase h
  | handing line deadline chunk => exact stepped_handing hphase h

/-! ## A buffer that is never full -/

theorem Stepped.tidy (h : Stepped m outs m') (ht : m.receiver.Tidy) :
    m'.receiver.Tidy := by
  cases h with
  | fail _ _ _ _ _ => exact ht
  | read hphase _ _ _ _ => exact fun _ => ht (by rw [hphase]; rfl)
  | stop hphase _ _ _ => exact fun _ => ht (by rw [hphase]; rfl)
  | fill _ _ _ =>
      intro hdrained
      cases hdrained
  | drained hphase hline _ _ =>
      intro _
      rcases m.receiver.buffer.consumeLine_cases with
          ⟨_, _, hv⟩ | ⟨hun, hlen, hv⟩ | ⟨_, _, _, _, _, _, _, hv⟩
      · -- An overlong beginning was dropped.
        rw [hline] at hv
        cases hv
        exact ⟨fun _ hb => absurd hb List.not_mem_nil, Nat.zero_le _⟩
      · rw [hline] at hv
        cases hv
        exact ⟨hun, hlen⟩
      · rw [hline] at hv
        cases hv
  | frame _ _ _ hbusy _ _ _ _ =>
      intro hdrained
      cases hbusy.symm.trans hdrained
  | hand _ _ _ =>
      intro hdrained
      cases hdrained
  | drop _ _ _ =>
      intro hdrained
      cases hdrained

/-- The receiver goes back to the wire when nothing is left of
what it has read. -/
theorem Stepped.held_eq_nil (h : Stepped m outs m') (ht : m.receiver.Tidy)
    (hphase' : m'.receiver.phase = .reading) :
    m.receiver.phase.held = [] ∧ m'.receiver.buffer = m.receiver.buffer := by
  cases h with
  | fail hphase _ _ _ _ => exact ⟨by rw [hphase]; rfl, rfl⟩
  | read _ _ _ _ _ => cases hphase'
  | stop hphase hnone _ _ =>
      -- No more than half of the space is taken, so the buffer took
      -- all that was offered.
      obtain ⟨_, hlen⟩ := ht (by rw [hphase]; rfl)
      have hroom : m.receiver.buffer.room ≠ 0 := by
        have hhalf : LineBuffer.maxLine 512 = 256 := rfl
        rw [LineBuffer.room, LineBuffer.length]
        omega
      refine ⟨?_, rfl⟩
      rw [hphase]
      exact hnone.resolve_left hroom
  | fill _ _ _ => cases hphase'
  | drained _ _ _ _ => cases hphase'
  | @frame _ _ _ _ phase _ _ _ _ hbusy _ _ _ _ =>
      have hreading : phase = .reading := hphase'
      rw [hreading] at hbusy
      cases hbusy
  | hand _ _ _ => cases hphase'
  | drop _ _ _ => cases hphase'

/-- What comes about when the receiver does some pieces of work, and no
others do anything. -/
def Advanced : Modem → Modem → Prop :=
  Relation.ReflTransGen fun m m' => ∃ x, m.receiveStep = some x ∧ x.value = m'

theorem tidy_receive (ht : m.receiver.Tidy) : m.receive.value.receiver.Tidy :=
  @Traced.exhaust_induction _ _ receiveStep load load_receiveStep_lt
    (fun _ m => m.receiver.Tidy)
    (fun _ _ _ ht hx => (stepped_receiveStep hx).tidy ht) [] m ht

theorem Advanced.tidy (h : Advanced m m') (ht : m.receiver.Tidy) :
    m'.receiver.Tidy := by
  induction h with
  | refl => exact ht
  | tail _ hstep ih =>
      obtain ⟨x, hx, rfl⟩ := hstep
      exact (stepped_receiveStep hx).tidy ih

/-! ## Everybody else leaves the receiver alone -/

theorem wire_transmit (m : Modem) :
    m.transmit.value.receiver = m.receiver ∧
    m.transmit.value.wire = m.wire := by
  refine transmit_induction (motive := fun _ m' => m'.receiver = m.receiver ∧
    m'.wire = m.wire) ?_ ⟨rfl, rfl⟩
  intro _ m' _ m'' hsending h
  cases hsending <;> exact h

theorem wire_listen (times : Nat) (m : Modem) :
    (listen times m).value.receiver = m.receiver ∧
    (listen times m).value.wire = m.wire := by
  induction times generalizing m with
  | zero => exact ⟨rfl, rfl⟩
  | succ times ih => exact ih _

/-- Only the receiver takes anything from the wire, and what
arrives comes last. -/
theorem wire_happen {x : Happening} (hx : x ≠ .turn .receiver) :
    (m.happen x).value.receiver = m.receiver ∧
      (m.happen x).value.wire = m.wire ++ x.arrival := by
  have hnone {m' : Modem} (h : m'.receiver = m.receiver ∧ m'.wire = m.wire) :
      m'.receiver = m.receiver ∧ m'.wire = m.wire ++ [] := by
    rw [List.append_nil]
    exact h
  cases x with
  | action a =>
      cases a with
      | begin job =>
          refine hnone ?_
          show (m.begin job).value.receiver = _ ∧ (m.begin job).value.wire = _
          rw [value_begin]
          exact ⟨rfl, rfl⟩
      | arrive data =>
          rw [happen, act, Traced.value_pure, Happening.arrival]
          split
          · exact hnone ⟨rfl, rfl⟩
          · exact ⟨rfl, rfl⟩
      | failRead => exact ⟨rfl, rfl⟩
      | close => exact ⟨rfl, rfl⟩
      | cancel id => exact hnone ⟨rfl, rfl⟩
      | setTransmitting on => exact hnone ⟨rfl, rfl⟩
      | setWriter w => exact hnone ⟨rfl, rfl⟩
      | wake => exact hnone ⟨rfl, rfl⟩
      | wait ms => exact hnone ⟨rfl, rfl⟩
      | listen times => exact hnone (wire_listen times m)
  | turn p =>
      refine hnone ?_
      cases p with
      | receiver => exact absurd rfl hx
      | transmitter =>
          rw [happen_transmitter]
          exact wire_transmit m
      | task id => exact ⟨(m.sameEnds_task id).receiver,
          (m.sameEnds_task id).wire⟩

theorem tidy_follow (hs : List Happening) :
    (idle.follow hs).value.receiver.Tidy := by
  refine @follow_induction (fun _ m => m.receiver.Tidy) ?_ hs [] idle
    fun _ => ⟨fun _ hb => absurd hb List.not_mem_nil, Nat.zero_le _⟩
  intro _ m x ht
  by_cases hx : x = .turn .receiver
  · rw [hx, happen_receiver]
    exact tidy_receive ht
  · rw [(wire_happen hx).1]
    exact ht

/-! ## Every failure is reported once -/

/-- Whether the failed reads that were reported are those that are
gone from the wire. -/
def Failed (m : Modem) (arrived : List Delivery) (outs : List Output)
    (m' : Modem) : Prop :=
  ∃ n, readFailures outs = List.replicate n .serial ∧
    n + wireFailures m'.wire = wireFailures (m.wire ++ arrived)

theorem Failed.trans {m'' : Modem} {arrived arrived' : List Delivery}
    {outs' : List Output} (h : Failed m arrived outs m')
    (h' : Failed m' arrived' outs' m'') :
    Failed m (arrived ++ arrived') (outs ++ outs') m'' := by
  obtain ⟨n, hn, hwire⟩ := h
  obtain ⟨k, hk, hwire'⟩ := h'
  refine ⟨n + k, ?_, ?_⟩
  · rw [readFailures_append, hn, hk, List.replicate_append_replicate]
  · simp only [wireFailures_append] at hwire hwire' ⊢
    omega

theorem failed_nil {arrived : List Delivery}
    (hfailures : readFailures outs = [])
    (hwire : wireFailures m'.wire = wireFailures (m.wire ++ arrived)) :
    Failed m arrived outs m' :=
  ⟨0, hfailures, by rw [Nat.zero_add, hwire]⟩

theorem Stepped.failed (h : Stepped m outs m') : Failed m [] outs m' := by
  cases h with
  | @fail d rest _ _ hwire hd _ hfailures =>
      have hcount : wireFailures (d :: rest) = wireFailures rest + 1 :=
        List.countP_cons_of_pos (by rw [hd]; rfl)
      refine ⟨1, hfailures, ?_⟩
      rw [List.append_nil, hwire, hcount]
      exact Nat.add_comm _ _
  | read _ hwire hdata _ hfailures =>
      refine failed_nil hfailures ?_
      rw [List.append_nil, hwire]
      exact wireFailures_remaining hdata _
  | stop _ _ _ hfailures =>
      exact failed_nil hfailures (by rw [List.append_nil]; rfl)
  | fill _ _ hfailures =>
      exact failed_nil hfailures (by rw [List.append_nil]; rfl)
  | drained _ _ _ hfailures =>
      exact failed_nil hfailures (by rw [List.append_nil]; rfl)
  | frame _ _ _ _ _ _ _ hfailures =>
      exact failed_nil hfailures (by rw [List.append_nil]; rfl)
  | hand _ _ hfailures =>
      exact failed_nil hfailures (by rw [List.append_nil]; rfl)
  | drop _ _ hfailures =>
      exact failed_nil hfailures (by rw [List.append_nil]; rfl)

theorem failed_happen (m : Modem) (x : Happening) :
    Failed m x.arrival (m.happen x).trace (m.happen x).value := by
  by_cases hx : x = .turn .receiver
  · rw [hx, happen_receiver]
    exact @Traced.exhaust_induction _ _ receiveStep load
      load_receiveStep_lt (Failed m [])
      (fun outs m' y h hy => h.trans (stepped_receiveStep hy).failed)
      [] m (failed_nil rfl (by rw [List.append_nil]))
  · refine failed_nil (@filterMap_happen .receiver _ _ (fun o ho =>
      ?_) m _ ?_) ?_
    · cases o <;> first | rfl | cases ho
    · exact fun hsource => hx (Happening.eq_of_receiver hsource)
    · rw [(wire_happen hx).2]

theorem failed_follow (m : Modem) (hs : List Happening) :
    Failed m (arrivals hs) (m.follow hs).trace (m.follow hs).value := by
  induction hs generalizing m with
  | nil =>
      refine failed_nil rfl ?_
      rw [arrivals, List.flatMap_nil, List.append_nil]
      rfl
  | cons x hs ih => exact (failed_happen m x).trans (ih _)

end Modem

end CellModem
