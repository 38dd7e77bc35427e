import CellModem.LineBuffer

/-!
# Framing loses only overlong lines

Whoever uses a line buffer may fill it and take lines out of it in any order,
and the channel may give its bytes in pieces of any size. None of that shows in
the lines. Cut the bytes that came off the channel at every end of line: the
stretches in between are the lines that were handed out, followed by what still
waits in the buffer. Only a stretch longer than half of the capacity can come
out shorter, and then it is its beginning that is missing.

The invariant splits the bytes taken so far into three parts: those of
lines that are settled, which stop right behind an end of line; those that
were dropped from the line in progress; and those that are pending.
Dropping needs more than half a buffer without an end of line, so the
dropped part is either empty or too long all by itself, and an overlong
line cannot touch its neighbours.
-/

namespace CellModem

/-! ## Bytes between ends of line -/

/-- The stretches of bytes between ends of line, in order. Empty
ones do not count. -/
def stretches (bytes : List UInt8) : List (List UInt8) :=
  (bytes.splitOnP isLineEnd).filter (!·.isEmpty)

/-- Whether bytes stop right behind an end of line, or before
any byte at all. -/
def Terminated (bytes : List UInt8) : Prop :=
  ∀ b ∈ bytes.getLast?, isLineEnd b = true

/-- Whether bytes hold no end of line. -/
def Unbroken (bytes : List UInt8) : Prop := ∀ b ∈ bytes, isLineEnd b = false

theorem terminated_nil : Terminated [] := by
  intro b hb
  simp at hb

theorem terminated_append {xs ends : List UInt8} (hne : ends ≠ [])
    (hends : ∀ b ∈ ends, isLineEnd b = true) : Terminated (xs ++ ends) := by
  intro b hb
  have hlast : (xs ++ ends).getLast? = ends.getLast? := by
    obtain ⟨e, he⟩ :=
      Option.ne_none_iff_exists'.1 (mt List.getLast?_eq_none_iff.1 hne)
    rw [List.getLast?_append, he, Option.some_or]
  rw [hlast] at hb
  exact hends b (List.mem_of_getLast? hb)

theorem Unbroken.append {xs ys : List UInt8} (hx : Unbroken xs)
    (hy : Unbroken ys) :
    Unbroken (xs ++ ys) := by
  intro b hb
  rcases List.mem_append.1 hb with h | h
  · exact hx b h
  · exact hy b h

theorem stretches_nil : stretches [] = [] := rfl

theorem stretches_of_unbroken {bytes : List UInt8} (h : Unbroken bytes) :
    stretches bytes = if bytes = [] then [] else [bytes] := by
  rw [stretches, List.splitOnP_eq_singleton h]
  cases bytes <;> rfl

theorem stretches_append_cons {xs ys : List UInt8} {e : UInt8}
    (he : isLineEnd e = true) :
    stretches (xs ++ e :: ys) = stretches xs ++ stretches ys := by
  rw [stretches, List.splitOnP_append_cons xs ys he, List.filter_append]
  rfl

theorem stretches_append {xs ys : List UInt8} (h : Terminated xs) :
    stretches (xs ++ ys) = stretches xs ++ stretches ys := by
  rcases List.eq_nil_or_concat xs with rfl | ⟨zs, e, rfl⟩
  · rfl
  · have he : isLineEnd e = true := h e (by simp)
    rw [List.concat_eq_append, List.append_assoc, List.singleton_append]
    rw [stretches_append_cons he, stretches_append_cons he, stretches_nil,
      List.append_nil]

theorem stretches_cons {ys : List UInt8} {e : UInt8} (he : isLineEnd e = true) :
    stretches (e :: ys) = stretches ys :=
  @stretches_append_cons [] ys e he

theorem stretches_ends {ends : List UInt8}
    (h : ∀ b ∈ ends, isLineEnd b = true) :
    stretches ends = [] := by
  induction ends with
  | nil => rfl
  | cons e ends ih =>
      rw [stretches_cons (h e List.mem_cons_self)]
      exact ih fun b hb => h b (List.mem_cons_of_mem e hb)

/-- A text up to an end of line, or to the end of all, is a stretch
unless it is empty. -/
theorem stretches_text {text rest : List UInt8} (ht : Unbroken text)
    (hrest : ∀ b ∈ rest.head?, isLineEnd b = true) :
    stretches (text ++ rest) =
      (if text = [] then [] else [text]) ++ stretches rest := by
  cases rest with
  | nil => rw [List.append_nil, stretches_of_unbroken ht, stretches_nil,
      List.append_nil]
  | cons e rest =>
      have he : isLineEnd e = true := hrest e rfl
      rw [stretches_append_cons he, stretches_of_unbroken ht, stretches_cons he]

/-- Lines that are what is left of the stretches: a stretch within the
limit is there as it was, and a longer one may have lost its beginning,
or all of itself. -/
inductive Trimmed (limit : Nat) : List (List UInt8) → List (List UInt8) → Prop
  | nil : Trimmed limit [] []
  | whole {s ss ls} : Trimmed limit ss ls → Trimmed limit (s :: ss) (s :: ls)
  | cut {s l ss ls} :
      limit < s.length → l <:+ s → l ≠ [] → Trimmed limit ss ls →
      Trimmed limit (s :: ss) (l :: ls)
  | lost {s ss ls} :
      limit < s.length → Trimmed limit ss ls → Trimmed limit (s :: ss) ls

theorem Trimmed.append {limit : Nat} {ss ls ss' ls' : List (List UInt8)}
    (h : Trimmed limit ss ls) (h' : Trimmed limit ss' ls') :
    Trimmed limit (ss ++ ss') (ls ++ ls') := by
  induction h with
  | nil => exact h'
  | whole _ ih => exact .whole ih
  | cut hlen hs hne _ ih => exact .cut hlen hs hne ih
  | lost hlen _ ih => exact .lost hlen ih

theorem Trimmed.refl {limit : Nat} (ss : List (List UInt8)) :
    Trimmed limit ss ss := by
  induction ss with
  | nil => exact .nil
  | cons s ss ih => exact .whole ih

theorem Trimmed.eq_of_short {limit : Nat} {ss ls : List (List UInt8)}
    (h : Trimmed limit ss ls) (hshort : ∀ s ∈ ss, s.length ≤ limit) :
    ls = ss := by
  induction h with
  | nil => rfl
  | whole _ ih => rw [ih fun s hs => hshort s (List.mem_cons_of_mem _ hs)]
  | cut hlen _ _ _ _ => exact absurd (hshort _ List.mem_cons_self) (by omega)
  | lost hlen _ _ => exact absurd (hshort _ List.mem_cons_self) (by omega)

/-- What is left of one unbroken text when all that came before
`text` was dropped. -/
theorem trimmed_dropped {limit : Nat} {lost text : List UInt8}
    (hlost : lost = [] ∨ limit < lost.length) :
    Trimmed limit (if lost ++ text = [] then [] else [lost ++ text])
      (if text = [] then [] else [text]) := by
  rcases hlost with rfl | hlong
  · exact .refl _
  · have hlen : limit < (lost ++ text).length := by
      rw [List.length_append]; omega
    have hne : lost ++ text ≠ [] := by
      intro h
      rw [h, List.length_nil] at hlen
      omega
    rw [if_neg hne]
    split
    · exact .lost hlen .nil
    · next ht => exact .cut hlen (List.suffix_append lost text) ht .nil

/-! ## One call -/

namespace LineBuffer

variable {capacity : Nat}

theorem head_append_tail (b : LineBuffer capacity) :
    b.head ++ b.tail = b.pending :=
  List.takeWhile_append_dropWhile

theorem unbroken_head (b : LineBuffer capacity) : Unbroken b.head := by
  intro c hc
  simpa using List.all_eq_true.1 List.all_takeWhile c hc

theorem isLineEnd_head?_tail (b : LineBuffer capacity) :
    ∀ c ∈ b.tail.head?, isLineEnd c = true := by
  intro c hc
  have h := List.head?_dropWhile_not (!isLineEnd ·) b.pending
  rw [show b.pending.dropWhile (!isLineEnd ·) = b.tail from rfl,
    Option.mem_def.1 hc] at h
  simpa using h

/-- All that taking a line out of a buffer can do: drop an overlong beginning,
leave a short one alone, or hand out the text before the first ends of line and
take these away with it. -/
theorem consumeLine_cases (b : LineBuffer capacity) :
    (Unbroken b.pending ∧ maxLine capacity < b.pending.length ∧
      b.consumeLine.value = (none, empty)) ∨
    (Unbroken b.pending ∧ b.pending.length ≤ maxLine capacity ∧
      b.consumeLine.value = (none, b)) ∨
    ∃ text ends b', b.pending = text ++ ends ++ b'.pending ∧
      Unbroken text ∧ ends ≠ [] ∧ (∀ e ∈ ends, isLineEnd e = true) ∧
      b.consumeLine.value = (some ⟨text⟩, b') := by
  have hsplit := b.head_append_tail
  cases htail : b.tail with
  | nil =>
      rw [htail, List.append_nil] at hsplit
      have hun : Unbroken b.pending := hsplit ▸ b.unbroken_head
      by_cases hlen : maxLine capacity < b.length
      · refine Or.inl ⟨hun, hlen, ?_⟩
        simp only [consumeLine, htail, hlen, if_true]
        rfl
      · refine Or.inr (Or.inl ⟨hun, Nat.le_of_not_lt hlen, ?_⟩)
        simp only [consumeLine, htail, hlen, if_false]
        rfl
  | cons e rest =>
      have he : isLineEnd e = true :=
        b.isLineEnd_head?_tail e (by rw [htail]; rfl)
      refine Or.inr
        (Or.inr ⟨b.head, (e :: rest).takeWhile isLineEnd, b.behind, ?_,
          b.unbroken_head, ?_, ?_, ?_⟩)
      · rw [List.append_assoc, pending_behind, htail,
          List.takeWhile_append_dropWhile, ← htail, hsplit]
      · rw [List.takeWhile_cons_of_pos he]
        exact List.cons_ne_nil _ _
      · exact fun c hc => List.all_eq_true.1 List.all_takeWhile c hc
      · simp only [consumeLine, htail]
        rfl

theorem value_fill {σ : Type} (b : LineBuffer capacity)
    (ch : Channel σ) (s : σ) : (b.fill ch s).value =
      if b.room = 0 then (.done, b, s)
      else if (ch.read s b.room).1.count = 0
        then (.done, b, (ch.read s b.room).2)
      else (.data, b.take (ch.read s b.room).1, (ch.read s b.room).2) := by
  unfold fill
  split
  · rfl
  · dsimp only
    split <;> rfl

theorem value_drain_of_none {σ : Type} {handle : σ → Line → Logged σ} {s : σ}
    {b b' : LineBuffer capacity} (h : b.consumeLine.value = (none, b')) :
    (b.drain handle s).value = (s, b') := by
  rw [drain]
  split
  · next hc => rw [hc] at h; cases h; rfl
  · next hc => rw [hc] at h; cases h

theorem value_drain_of_some {σ : Type} {handle : σ → Line → Logged σ} {s : σ}
    {b b' : LineBuffer capacity} {l : Line}
    (h : b.consumeLine.value = (some l, b')) :
    (b.drain handle s).value = (b'.drain handle (handle s l).value).value := by
  rw [drain]
  split
  · next hc => rw [hc] at h; cases h
  · next hc => rw [hc] at h; cases h; rfl

theorem unbroken_drain {σ : Type} (handle : σ → Line → Logged σ) (s : σ)
    (b : LineBuffer capacity) :
    Unbroken (b.drain handle s).value.2.pending := by
  induction hn : b.length using Nat.strongRecOn generalizing b s with
  | ind n ih =>
      rcases consumeLine_cases b with ⟨_, _, hv⟩ | ⟨hun, _, hv⟩ |
          ⟨_, _, _, _, _, _, _, hv⟩
      · rw [value_drain_of_none hv]
        exact fun c hc => absurd hc List.not_mem_nil
      · rw [value_drain_of_none hv]
        exact hun
      · rw [value_drain_of_some hv]
        exact ih _ (hn ▸ length_consumeLine_lt hv) _ _ rfl

end LineBuffer

/-! ## A buffer in use -/

/-- Whether a channel copies what it reports. It may say that there was more,
but only when it has filled all the space. -/
def Channel.Honest {σ : Type} (ch : Channel σ) : Prop :=
  ∀ s room, 0 < room →
    (ch.read s room).1.content.length ≤ room ∧
      ((ch.read s room).1.count = (ch.read s room).1.content.length ∨
        (ch.read s room).1.content.length = room ∧
        room ≤ (ch.read s room).1.count)

/-- The same channel, which keeps all the bytes that it gave. -/
def Channel.recorded {σ : Type} (ch : Channel σ) :
    Channel (σ × List UInt8) where
  read s room :=
    let (reading, rest) := ch.read s.1 room
    (reading, rest, s.2 ++ reading.content)

namespace LineBuffer

/-- What can be asked of a buffer. -/
inductive Call where
  | fill
  | consumeLine
  | consumeLines
deriving DecidableEq

/-- A buffer that is being used with a channel. -/
structure Use (capacity : Nat) (σ : Type) where
  buffer : LineBuffer capacity
  source : σ
  /-- The bytes that the channel has given so far. -/
  taken : List UInt8
  /-- The lines that were handed out so far. -/
  handed : List Line

namespace Use

variable {capacity : Nat} {σ : Type}

def start (source : σ) : Use capacity σ := ⟨.empty, source, [], []⟩

def call (ch : Channel σ) (x : Use capacity σ) : Call → Use capacity σ
  | .fill =>
    let (_, buffer, source, taken) :=
      (x.buffer.fill ch.recorded (x.source, x.taken)).value
    ⟨buffer, source, taken, x.handed⟩
  | .consumeLine =>
    let (line?, buffer) := x.buffer.consumeLine.value
    ⟨buffer, x.source, x.taken, x.handed ++ line?.toList⟩
  | .consumeLines =>
    let (lines, buffer) := x.buffer.consumeLines.value
    ⟨buffer, x.source, x.taken, x.handed ++ lines⟩

def calls (ch : Channel σ) (x : Use capacity σ) (cs : List Call) :
    Use capacity σ :=
  cs.foldl (call ch) x

/-- The lines handed out that are not empty. -/
def texts (x : Use capacity σ) : List (List UInt8) :=
  (x.handed.map (·.bytes)).filter (!·.isEmpty)

/-- The bytes taken are those of settled lines, then what was dropped of the
line in progress, then what is pending. -/
structure Accounted (x : Use capacity σ) (settled lost : List UInt8) :
    Prop where
  taken : x.taken = settled ++ lost ++ x.buffer.pending
  terminated : Terminated settled
  trimmed : Trimmed (maxLine capacity) (stretches settled) x.texts
  unbroken : Unbroken lost
  long : lost = [] ∨ maxLine capacity < lost.length

theorem accounted_start (source : σ) :
    (start source : Use capacity σ).Accounted [] [] :=
  ⟨rfl, terminated_nil, .nil, fun _ h => absurd h List.not_mem_nil, Or.inl rfl⟩

theorem taken_fill {ch : Channel σ} (honest : ch.Honest) (x : Use capacity σ) :
    ∃ new, (x.call ch .fill).taken = x.taken ++ new ∧
      (x.call ch .fill).buffer.pending = x.buffer.pending ++ new ∧
      (x.call ch .fill).handed = x.handed := by
  have hread : ch.recorded.read (x.source, x.taken) x.buffer.room =
      ((ch.read x.source x.buffer.room).1, (ch.read x.source x.buffer.room).2,
        x.taken ++ (ch.read x.source x.buffer.room).1.content) := rfl
  simp only [call, value_fill, hread]
  split
  · exact ⟨[], by simp, by simp, trivial⟩
  · next hroom =>
      obtain ⟨hfits, hcount⟩ :=
        honest x.source x.buffer.room (Nat.pos_of_ne_zero hroom)
      generalize (ch.read x.source x.buffer.room).1 = r at hfits hcount
      split
      · next hz =>
          have hnil : r.content = [] := List.eq_nil_of_length_eq_zero (by omega)
          exact ⟨[], by simp [hnil], by simp, trivial⟩
      · have htake : r.content.take (min r.count x.buffer.room) = r.content :=
          List.take_of_length_le (by omega)
        exact ⟨r.content, rfl, by rw [pending_take, htake], trivial⟩

theorem accounted_fill {ch : Channel σ} (honest : ch.Honest)
    {x : Use capacity σ} {settled lost : List UInt8}
    (h : x.Accounted settled lost) :
    (x.call ch .fill).Accounted settled lost := by
  obtain ⟨new, htaken, hpending, hhanded⟩ := taken_fill honest x
  refine ⟨?_, h.terminated, ?_, h.unbroken, h.long⟩
  · rw [htaken, hpending, h.taken, List.append_assoc (settled ++ lost)]
  · have htexts : (x.call ch .fill).texts = x.texts := by
      rw [texts, texts, hhanded]
    rw [htexts]
    exact h.trimmed

/-- Taking one line out settles it, or drops what is pending of
an overlong one. -/
theorem accounted_consumeLine {x : Use capacity σ} {settled lost : List UInt8}
    (h : x.Accounted settled lost) {line? : Option Line}
    {buffer : LineBuffer capacity}
    (hc : x.buffer.consumeLine.value = (line?, buffer)) :
    ∃ settled' lost',
      (⟨buffer, x.source, x.taken, x.handed ++ line?.toList⟩ :
        Use capacity σ).Accounted settled' lost' := by
  rcases consumeLine_cases x.buffer with ⟨hun, hlen, hv⟩ | ⟨_, _, hv⟩ |
      ⟨text, ends, b', hp, hun, hne, hends, hv⟩
  · -- Everything pending joins what the line in progress has lost already.
    rw [hc] at hv
    cases hv
    refine ⟨settled, lost ++ x.buffer.pending, ?_, h.terminated, ?_,
      h.unbroken.append hun, ?_⟩
    · rw [h.taken]
      simp [LineBuffer.empty]
    · simpa [texts] using h.trimmed
    · right
      rw [List.length_append]
      omega
  · rw [hc] at hv
    cases hv
    exact ⟨settled, lost, h.taken,
      h.terminated, by simpa [texts] using h.trimmed, h.unbroken, h.long⟩
  · -- The line is settled, together with what it has lost.
    rw [hc] at hv
    cases hv
    refine ⟨settled ++ (lost ++ text ++ ends), [], ?_, ?_, ?_, ?_, Or.inl rfl⟩
    · rw [h.taken, hp]
      simp
    · rw [← List.append_assoc]
      exact terminated_append hne hends
    · have htexts :
          (⟨buffer, x.source, x.taken,
            x.handed ++ (some (⟨text⟩ : Line)).toList⟩ :
          Use capacity σ).texts = x.texts ++ if text = [] then []
            else [text] := by
        cases text <;> simp [texts]
      have hhead : ∀ b ∈ ends.head?, isLineEnd b = true := fun b hb =>
        hends b (List.mem_of_head? hb)
      rw [htexts, stretches_append h.terminated,
        stretches_text (h.unbroken.append hun) hhead, stretches_ends hends,
        List.append_nil]
      exact h.trimmed.append (trimmed_dropped h.long)
    · exact fun _ hb => absurd hb List.not_mem_nil

theorem accounted_drain {source : σ} {taken : List UInt8}
    {handed lines : List Line} {b : LineBuffer capacity}
    {settled lost : List UInt8}
    (h : (⟨b, source, taken, handed ++ lines⟩ : Use capacity σ).Accounted
      settled lost) :
    ∃ settled' lost',
      (⟨(b.drain (fun ls l => pure (ls ++ [l])) lines).value.2, source, taken,
        handed ++ (b.drain (fun ls l => pure (ls ++ [l])) lines).value.1⟩ :
        Use capacity σ).Accounted settled' lost' := by
  induction hn :
    b.length using Nat.strongRecOn generalizing b lines settled lost with
  | ind n ih =>
      cases hc : b.consumeLine.value with
      | mk line? b' =>
          obtain ⟨settled', lost', h'⟩ := accounted_consumeLine h hc
          cases line? with
          | none =>
              rw [value_drain_of_none hc]
              exact ⟨settled', lost', by simpa using h'⟩
          | some l =>
              rw [value_drain_of_some hc]
              have hstep : (⟨b', source, taken, handed ++ (lines ++ [l])⟩ :
                  Use capacity σ).Accounted settled' lost' := by simpa using h'
              exact ih b'.length (hn ▸ length_consumeLine_lt hc) hstep rfl

theorem accounted_call {ch : Channel σ} (honest : ch.Honest)
    {x : Use capacity σ} (c : Call)
    (h : ∃ settled lost, x.Accounted settled lost) :
    ∃ settled lost, (x.call ch c).Accounted settled lost := by
  obtain ⟨settled, lost, h⟩ := h
  cases c with
  | fill => exact ⟨settled, lost, accounted_fill honest h⟩
  | consumeLine => exact accounted_consumeLine h rfl
  | consumeLines =>
      have hnone : (⟨x.buffer, x.source, x.taken, x.handed ++ []⟩ :
          Use capacity σ).Accounted settled lost := by
        rw [List.append_nil]
        exact h
      exact accounted_drain hnone

theorem accounted_calls {ch : Channel σ} (honest : ch.Honest) (cs : List Call)
    {x : Use capacity σ} (h : ∃ settled lost, x.Accounted settled lost) :
    ∃ settled lost, (x.calls ch cs).Accounted settled lost := by
  induction cs generalizing x with
  | nil => exact h
  | cons c cs ih => exact ih (accounted_call honest c h)

/-- What is pending belongs to the stretches behind the settled ones. -/
theorem Accounted.trimmed_texts {x : Use capacity σ} {settled lost : List UInt8}
    (h : x.Accounted settled lost) :
    Trimmed (maxLine capacity) (stretches x.taken)
      (x.texts ++ stretches x.buffer.pending) := by
  rw [h.taken, List.append_assoc, stretches_append h.terminated]
  refine h.trimmed.append ?_
  have htail := x.buffer.isLineEnd_head?_tail
  rw [← x.buffer.head_append_tail, ← List.append_assoc]
  rw [stretches_text (h.unbroken.append x.buffer.unbroken_head) htail,
    stretches_text x.buffer.unbroken_head htail]
  exact (trimmed_dropped h.long).append (.refl _)

theorem Accounted.texts_eq {x : Use capacity σ} {settled lost : List UInt8}
    (h : x.Accounted settled lost) (hpending : Unbroken x.buffer.pending)
    (hterm : Terminated x.taken)
    (hshort : ∀ s ∈ stretches x.taken, s.length ≤ maxLine capacity) :
    x.texts = stretches x.taken := by
  have hrest : lost ++ x.buffer.pending = [] := by
    rcases List.eq_nil_or_concat (lost ++ x.buffer.pending) with
        hnil | ⟨ys, e, hys⟩
    · exact hnil
    · have hlast : e ∈ x.taken.getLast? := by
        rw [h.taken, List.append_assoc, hys, List.concat_eq_append,
          ← List.append_assoc]
        simp
      have hun : isLineEnd e = false :=
        h.unbroken.append hpending e (by simp [hys])
      rw [hterm e hlast] at hun
      cases hun
  have htaken : x.taken = settled := by
    rw [h.taken, List.append_assoc, hrest, List.append_nil]
  have htrim := h.trimmed
  rw [← htaken] at htrim
  exact htrim.eq_of_short hshort

theorem unbroken_pending_calls (ch : Channel σ) (x : Use capacity σ)
    (cs : List Call) :
    Unbroken (x.calls ch (cs ++ [.consumeLines])).buffer.pending := by
  rw [calls, List.foldl_append]
  exact unbroken_drain _ _ _

/-- Users who take all lines out in the end get every line whole, if
none is overlong. -/
theorem texts_calls {ch : Channel σ} (honest : ch.Honest) (source : σ)
    (cs : List Call)
    (hterm : Terminated ((start source : Use capacity σ).calls ch
      (cs ++ [.consumeLines])).taken)
    (hshort : ∀ s ∈ stretches ((start source : Use capacity σ).calls ch
      (cs ++ [.consumeLines])).taken, s.length ≤ maxLine capacity) :
    ((start source : Use capacity σ).calls ch (cs ++ [.consumeLines])).texts =
      stretches ((start source : Use capacity σ).calls ch
        (cs ++ [.consumeLines])).taken := by
  obtain ⟨settled, lost, h⟩ := accounted_calls honest (cs ++ [.consumeLines])
    ⟨[], [], accounted_start source⟩
  exact h.texts_eq (unbroken_pending_calls ch _ cs) hterm hshort

/-- Framing loses only overlong lines, whatever the order of the calls and the
size of the reads. Without overlong lines, two users who read the same bytes to
their end get the same lines. -/
theorem trimmed_of_calls {ch : Channel σ} (honest : ch.Honest) (source : σ)
    (cs : List Call) :
    (Trimmed (maxLine capacity)
      (stretches ((start source : Use capacity σ).calls ch cs).taken)
      (((start source : Use capacity σ).calls ch cs).texts ++
        stretches
          ((start source : Use capacity σ).calls ch cs).buffer.pending)) ∧
    ∀ {τ : Type} {ch' : Channel τ}, ch'.Honest →
    ∀ (source' : τ) (cs' : List Call),
      let x : Use capacity σ := (start source).calls ch (cs ++ [.consumeLines])
      let y : Use capacity τ :=
        (start source').calls ch' (cs' ++ [.consumeLines])
      x.taken = y.taken → Terminated x.taken →
      (∀ s ∈ stretches x.taken, s.length ≤ maxLine capacity) →
      x.texts = stretches x.taken ∧ y.texts = x.texts := by
  constructor
  · obtain ⟨settled, lost, h⟩ :=
      accounted_calls honest cs ⟨[], [], accounted_start source⟩
    exact h.trimmed_texts
  · intro τ ch' honest' source' cs' x y htaken hterm hshort
    have hx : x.texts = stretches x.taken :=
      texts_calls honest source cs hterm hshort
    have hy : y.texts = stretches y.taken :=
      texts_calls honest' source' cs' (htaken ▸ hterm) (htaken ▸ hshort)
    exact ⟨hx, by rw [hx, hy, htaken]⟩

theorem honest_ofBytes : Channel.ofBytes.Honest := by
  intro data room _
  simp only [Channel.ofBytes, List.length_take]
  exact ⟨Nat.min_le_left _ _, Or.inl trivial⟩

theorem honest_chunked (n : Nat) : (Channel.chunked (some n) 0).Honest := by
  intro data room _
  simp only [Channel.chunked, List.length_take]
  exact ⟨by omega, Or.inl (by omega)⟩

/-- Seven bytes in pieces of three, taken out early or late, and the
same bytes at once. -/
theorem trimmed_of_calls_in_pieces :
    ((start [79, 75, 13, 10, 65, 84, 10] : Use 8 _).calls
        (Channel.chunked (some 3) 0)
        ([.fill, .consumeLine, .fill, .fill] ++ [.consumeLines])).texts =
      [[79, 75], [65, 84]] ∧
    ((start [79, 75, 13, 10, 65, 84, 10] : Use 8 _).calls Channel.ofBytes
        ([.fill] ++ [.consumeLines])).texts =
      ((start [79, 75, 13, 10, 65, 84, 10] : Use 8 _).calls
        (Channel.chunked (some 3) 0)
        ([.fill, .consumeLine, .fill, .fill] ++ [.consumeLines])).texts := by
  have h := (@trimmed_of_calls 8 _ _ (honest_chunked 3)
    [79, 75, 13, 10, 65, 84, 10] [.fill, .consumeLine, .fill, .fill]).2
      honest_ofBytes [79, 75, 13, 10, 65, 84, 10] [.fill]
    (by decide +kernel) (by unfold Terminated; decide +kernel)
    (by decide +kernel)
  exact ⟨h.1.trans (by decide +kernel), h.2⟩

end Use

end LineBuffer

end CellModem
