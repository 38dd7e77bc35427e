import CellModem.Line
import CellModem.Logged

/-!
# The line buffer

Bytes come off the line in pieces of any size, and a line may be spread over
several of them. The buffer collects bytes up to its capacity, and there is no
buffer with more of them (`length_le`). It hands out the lines that are
complete. A carriage return and a line feed both end a line, and a run of them
ends it once.

Half of the capacity is for the longest line that can wait for its end, the
other half is room for what follows. More than half without an end in sight is
no line: all of it is dropped, so that the buffer can never be stuck full.
-/

namespace CellModem

/-- Bytes that have been received but not handed out. -/
@[ext]
structure LineBuffer (capacity : Nat) where
  pending : List UInt8
  length_le : pending.length ≤ capacity
deriving DecidableEq

/-- What an attempt to fill a buffer came to. -/
inductive Fill where
  /-- Bytes were added, and there may be more. -/
  | data
  /-- There was nothing to be had. -/
  | done
deriving DecidableEq

/-- What a channel did with the space it was offered. -/
structure Reading where
  /-- What the space holds now, from its beginning. -/
  content : List UInt8
  /-- How many bytes the channel says it has put there. -/
  count : Nat
deriving DecidableEq

/-- Something bytes can be read from; `read` is offered a number of
bytes of space. -/
structure Channel (σ : Type) where
  read : σ → Nat → Reading × σ

namespace Channel

/-- Bytes that are there already, read as many at a time as
there is space for. -/
def ofBytes : Channel (List UInt8) where
  read data room := (⟨data.take room, min room data.length⟩, data.drop room)

/-- Bytes that come `chunk` at a time, through a channel that counts
`excess` too many. -/
def chunked (chunk : Option Nat) (excess : Nat) : Channel (List UInt8) where
  read data room :=
    let most := match chunk with
      | none => room
      | some n => min n room
    (⟨data.take most, min most data.length + excess⟩, data.drop most)

/-- The same channel with its reads counted. -/
def counted {σ : Type} (ch : Channel σ) : Channel (σ × Nat) where
  read s room :=
    let (reading, rest) := ch.read s.1 room
    (reading, rest, s.2 + 1)

end Channel

/-- Whether a byte ends a line. -/
def isLineEnd (b : UInt8) : Bool := b == 13 || b == 10

namespace LineBuffer

variable {capacity : Nat}

def empty : LineBuffer capacity := ⟨[], Nat.zero_le _⟩

/-- The longest line that can wait for its end in a buffer of the
given capacity. -/
def maxLine (capacity : Nat) : Nat := capacity / 2

def length (b : LineBuffer capacity) : Nat := b.pending.length

def isEmpty (b : LineBuffer capacity) : Bool := b.pending.isEmpty

/-- How many more bytes there is space for. -/
def room (b : LineBuffer capacity) : Nat := capacity - b.length

/-- Adds bytes behind what is pending, as many of them as there is space for. -/
def append (b : LineBuffer capacity) (data : List UInt8) :
    LineBuffer capacity where
  pending := b.pending ++ data.take b.room
  length_le := by
    have hle := b.length_le
    rw [List.length_append, List.length_take, room, length]
    omega

/-- Adds what was read, as far as there is space for it. -/
def take (b : LineBuffer capacity) (r : Reading) : LineBuffer capacity :=
  b.append (r.content.take r.count)

/-- Reads from a channel once, unless there is no space left. -/
def fill {σ : Type} (b : LineBuffer capacity) (ch : Channel σ) (s : σ) :
    Logged (Fill × LineBuffer capacity × σ) :=
  if b.room = 0 then do
    Logged.note (.bufferFull capacity)
    return (.done, b, s)
  else
    let (reading, s) := ch.read s b.room
    if reading.count = 0 then pure (.done, b, s)
      else pure (.data, b.take reading, s)

theorem pending_append (b : LineBuffer capacity) (data : List UInt8) :
    (b.append data).pending = b.pending ++ data.take b.room := rfl

theorem pending_append_of_le {b : LineBuffer capacity} {data : List UInt8}
    (h : data.length ≤ b.room) :
    (b.append data).pending = b.pending ++ data := by
  rw [pending_append, List.take_of_length_le h]

theorem pending_take (b : LineBuffer capacity) (r : Reading) :
    (b.take r).pending = b.pending ++ r.content.take (min r.count b.room) := by
  rw [take, pending_append, List.take_take, Nat.min_comm]

/-- Bytes that are there already are added as far as there is space. -/
theorem value_fill_ofBytes (b : LineBuffer capacity) (data : List UInt8) :
    (b.fill Channel.ofBytes data).value =
      if b.room = 0 ∨ data = [] then (.done, b, data)
      else (.data, b.append data, data.drop b.room) := by
  unfold fill
  by_cases hroom : b.room = 0
  · simp [hroom]
  · by_cases hdata : data = []
    · simp [hroom, hdata, Channel.ofBytes]
    · have hlen : data.length ≠ 0 := by simpa using hdata
      have hmin : min b.room data.length ≠ 0 := by omega
      have htake : b.take ⟨data.take b.room, min b.room data.length⟩ =
          b.append data := by
        refine LineBuffer.ext ?_
        rw [pending_take, Nat.min_right_comm, Nat.min_self, pending_append,
          List.take_of_length_le (by simp)]
      rw [if_neg hroom, if_neg (by simp [hroom, hdata])]
      simp only [Channel.ofBytes, hmin, if_false, htake, Traced.value_pure]

/-- What is pending before the first end of line. -/
def head (b : LineBuffer capacity) : List UInt8 :=
  b.pending.takeWhile (!isLineEnd ·)

/-- What is pending from the first end of line on. -/
def tail (b : LineBuffer capacity) : List UInt8 :=
  b.pending.dropWhile (!isLineEnd ·)

/-- What is pending behind the first end of line and those that follow on it. -/
def behind (b : LineBuffer capacity) : LineBuffer capacity where
  pending := b.tail.dropWhile isLineEnd
  length_le :=
    calc (b.tail.dropWhile isLineEnd).length
        ≤ b.tail.length := (List.dropWhile_sublist _).length_le
      _ ≤ b.pending.length := (List.dropWhile_sublist _).length_le
      _ ≤ capacity := b.length_le

/-- The oldest complete line, if there is one, and the buffer behind it. -/
def consumeLine (b : LineBuffer capacity) :
    Logged (Option Line × LineBuffer capacity) :=
  match b.tail with
  | [] =>
    if maxLine capacity < b.length then do
      Logged.note (.lineTooLong (maxLine capacity) b.length)
      return (none, empty)
    else pure (none, b)
  | _ :: _ => do
    Logged.note (.framed b.head)
    return (some ⟨b.head⟩, b.behind)

theorem pending_behind (b : LineBuffer capacity) :
    b.behind.pending = b.tail.dropWhile isLineEnd := rfl

theorem length_behind_lt {b : LineBuffer capacity} (h : b.tail ≠ []) :
    b.behind.length < b.length := by
  have hle : b.tail.length ≤ b.length := (List.dropWhile_sublist _).length_le
  obtain ⟨c, rest, htail⟩ := List.exists_cons_of_ne_nil h
  have hend : isLineEnd c = true := by
    have hfirst := List.head?_dropWhile_not (!isLineEnd ·) b.pending
    rw [show b.pending.dropWhile (!isLineEnd ·) = b.tail from rfl,
      htail] at hfirst
    simpa using hfirst
  have hrest : (rest.dropWhile isLineEnd).length ≤ rest.length :=
    (List.dropWhile_sublist _).length_le
  rw [htail, List.length_cons] at hle
  rw [length, pending_behind, htail, List.dropWhile_cons_of_pos hend]
  omega

theorem length_consumeLine_lt {b b' : LineBuffer capacity} {l : Line}
    (h : b.consumeLine.value = (some l, b')) : b'.length < b.length := by
  unfold consumeLine at h
  split at h
  · split at h <;> cases h
  · next htail =>
      cases h
      exact length_behind_lt (htail ▸ List.cons_ne_nil _ _)

/-- Hands every complete line to `handle`, the oldest first. -/
def drain {σ : Type} (handle : σ → Line → Logged σ) (s : σ)
    (b : LineBuffer capacity) : Logged (σ × LineBuffer capacity) :=
  match _ : b.consumeLine with
  | ⟨(none, b'), notices⟩ => ⟨(s, b'), notices⟩
  | ⟨(some l, b'), notices⟩ =>
    let handled := handle s l
    let rest := drain handle handled.value b'
    ⟨rest.value, notices ++ handled.trace ++ rest.trace⟩
termination_by b.length
decreasing_by
  apply length_consumeLine_lt
  rw [‹b.consumeLine = _›]

/-- Every complete line, the oldest first, and the buffer behind them. -/
def consumeLines (b : LineBuffer capacity) :
    Logged (List Line × LineBuffer capacity) :=
  b.drain (fun lines l => pure (lines ++ [l])) []

/-- Fills the buffer and hands out its lines by turns, until there is nothing to
be had or `rounds` reads are done; also returns how often bytes were added. -/
def pumpFor {σ τ : Type} (ch : Channel σ) (handle : τ → Line → Logged τ) :
    Nat → τ → LineBuffer capacity → σ →
    Logged (Nat × τ × LineBuffer capacity × σ)
  | 0, t, b, s => pure (0, t, b, s)
  | rounds + 1, t, b, s => do
    let (filled, b, s) ← b.fill ch s
    match filled with
    | .done => return (0, t, b, s)
    | .data =>
      let (t, b) ← b.drain handle t
      let (fills, t, b, s) ← pumpFor ch handle rounds t b s
      return (fills + 1, t, b, s)

/-- Reads a channel of bytes to its end, handing out the lines. Every read but
the last takes a byte, which bounds their number. -/
def pump {τ : Type} (ch : Channel (List UInt8))
    (handle : τ → Line → Logged τ) (t : τ) (b : LineBuffer capacity)
    (data : List UInt8) : Logged (Nat × τ × LineBuffer capacity × List UInt8) :=
  pumpFor ch handle (data.length + 1) t b data

/-- Fills the buffer as long as there is space, for `rounds` reads at most. -/
def gulpFor {σ : Type} (ch : Channel σ) :
    Nat → LineBuffer capacity → σ → Logged (Nat × LineBuffer capacity × σ)
  | 0, b, s => pure (0, b, s)
  | rounds + 1, b, s =>
    if capacity ≤ b.length then pure (0, b, s)
    else do
      let (filled, b, s) ← b.fill ch s
      match filled with
      | .done => return (0, b, s)
      | .data =>
        let (fills, b, s) ← gulpFor ch rounds b s
        return (fills + 1, b, s)

/-- Fills the buffer from a channel of bytes as long as there is space. Every
read but the last adds a byte, which bounds their number. -/
def gulp (ch : Channel (List UInt8)) (b : LineBuffer capacity)
    (data : List UInt8) : Logged (Nat × LineBuffer capacity × List UInt8) :=
  gulpFor ch (capacity + 1) b data

end LineBuffer

end CellModem
