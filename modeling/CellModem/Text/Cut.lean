/-!
# Text within a number of bytes

Commands, phone numbers and indications live in fixed space. What does not fit
is cut off, and never inside a character. `cut` is that rule on characters;
`BoundedText` is a text which is known to fit, and `push` appends as much as
there is room for. `fill` does it without measuring the text beforehand: it
tries, and falls back to single characters.
-/

namespace CellModem.Text

/-- The number of bytes that the characters take. -/
def size : List Char → Nat
  | [] => 0
  | c :: cs => c.utf8Size + size cs

/-- The longest leading part that takes at most `room` bytes. -/
def cut (room : Nat) : List Char → List Char
  | [] => []
  | c :: cs => if c.utf8Size ≤ room then c :: cut (room - c.utf8Size) cs else []

theorem utf8ByteSize_ofList (cs : List Char) :
    (String.ofList cs).utf8ByteSize = size cs := by
  induction cs with
  | nil => rfl
  | cons c cs ih =>
    have h : String.ofList (c :: cs) = String.ofList [c] ++
        String.ofList cs := by
      rw [← String.ofList_append]
      rfl
    rw [h, String.utf8ByteSize_append, ih]
    simp [size, String.ofList, String.utf8ByteSize, List.utf8Encode_singleton]

theorem size_toList (s : String) : size s.toList = s.utf8ByteSize := by
  rw [← utf8ByteSize_ofList, String.ofList_toList]

theorem size_append (s t : List Char) : size (s ++ t) = size s + size t := by
  induction s with
  | nil => simp [size]
  | cons c s ih => simp [size, ih, Nat.add_assoc]

theorem size_cut_le (room : Nat) (cs : List Char) :
    size (cut room cs) ≤ room := by
  induction cs generalizing room with
  | nil => simp [cut, size]
  | cons c cs ih =>
    simp only [cut]
    split
    · have := ih (room - c.utf8Size)
      simp only [size]
      omega
    · simp [size]

theorem cut_eq_self {room : Nat} {cs : List Char} (h : size cs ≤ room) :
    cut room cs = cs := by
  induction cs generalizing room with
  | nil => rfl
  | cons c cs ih =>
    simp only [size] at h
    simp only [cut]
    rw [if_pos (by omega), ih (by omega)]

theorem cut_eq_self_iff {room : Nat} {cs : List Char} :
    cut room cs = cs ↔ size cs ≤ room := by
  constructor
  · intro h
    rw [← h]
    exact size_cut_le room cs
  · exact cut_eq_self

end CellModem.Text

namespace CellModem

/-- A text of at most `limit` bytes. -/
structure BoundedText (limit : Nat) where
  text : String
  fits : text.utf8ByteSize ≤ limit
deriving DecidableEq

namespace BoundedText

variable {limit : Nat}

def empty : BoundedText limit := ⟨"", Nat.zero_le _⟩

instance : Inhabited (BoundedText limit) := ⟨empty⟩

/-- How many more bytes there is space for. -/
def room (s : BoundedText limit) : Nat := limit - s.text.utf8ByteSize

/-- Whether all of `t` can still be appended. -/
def admits (s : BoundedText limit) (t : String) : Bool :=
  t.utf8ByteSize ≤ s.room

/-- Appends as much of `t` as there is space for. -/
def push (s : BoundedText limit) (t : String) : BoundedText limit :=
  ⟨s.text ++ String.ofList (Text.cut s.room t.toList), by
    have h := Text.size_cut_le s.room t.toList
    have := s.fits
    simp only [room] at h ⊢
    rw [String.utf8ByteSize_append, Text.utf8ByteSize_ofList]
    omega⟩

/-- Appends a text, unless it takes more space than there is. -/
def append? (s : BoundedText limit) (t : String) : Option (BoundedText limit) :=
  if h : (s.text ++ t).utf8ByteSize ≤ limit then some ⟨s.text ++ t, h⟩ else none

/-- Appends one character after the other until one is refused. -/
def appendEach (s : BoundedText limit) : List Char → BoundedText limit
  | [] => s
  | c :: cs =>
    match s.append? (String.ofList [c]) with
    | some s => s.appendEach cs
    | none => s

/-- Appends a text as a whole, or if that is refused one character after the
other, and says whether all of it went in. -/
def fill (s : BoundedText limit) (t : String) : Bool × BoundedText limit :=
  match s.append? t with
  | some s => (true, s)
  | none => (false, s.appendEach t.toList)

theorem eq_of_text_eq {s t : BoundedText limit} (h : s.text = t.text) :
    s = t := by
  cases s
  cases t
  cases h
  rfl

theorem text_push (s : BoundedText limit) (t : String) :
    (s.push t).text = s.text ++ String.ofList (Text.cut s.room t.toList) := rfl

theorem toList_push (s : BoundedText limit) (t : String) :
    (s.push t).text.toList = s.text.toList ++ Text.cut s.room t.toList := by
  rw [text_push, String.toList_append, String.toList_ofList]

theorem size_push (s : BoundedText limit) (t : String) :
    (s.push t).text.utf8ByteSize = s.text.utf8ByteSize + Text.size
    (Text.cut s.room t.toList) := by
  rw [text_push, String.utf8ByteSize_append, Text.utf8ByteSize_ofList]

/-- As much of `t` as fits. -/
def ofString (t : String) : BoundedText limit := empty.push t

theorem text_ofString {t : String} (h : t.utf8ByteSize ≤ limit) :
    (ofString t : BoundedText limit).text = t := by
  have hroom : (empty : BoundedText limit).room = limit := by simp [room, empty]
  rw [← Text.size_toList] at h
  simp only [ofString, push, hroom, Text.cut_eq_self h, String.ofList_toList]
  exact String.empty_append

/-- What is kept of a text that is known to fit is the text. -/
theorem ofString_text (s : BoundedText limit) : ofString s.text = s :=
  eq_of_text_eq (text_ofString s.fits)

end BoundedText

end CellModem
