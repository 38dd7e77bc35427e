import CellModem.Text.Blank

/-!
# Tokens of a reply line

A reply such as `+CLCC: 1,0,0,0,0,"+15551234567",129` is a word, and then fields
with commas between them. `scan` splits a line into tokens: commas, quoted
strings, and runs of anything else, which are numbers if they look like one and
words if they do not. Blanks between tokens are skipped; within quotes they
belong to the string.

The scan ends because every token takes at least one character, so no bound on
its steps is needed (`length_afterToken_lt`).
-/

namespace CellModem

/-- A piece of a reply line. -/
inductive Token where
  /-- A decimal number with an optional sign and an optional fraction. -/
  | number (text : String)
  /-- What stood between two double quotes. -/
  | quoted (content : String)
  | comma
  /-- Any other run of characters. -/
  | word (text : String)
deriving DecidableEq

namespace Token

/-- Whether the character may stand inside a number or a word. -/
def isPlain (c : Char) : Bool := !(c == ',' || c == '"' || Text.isBlank c)

/-- One or more ASCII digits. -/
def isDigits (cs : List Char) : Bool := !cs.isEmpty && cs.all Char.isDigit

/-- Drops one leading sign. -/
def unsign : List Char → List Char
  | '+' :: cs => cs
  | '-' :: cs => cs
  | cs => cs

/-- Whether a run is a number: digits, with at most one sign before and one
fraction behind. -/
def isNumber (run : List Char) : Bool :=
  let cs := unsign run
  isDigits (cs.takeWhile (· != '.')) &&
    match cs.dropWhile (· != '.') with
    | [] => true
    | _ :: fraction => isDigits fraction

/-- The token for a run of plain characters. -/
def ofRun (run : List Char) : Token :=
  if isNumber run then .number (String.ofList run)
    else .word (String.ofList run)

/-- The token at the head of a line that begins with `c`, and the
line behind it. -/
def headToken (c : Char) (rest : List Char) : Token × List Char :=
  if c = ',' then (.comma, rest)
  else if c = '"' then
    (.quoted (String.ofList (rest.takeWhile (· != '"'))),
      (rest.dropWhile (· != '"')).tail)
  else (ofRun (c :: rest.takeWhile isPlain), rest.dropWhile isPlain)

theorem length_dropWhile_le {α : Type} (p : α → Bool) (l : List α) :
    (l.dropWhile p).length ≤ l.length :=
  (List.dropWhile_sublist p).length_le

theorem length_headToken_le (c : Char) (rest : List Char) :
    (headToken c rest).2.length ≤ rest.length := by
  unfold headToken
  split
  · exact Nat.le_refl _
  · split
    · have := length_dropWhile_le (· != '"') rest
      simp only [List.length_tail]
      omega
    · exact length_dropWhile_le _ _

theorem length_afterToken_lt {cs : List Char} {c : Char} {rest : List Char}
    (h : cs.dropWhile Text.isBlank = c :: rest) :
    (headToken c rest).2.length < cs.length := by
  have h₁ := length_headToken_le c rest
  have h₂ := length_dropWhile_le Text.isBlank cs
  rw [h, List.length_cons] at h₂
  omega

/-- The tokens of a line, in order. -/
def scan (cs : List Char) : List Token :=
  match _ : cs.dropWhile Text.isBlank with
  | [] => []
  | c :: rest => (headToken c rest).1 :: scan (headToken c rest).2
termination_by cs.length
decreasing_by exact length_afterToken_lt ‹_›

theorem scan_eq_nil {cs : List Char} (h : cs.dropWhile Text.isBlank = []) :
    scan cs = [] := by
  rw [scan]
  split
  · rfl
  · next h' => rw [h] at h'; cases h'

theorem scan_eq_cons {cs rest : List Char} {c : Char}
    (h : cs.dropWhile Text.isBlank = c :: rest) :
    scan cs = (headToken c rest).1 :: scan (headToken c rest).2 := by
  rw [scan]
  split
  · next h' => rw [h] at h'; cases h'
  · next h' => rw [h] at h'; cases h'; rfl

def ofText (s : String) : List Token := scan s.toList

end Token

end CellModem
