import CellModem.Text.Slice
import CellModem.Token

/-!
# Tokens cut out of a line

`scan` goes through the characters of a line. A reader that keeps the line as
it is cuts each token out of it and goes on with the rest: it works out the
byte offset where the token ends, and in a wrong place the cut is refused.
`next?` is one step of that reader and `read?` is all of them.

The offsets are those in front of a character that was looked for and those
one byte behind a comma or a quote, which take one byte each. So no cut is
refused, and the reader finds what a scan finds (`read?_eq`).
-/

namespace CellModem.Token

/-- The first token of a text that begins with `c`, and the text behind it. -/
def cutHead? (c : Char) (s : String) : Option (Token × String) :=
  if c = ',' then do
    let rest ← Text.from? s 1
    return (.comma, rest)
  else if c = '"' then do
    let behind ← Text.from? s 1
    let stop := (Text.offset? (· == '"') behind.toList).getD behind.utf8ByteSize
    -- The text is over where there is no second quote, and
    -- then this is refused.
    let rest := (Text.from? behind (stop + 1)).getD ""
    let content ← Text.upTo? behind stop
    return (.quoted content, rest)
  else do
    let ends (d : Char) : Bool := d == ',' || d == '"' || Text.isBlank d
    let stop := (Text.offset? ends s.toList).getD s.utf8ByteSize
    let (run, rest) ← Text.splitAt? s stop
    return (ofRun run.toList, rest)

/-- The first token of a text and the text behind it, if there is a token. No
answer at all means that a cut was refused. -/
def next? (s : String) : Option (Option (Token × String)) :=
  match s.toList.dropWhile Text.isBlank with
  | [] => some none
  | c :: rest => (cutHead? c (String.ofList (c :: rest))).map some

/-- Behind a quoted text there is nothing, or a quote and what follows it. -/
theorem from?_behind_quote (cs : List Char) :
    (Text.from? (String.ofList cs)
      (Text.size (cs.takeWhile (· != '"')) + 1)).getD "" =
        String.ofList (cs.dropWhile (· != '"')).tail := by
  have hsplit : cs.takeWhile (· != '"') ++ cs.dropWhile (· != '"') = cs :=
    List.takeWhile_append_dropWhile
  have hquote := List.head?_dropWhile_not (· != '"') cs
  cases hdrop : cs.dropWhile (· != '"') with
  | nil =>
      rw [hdrop, List.append_nil] at hsplit
      have hlt : (String.ofList cs).utf8ByteSize < Text.size cs + 1 := by
        rw [Text.utf8ByteSize_ofList]
        exact Nat.lt_succ_self _
      rw [hsplit, Text.from?_of_lt hlt]
      rfl
  | cons d rest =>
      rw [hdrop] at hsplit hquote
      obtain rfl : d = '"' := by simpa using hquote
      have hfrom := Text.from?_ofList (cs.takeWhile (· != '"') ++ ['"']) rest
      rw [List.append_assoc, List.singleton_append, hsplit,
        Text.size_append] at hfrom
      exact congrArg (Option.getD · "") hfrom

theorem cutHead?_quote (rest : List Char) :
    cutHead? '"' (String.ofList ('"' :: rest)) =
      some ((headToken '"' rest).1, String.ofList (headToken '"' rest).2) := by
  have hbehind : Text.from? (String.ofList ('"' :: rest)) 1 =
      some (String.ofList rest) := Text.from?_ofList ['"'] rest
  have hstop : (Text.offset? (· == '"') rest).getD (Text.size rest) =
      Text.size (rest.takeWhile (· != '"')) := Text.getD_offset? (· == '"') rest
  have hcontent := Text.upTo?_ofList (rest.takeWhile (· != '"'))
    (rest.dropWhile (· != '"'))
  rw [List.takeWhile_append_dropWhile] at hcontent
  rw [cutHead?, if_neg (by decide), if_pos rfl, hbehind, Option.bind_eq_bind,
    Option.bind_some, headToken, if_neg (by decide), if_pos rfl]
  simp only [String.toList_ofList, Text.utf8ByteSize_ofList, hstop, hcontent,
    from?_behind_quote, Option.bind_some, pure]

theorem cutHead?_run {c : Char} (hcomma : c ≠ ',') (hquote : c ≠ '"')
    (hblank : Text.isBlank c = false) (rest : List Char) :
    cutHead? c (String.ofList (c :: rest)) =
      some ((headToken c rest).1, String.ofList (headToken c rest).2) := by
  have hplain : isPlain c = true := by simp [isPlain, hcomma, hquote, hblank]
  have hstop :=
    Text.getD_offset? (fun d => d == ',' || d == '"' || Text.isBlank d)
      (c :: rest)
  have hcut := Text.splitAt?_ofList ((c :: rest).takeWhile isPlain)
    ((c :: rest).dropWhile isPlain)
  rw [List.takeWhile_append_dropWhile] at hcut
  rw [cutHead?, if_neg hcomma, if_neg hquote, headToken, if_neg hcomma,
    if_neg hquote]
  simp only [String.toList_ofList, Text.utf8ByteSize_ofList]
  rw [hstop, show (fun d => !(d == ',' || d == '"' || Text.isBlank d)) =
    isPlain from rfl, hcut, List.takeWhile_cons_of_pos hplain,
    List.dropWhile_cons_of_pos hplain]
  simp only [Option.bind_eq_bind, Option.bind_some, pure, String.toList_ofList]

/-- The head of a text is cut out as the scan of its characters finds it. -/
theorem cutHead?_eq {c : Char} (hblank : Text.isBlank c = false)
    (rest : List Char) : cutHead? c (String.ofList (c :: rest)) =
      some ((headToken c rest).1, String.ofList (headToken c rest).2) := by
  by_cases hcomma : c = ','
  · subst hcomma
    rw [cutHead?, if_pos rfl, headToken, if_pos rfl]
    exact congrArg (Option.bind · _) (Text.from?_ofList [','] rest)
  · by_cases hquote : c = '"'
    · subst hquote
      exact cutHead?_quote rest
    · exact cutHead?_run hcomma hquote hblank rest

theorem next?_eq {s : String} {c : Char} {rest : List Char}
    (h : s.toList.dropWhile Text.isBlank = c :: rest) :
    next? s = some (some ((headToken c rest).1,
      String.ofList (headToken c rest).2)) := by
  have hblank : Text.isBlank c = false := by
    have hfirst := List.head?_dropWhile_not Text.isBlank s.toList
    rw [h] at hfirst
    simpa using hfirst
  rw [next?, h]
  exact congrArg (Option.map some) (cutHead?_eq hblank rest)

theorem length_next?_lt {s rest : String} {token : Token}
    (h : next? s = some (some (token, rest))) :
    rest.toList.length < s.toList.length := by
  cases hs : s.toList.dropWhile Text.isBlank with
  | nil =>
      rw [next?, hs] at h
      cases h
  | cons c cs =>
      rw [next?_eq hs] at h
      obtain ⟨_, rfl⟩ := Prod.mk.inj (Option.some.inj (Option.some.inj h))
      rw [String.toList_ofList]
      exact length_afterToken_lt hs

/-- The tokens of a text, unless a cut is refused on the way. -/
def read? (s : String) : Option (List Token) :=
  match _ : next? s with
  | none => none
  | some none => some []
  | some (some (token, rest)) => (read? rest).map (token :: ·)
termination_by s.toList.length
decreasing_by exact length_next?_lt ‹_›

theorem read?_nil {s : String} (h : next? s = some none) :
    read? s = some [] := by
  rw [read?]
  split
  · next h' => rw [h] at h'; cases h'
  · rfl
  · next h' => rw [h] at h'; cases h'

theorem read?_cons {s rest : String} {token : Token}
    (h : next? s = some (some (token, rest))) :
    read? s = (read? rest).map (token :: ·) := by
  rw [read?]
  split
  · next h' => rw [h] at h'; cases h'
  · next h' => rw [h] at h'; cases h'
  · next h' => rw [h] at h'; cases h'; rfl

/-- No cut is refused, and the tokens are those of a scan. -/
theorem read?_eq (s : String) : read? s = some (ofText s) := by
  induction hn : s.toList.length using Nat.strongRecOn generalizing s with
  | ind n ih =>
      cases hs : s.toList.dropWhile Text.isBlank with
      | nil =>
          rw [ofText, scan_eq_nil hs, read?_nil (by rw [next?, hs])]
      | cons c rest =>
          have hnext := next?_eq hs
          have htail := ih _ (hn ▸ length_next?_lt hnext) _ rfl
          rw [ofText, String.toList_ofList] at htail
          rw [ofText, scan_eq_cons hs, read?_cons hnext, htail, Option.map_some]

end CellModem.Token
