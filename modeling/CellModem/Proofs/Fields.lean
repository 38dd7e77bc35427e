import CellModem.Line

/-!
# Fields are read as they are written

A modem writes the fields of a reply with commas between them, with or without a
word in front, and puts blanks around them as it likes. A field is nothing, a
number, or a text in quotes, and in quotes anything may stand but a quote,
commas and blanks as well. Whoever asks for the field at a position gets what
was written there (`fields_read_back`).

Fields are read by way of tokens, and so the proof goes. Each part of a row
makes the token that one expects of it, whatever stands behind it, if only a
number or a word is not continued there (`scan_run`, `scan_quoted`). What is
left is to count commas.
-/

namespace CellModem

/-! ## Runs of characters -/

section Runs

variable {α : Type} {p : α → Bool} {run rest : List α}

theorem takeWhile_append_of_stop (hrun : ∀ a ∈ run, p a = true)
    (hstop : ∀ a ∈ rest.head?, p a = false) :
    (run ++ rest).takeWhile p = run := by
  rw [List.takeWhile_append_of_pos hrun]
  cases rest with
  | nil => exact List.append_nil run
  | cons a rest =>
      rw [List.takeWhile_cons_of_neg (by simp [hstop a rfl]), List.append_nil]

theorem dropWhile_append_of_stop (hrun : ∀ a ∈ run, p a = true)
    (hstop : ∀ a ∈ rest.head?, p a = false) :
    (run ++ rest).dropWhile p = rest := by
  rw [List.dropWhile_append_of_pos hrun]
  cases rest with
  | nil => rfl
  | cons a rest => exact List.dropWhile_cons_of_neg (by simp [hstop a rfl])

end Runs

/-! ## Numbers -/

namespace Field

/-- One or more ASCII digits. -/
def Digits (cs : List Char) : Prop := cs ≠ [] ∧ ∀ c ∈ cs, c.isDigit = true

/-- A sign or none, digits, and a point with digits behind it or nothing. -/
def Decimal (cs : List Char) : Prop :=
  ∃ sign whole fraction, cs = sign ++ (whole ++ fraction) ∧
    sign ∈ [[], ['+'], ['-']] ∧ Digits whole ∧
    (fraction = [] ∨ ∃ ds, fraction = '.' :: ds ∧ Digits ds)

theorem Digits.decimal {cs : List Char} (h : Digits cs) : Decimal cs :=
  ⟨[], cs, [], (List.append_nil cs).symm, List.mem_cons_self, h, Or.inl rfl⟩

end Field

namespace Token

open CellModem.Field

theorem ne_of_isDigit {c d : Char} (hc : c.isDigit = true)
    (hd : d.isDigit = false) : c ≠ d := by
  rintro rfl
  rw [hc] at hd
  cases hd

theorem isPlain_of_isDigit {c : Char} (h : c.isDigit = true) :
    isPlain c = true := by
  have hblank : Text.isBlank c = false :=
    Text.isBlank_eq_false_of_isAlphanum
      (by rw [Char.isAlphanum, h, Bool.or_true])
  simp [isPlain, hblank, ne_of_isDigit h (d := ',') rfl,
    ne_of_isDigit h (d := '"') rfl]

theorem isDigits_iff {cs : List Char} : isDigits cs = true ↔ Digits cs := by
  simp [isDigits, Digits]

theorem unsign_append {sign whole rest : List Char}
    (hsign : sign ∈ [[], ['+'], ['-']]) (hwhole : Digits whole) :
    unsign (sign ++ (whole ++ rest)) = whole ++ rest := by
  simp only [List.mem_cons, List.not_mem_nil, or_false] at hsign
  rcases hsign with rfl | rfl | rfl
  · cases whole with
    | nil => exact absurd rfl hwhole.1
    | cons d ds =>
        have hd : d.isDigit = true := hwhole.2 d List.mem_cons_self
        rw [List.nil_append, List.cons_append]
        unfold unsign
        split
        · next h => exact absurd (List.cons.inj h).1 (ne_of_isDigit hd rfl)
        · next h => exact absurd (List.cons.inj h).1 (ne_of_isDigit hd rfl)
        · rfl
  · rfl
  · rfl

theorem exists_sign (run : List Char) :
    ∃ sign ∈ [[], ['+'], ['-']], run = sign ++ unsign run := by
  unfold unsign
  split
  · exact ⟨['+'], by simp, rfl⟩
  · exact ⟨['-'], by simp, rfl⟩
  · exact ⟨[], by simp, rfl⟩

/-- The runs that are taken for numbers are those that are written like one. -/
theorem isNumber_iff {run : List Char} : isNumber run = true ↔ Decimal run := by
  constructor
  · intro h
    obtain ⟨sign, hsign, hrun⟩ := exists_sign run
    simp only [isNumber, Bool.and_eq_true, isDigits_iff] at h
    refine ⟨sign, (unsign run).takeWhile (· != '.'),
      (unsign run).dropWhile (· != '.'), ?_, hsign, h.1, ?_⟩
    · rw [List.takeWhile_append_dropWhile]
      exact hrun
    · have hpoint := List.head?_dropWhile_not (· != '.') (unsign run)
      cases hd : (unsign run).dropWhile (· != '.') with
      | nil => exact Or.inl rfl
      | cons c ds =>
          rw [hd] at h hpoint
          obtain rfl : c = '.' := by simpa using hpoint
          exact Or.inr ⟨ds, rfl, isDigits_iff.1 h.2⟩
  · rintro ⟨sign, whole, fraction, rfl, hsign, hwhole, hfraction⟩
    have hbefore : ∀ c ∈ whole, (c != '.') = true := fun c hc =>
      bne_iff_ne.2 (ne_of_isDigit (hwhole.2 c hc) rfl)
    have hstop : ∀ c ∈ fraction.head?, (c != '.') = false := by
      rcases hfraction with rfl | ⟨ds, rfl, _⟩ <;> simp
    simp only [isNumber, unsign_append hsign hwhole,
      takeWhile_append_of_stop hbefore hstop,
      dropWhile_append_of_stop hbefore hstop, isDigits_iff.2 hwhole,
      Bool.true_and]
    rcases hfraction with rfl | ⟨ds, rfl, hds⟩
    · rfl
    · exact isDigits_iff.2 hds

theorem isPlain_of_decimal {cs : List Char} (h : Decimal cs) :
    ∀ c ∈ cs, isPlain c = true := by
  obtain ⟨sign, whole, fraction, rfl, hsign, hwhole, hfraction⟩ := h
  intro c hc
  rcases List.mem_append.1 hc with hc | hc
  · simp only [List.mem_cons, List.not_mem_nil, or_false] at hsign
    rcases hsign with rfl | rfl | rfl
    · cases hc
    · rw [List.mem_singleton.1 hc]
      decide
    · rw [List.mem_singleton.1 hc]
      decide
  · rcases List.mem_append.1 hc with hc | hc
    · exact isPlain_of_isDigit (hwhole.2 c hc)
    · rcases hfraction with rfl | ⟨ds, rfl, hds⟩
      · cases hc
      · rcases List.mem_cons.1 hc with rfl | hc
        · decide
        · exact isPlain_of_isDigit (hds.2 c hc)

theorem ne_nil_of_decimal {cs : List Char} (h : Decimal cs) : cs ≠ [] := by
  obtain ⟨sign, whole, fraction, rfl, _, hwhole, _⟩ := h
  simp [hwhole.1]

/-! ## The tokens of each part -/

theorem scan_congr {cs cs' : List Char}
    (h : cs.dropWhile Text.isBlank = cs'.dropWhile Text.isBlank) :
    scan cs = scan cs' := by
  cases hcs : cs.dropWhile Text.isBlank with
  | nil => rw [scan_eq_nil hcs, scan_eq_nil (h.symm.trans hcs)]
  | cons c rest => rw [scan_eq_cons hcs, scan_eq_cons (h.symm.trans hcs)]

theorem scan_blanks {blanks : List Char}
    (h : ∀ c ∈ blanks, Text.isBlank c = true) (rest : List Char) :
    scan (blanks ++ rest) = scan rest :=
  scan_congr (List.dropWhile_append_of_pos h)

theorem scan_comma (rest : List Char) :
    scan (',' :: rest) = .comma :: scan rest :=
  scan_eq_cons (List.dropWhile_cons_of_neg (by decide))

/-- A text in quotes is one token, and the quotes go with it. -/
theorem scan_quoted {content : List Char}
    (h : '"' ∉ content) (rest : List Char) :
    scan ('"' :: (content ++ '"' :: rest)) =
      .quoted (String.ofList content) :: scan rest := by
  have hcontent : ∀ c ∈ content, (c != '"') = true := fun c hc =>
    bne_iff_ne.2 (ne_of_mem_of_not_mem hc h)
  have hstop : ∀ c ∈ ('"' :: rest).head?, (c != '"') = false := by simp
  have hhead : headToken '"' (content ++ '"' :: rest) =
      (.quoted (String.ofList content), rest) := by
    rw [headToken, if_neg (by decide), if_pos rfl,
      takeWhile_append_of_stop hcontent hstop,
      dropWhile_append_of_stop hcontent hstop, List.tail_cons]
  rw [scan_eq_cons (List.dropWhile_cons_of_neg (by decide)), hhead]

theorem isPlain_iff {c : Char} :
    isPlain c = true ↔ c ≠ ',' ∧ c ≠ '"' ∧ Text.isBlank c = false := by
  simp [isPlain, and_assoc]

/-- A run of plain characters is one token, if it ends there. -/
theorem scan_run {run rest : List Char} (hne : run ≠ [])
    (hrun : ∀ c ∈ run, isPlain c = true)
    (hstop : ∀ c ∈ rest.head?, isPlain c = false) :
    scan (run ++ rest) = ofRun run :: scan rest := by
  obtain ⟨c, run, rfl⟩ := List.exists_cons_of_ne_nil hne
  obtain ⟨hcomma, hquote, hblank⟩ := isPlain_iff.1 (hrun c List.mem_cons_self)
  have htail : ∀ d ∈ run, isPlain d = true :=
    fun d hd => hrun d (List.mem_cons_of_mem c hd)
  have hhead : headToken c (run ++ rest) = (ofRun (c :: run), rest) := by
    rw [headToken, if_neg hcomma, if_neg hquote,
      takeWhile_append_of_stop htail hstop,
      dropWhile_append_of_stop htail hstop]
  rw [List.cons_append,
    scan_eq_cons (List.dropWhile_cons_of_neg (by simp [hblank])), hhead]

theorem ofRun_of_decimal {cs : List Char} (h : Decimal cs) :
    ofRun cs = .number (String.ofList cs) := if_pos (isNumber_iff.2 h)

theorem ofRun_of_not_decimal {cs : List Char} (h : ¬ Decimal cs) :
    ofRun cs = .word (String.ofList cs) := if_neg (mt isNumber_iff.1 h)

end Token

/-! ## Rows of fields -/

namespace Field

/-- What stands at one position. -/
inductive Content where
  | empty
  | number (text : String) (decimal : Decimal text.toList)
  | quoted (text : String) (closed : '"' ∉ text.toList)

namespace Content

def written : Content → List Char
  | empty => []
  | number text _ => text.toList
  | quoted text _ => '"' :: (text.toList ++ ['"'])

/-- What it says, without the quotes. -/
def value? : Content → Option String
  | empty => none
  | number text _ => some text
  | quoted text _ => some text

def token? : Content → Option Token
  | empty => none
  | number text _ => some (.number text)
  | quoted text _ => some (.quoted text)

end Content

/-- A field, and the blanks around it. -/
structure Slot where
  before : List Char
  content : Content
  after : List Char
  blank_before : ∀ c ∈ before, Text.isBlank c = true
  blank_after : ∀ c ∈ after, Text.isBlank c = true

def Slot.written (s : Slot) : List Char :=
  s.before ++ (s.content.written ++ s.after)

/-- The word that leads a reply, and the blanks that part it from the fields. -/
structure Heading where
  word : List Char
  gap : List Char
  word_ne_nil : word ≠ []
  plain : ∀ c ∈ word, c ≠ ',' ∧ c ≠ '"' ∧ Text.isBlank c = false
  not_decimal : ¬ Decimal word
  gap_ne_nil : gap ≠ []
  blank_gap : ∀ c ∈ gap, Text.isBlank c = true

def Heading.written (h : Heading) : List Char := h.word ++ h.gap

/-- The fields of a reply, with a word in front or none. -/
structure Row where
  heading? : Option Heading
  slots : List Slot

def Row.text (r : Row) : String :=
  String.ofList (r.heading?.elim [] Heading.written ++
    List.intercalate [','] (r.slots.map Slot.written))

/-! ## Reading a row -/

theorem not_plain_of_blank {c : Char} (h : Text.isBlank c = true) :
    Token.isPlain c = false := by
  simp [Token.isPlain, h]

theorem not_plain_head_append {blanks rest : List Char}
    (hblanks : ∀ c ∈ blanks, Text.isBlank c = true)
    (hrest : ∀ c ∈ rest.head?, Token.isPlain c = false) :
    ∀ c ∈ (blanks ++ rest).head?, Token.isPlain c = false := by
  cases blanks with
  | nil => exact hrest
  | cons b blanks =>
      intro c hc
      rw [← Option.some.inj hc]
      exact not_plain_of_blank (hblanks b List.mem_cons_self)

theorem scan_content (x : Content) {rest : List Char}
    (hrest : ∀ c ∈ rest.head?, Token.isPlain c = false) :
    Token.scan (x.written ++ rest) = x.token?.toList ++ Token.scan rest := by
  cases x with
  | empty => rfl
  | number text decimal =>
      have hrun := Token.scan_run (Token.ne_nil_of_decimal decimal)
        (Token.isPlain_of_decimal decimal) hrest
      rw [Token.ofRun_of_decimal decimal, String.ofList_toList] at hrun
      exact hrun
  | quoted text closed =>
      have hquoted := Token.scan_quoted closed rest
      rw [String.ofList_toList] at hquoted
      rw [Content.written, List.cons_append, List.append_assoc]
      exact hquoted

theorem scan_slot (s : Slot) {rest : List Char}
    (hrest : ∀ c ∈ rest.head?, Token.isPlain c = false) :
    Token.scan (s.written ++ rest) = s.content.token?.toList ++
      Token.scan rest := by
  rw [Slot.written, List.append_assoc, List.append_assoc,
    Token.scan_blanks s.blank_before,
    scan_content s.content (not_plain_head_append s.blank_after hrest),
    Token.scan_blanks s.blank_after]

theorem scan_slots (slots : List Slot) :
    Token.scan (List.intercalate [','] (slots.map Slot.written)) =
      List.intercalate [.comma] (slots.map (·.content.token?.toList)) := by
  induction slots with
  | nil => exact Token.scan_eq_nil rfl
  | cons s slots ih =>
      cases slots with
      | nil =>
          have hnil : Token.scan [] = [] := Token.scan_eq_nil rfl
          have hs : Token.scan (s.written ++ []) = s.content.token?.toList ++
              Token.scan [] :=
            scan_slot s (by simp)
          rw [hnil, List.append_nil, List.append_nil] at hs
          rw [List.map_singleton, List.map_singleton,
            List.intercalate_singleton, List.intercalate_singleton]
          exact hs
      | cons s' slots =>
          simp only [List.map_cons, List.intercalate_cons_cons,
            List.append_assoc, List.singleton_append] at ih ⊢
          rw [scan_slot s (by simp [Token.isPlain]), Token.scan_comma, ih]

theorem scan_heading (h : Heading) (rest : List Char) :
    Token.scan (h.written ++ rest) =
      .word (String.ofList h.word) :: Token.scan rest := by
  have hgap : ∀ c ∈ (h.gap ++ rest).head?, Token.isPlain c = false := by
    obtain ⟨b, gap, hb⟩ := List.exists_cons_of_ne_nil h.gap_ne_nil
    rw [hb, List.cons_append, List.head?_cons]
    rintro c ⟨⟩
    exact not_plain_of_blank (h.blank_gap b (hb ▸ List.mem_cons_self))
  rw [Heading.written, List.append_assoc,
    Token.scan_run h.word_ne_nil (fun c hc =>
      Token.isPlain_iff.2 (h.plain c hc)) hgap,
    Token.ofRun_of_not_decimal h.not_decimal, Token.scan_blanks h.blank_gap]

theorem nth?_intercalate (xs : List Content) (i : Nat) :
    nth? i (List.intercalate [.comma] (xs.map (·.token?.toList))) =
      xs[i]?.bind (·.value?) := by
  induction xs generalizing i with
  | nil => rfl
  | cons x xs ih =>
      cases xs with
      | nil =>
          rw [List.map_singleton, List.intercalate_singleton]
          cases x <;> cases i <;> rfl
      | cons y xs =>
          rw [List.map_cons, List.map_cons, List.intercalate_cons_cons,
            List.append_assoc, List.singleton_append]
          rw [List.map_cons] at ih
          cases i with
          | zero => cases x <;> rfl
          | succ i =>
              rw [List.getElem?_cons_succ, ← ih]
              cases x <;> rfl

theorem at?_text (r : Row) (i : Nat) :
    at? i r.text = r.slots[i]?.bind (·.content.value?) := by
  have hslots := nth?_intercalate (r.slots.map (·.content)) i
  rw [List.map_map, List.getElem?_map, Option.bind_map] at hslots
  rw [at?, Token.ofText, Row.text, String.toList_ofList]
  cases r.heading? with
  | none =>
      rw [Option.elim_none, List.nil_append, scan_slots]
      exact hslots
  | some h =>
      rw [Option.elim_some, scan_heading, scan_slots]
      exact hslots

/-! ## Fields without blanks -/

def Slot.bare (x : Content) : Slot where
  before := []
  content := x
  after := []
  blank_before _ h := absurd h List.not_mem_nil
  blank_after _ h := absurd h List.not_mem_nil

/-- A number that consists of digits alone. -/
def Content.digits : {s : String // Digits s.toList} → Content
  | ⟨text, h⟩ => .number text h.decimal

/-- Nothing but fields and commas. -/
def Row.bare (xs : List Content) : Row := ⟨none, xs.map Slot.bare⟩

theorem toList_bare (xs : List Content) :
    (Row.bare xs).text.toList = List.intercalate [',']
      (xs.map (·.written)) := by
  have hwritten (x : Content) : (Slot.bare x).written = x.written :=
    List.append_nil _
  simp only [Row.text, Row.bare, String.toList_ofList, Option.elim_none,
    List.nil_append, List.map_map, Function.comp_def, hwritten]

theorem at?_bare (xs : List Content) (i : Nat) :
    at? i (Row.bare xs).text = xs[i]?.bind (·.value?) := by
  rw [at?_text, Row.bare, List.getElem?_map, Option.bind_map]
  rfl

/-- A blank between the name of a reply and its first field does nothing. -/
theorem at?_blank (i : Nat) (s : String) : at? i (" " ++ s) = at? i s := by
  have hblank : ∀ c ∈ " ".toList, Text.isBlank c = true :=
    List.forall_mem_singleton.2 rfl
  rw [at?, at?, Token.ofText, Token.ofText, String.toList_append,
    Token.scan_blanks hblank]

/-- Only quotes hide commas; where there are none in quotes, they tell the
number of fields. -/
theorem count_comma_bare {xs : List Content} (h : ∀ x ∈ xs, ',' ∉ x.written) :
    (Row.bare xs).text.toList.count ',' = xs.length - 1 := by
  rw [toList_bare]
  induction xs with
  | nil => rfl
  | cons x xs ih =>
      have hx : x.written.count ',' = 0 :=
        List.count_eq_zero.2 (h x List.mem_cons_self)
      cases xs with
      | nil =>
          rw [List.map_singleton, List.intercalate_singleton, hx]
          rfl
      | cons y xs =>
          have hrest := ih fun z hz => h z (List.mem_cons_of_mem x hz)
          rw [List.map_cons, List.length_cons] at hrest
          rw [List.map_cons, List.map_cons, List.intercalate_cons_cons,
            List.count_append, List.count_append, hx, hrest,
            List.count_singleton_self, List.length_cons, List.length_cons]
          omega

theorem comma_not_mem_number {text : String} (h : Decimal text.toList) :
    ',' ∉ (Content.number text h).written := by
  intro hmem
  have hplain := Token.isPlain_of_decimal h ',' hmem
  exact absurd hplain (by decide)

/-! ## Fields in any row -/

/-- At each position of a row stands what was written there, for the text and
for its bytes; there is nothing where nothing was written, and nothing behind
the last field. -/
theorem fields_read_back (r : Row) (i : Nat) :
    at? i r.text = r.slots[i]?.bind (·.content.value?) ∧
      (Line.ofText r.text).field? i = r.slots[i]?.bind (·.content.value?) := by
  refine ⟨at?_text r i, ?_⟩
  rw [Line.field?, Line.text?_ofText, Option.bind_some, at?_text]

example : at? 2 "+QIND: \"FOTA\" ,, \"a,b\"" = some "a,b" := by decide +kernel

end Field

end CellModem
