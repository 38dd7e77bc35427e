import CellModem.Command

/-!
# What a command loses when it is too long

A command has space for 256 bytes, and a text that takes more should lose its
end and nothing else. Cutting one text does just that: what is left is the
longest beginning that fits (`longest_cut`).

But a command is made of pieces, and each of them is cut by itself. A character
of several bytes may find too little space and still leave some, up to three
bytes, and what begins the next piece may be smaller. So the quote that closes
a name can go in behind a name that has lost its end, and the command then
names something else. `shortened_at_end_iff` says when this comes about: if and
only if a piece behind the one that is cut begins with a character for which
there is space left.
-/

namespace CellModem

/-! ## Cutting one text -/

namespace Text

/-- The longest beginning of a text that takes at most `room` bytes. -/
structure Longest (room : Nat) (cs r : List Char) : Prop where
  begins : r <+: cs
  fits : size r ≤ room
  longest : ∀ s, s <+: cs → size s ≤ room → s <+: r

variable {room : Nat} {cs s t : List Char}

theorem isPrefix_cut (room : Nat) (cs : List Char) : cut room cs <+: cs := by
  induction cs generalizing room with
  | nil => exact List.prefix_rfl
  | cons c cs ih =>
      rw [cut]
      split
      · exact List.cons_prefix_cons.2 ⟨rfl, ih _⟩
      · exact List.nil_prefix

theorem prefix_cut (hs : s <+: cs) (hfits : size s ≤ room) :
    s <+: cut room cs := by
  induction cs generalizing room s with
  | nil => exact hs
  | cons c cs ih =>
      cases s with
      | nil => exact List.nil_prefix
      | cons d s =>
          obtain ⟨rfl, htail⟩ := List.cons_prefix_cons.1 hs
          rw [size] at hfits
          rw [cut, if_pos (by omega)]
          exact List.cons_prefix_cons.2 ⟨rfl, ih htail (by omega)⟩

theorem longest_cut (room : Nat) (cs : List Char) :
    Longest room cs (cut room cs) :=
  ⟨isPrefix_cut room cs, size_cut_le room cs, fun _ => prefix_cut⟩

theorem longest_iff {r : List Char} : Longest room cs r ↔ r = cut room cs := by
  constructor
  · intro h
    have hle : r <+: cut room cs := prefix_cut h.begins h.fits
    have hge : cut room cs <+: r :=
      h.longest _ (isPrefix_cut room cs) (size_cut_le room cs)
    exact hle.eq_of_length_le hge.length_le
  · rintro rfl
    exact longest_cut room cs

theorem longest_ofString {limit : Nat} (s : String) :
    Longest limit s.toList (BoundedText.ofString s :
      BoundedText limit).text.toList := by
  have htext : (BoundedText.ofString s : BoundedText limit).text.toList =
      cut limit s.toList :=
    BoundedText.toList_push .empty s
  rw [htext]
  exact longest_cut limit s.toList

/-- What is left out begins with a character that has no space, and no character
takes more than four bytes. -/
theorem cut_eq_or_lt (room : Nat) (cs : List Char) :
    cut room cs = cs ∨ room < size (cut room cs) + 4 := by
  induction cs generalizing room with
  | nil => exact Or.inl rfl
  | cons c cs ih =>
      rw [cut]
      split
      · rcases ih (room - c.utf8Size) with hall | hlt
        · exact Or.inl (by rw [hall])
        · right
          rw [size]
          omega
      · next hfull =>
          right
          have hfour := c.utf8Size_le_four
          rw [size]
          omega

/-- Characters of one byte each leave no space that they could take. -/
theorem size_cut_narrow (h : ∀ c ∈ cs, c.utf8Size = 1) (room : Nat) :
    size (cut room cs) = min room cs.length := by
  induction cs generalizing room with
  | nil => exact (Nat.min_zero room).symm
  | cons c cs ih =>
      have hc : c.utf8Size = 1 := h c List.mem_cons_self
      rw [cut, hc, List.length_cons]
      split
      · rw [size, hc, ih fun d hd => h d (List.mem_cons_of_mem c hd)]
        omega
      · rw [size]
        omega

theorem cut_append_of_le (h : size s ≤ room) (t : List Char) :
    cut room (s ++ t) = s ++ cut (room - size s) t := by
  induction s generalizing room with
  | nil => rfl
  | cons c s ih =>
      rw [size] at h
      rw [List.cons_append, cut, if_pos (by omega), ih (by omega), size,
        Nat.sub_add_eq]
      rfl

theorem cut_append_of_lt (h : room < size s) (t : List Char) :
    cut room (s ++ t) = cut room s := by
  induction s generalizing room with
  | nil => exact absurd h (Nat.not_lt_zero room)
  | cons c s ih =>
      rw [size] at h
      rw [List.cons_append, cut, cut]
      split
      · rw [ih (by omega)]
      · rfl

theorem cut_eq_nil_iff :
    cut room cs = [] ↔ ∀ c ∈ cs.head?, room < c.utf8Size := by
  cases cs with
  | nil => simp [cut]
  | cons c cs => simp [cut]

end Text

/-! ## Cutting piece by piece -/

namespace Command

open Text

/-- All that the pieces say. -/
def joined (pieces : List String) : List Char := pieces.flatMap String.toList

/-- What goes in of the pieces where there is space for `room` bytes. -/
def entered : Nat → List String → List Char
  | _, [] => []
  | room, p :: pieces =>
    cut room p.toList ++ entered (room - size (cut room p.toList)) pieces

/-- Whether a piece behind one that was cut begins with a character for which
that one has left space. -/
def Spills (room : Nat) (pieces : List String) : Prop :=
  ∃ read rest, pieces = read ++ rest ∧ room < size (joined read) ∧
    ∃ p ∈ rest, ∃ c ∈ p.toList.head?,
    size (cut room (joined read)) + c.utf8Size ≤ room

variable {room : Nat} {p : String} {pieces : List String}

theorem joined_cons (p : String) (pieces : List String) :
    joined (p :: pieces) = p.toList ++ joined pieces := rfl

theorem room_push (c : Command) (p : String) :
    (c.push p).value.content.room =
      c.content.room - size (cut c.content.room p.toList) := by
  rw [value_push, BoundedText.room, BoundedText.size_push, Nat.sub_add_eq]
  rfl

theorem toList_pushAll (c : Command) (pieces : List String) :
    (c.pushAll pieces).value.text.toList = c.text.toList ++
      entered c.content.room pieces := by
  induction pieces generalizing c with
  | nil => exact (List.append_nil _).symm
  | cons p pieces ih =>
      have htext : (c.push p).value.text.toList =
          c.text.toList ++ cut c.content.room p.toList :=
          c.content.toList_push p
      show ((c.push p).value.pushAll pieces).value.text.toList = _
      rw [ih, htext, room_push, entered, List.append_assoc]

theorem toList_ofPieces (pieces : List String) :
    (ofPieces pieces).value.text.toList = entered limit pieces :=
    toList_pushAll empty pieces

theorem size_entered_le (room : Nat) (pieces : List String) :
    size (entered room pieces) ≤ room := by
  induction pieces generalizing room with
  | nil => exact Nat.zero_le room
  | cons p pieces ih =>
      have hcut := size_cut_le room p.toList
      have hrest := ih (room - size (cut room p.toList))
      rw [entered, size_append]
      omega

theorem entered_eq_nil_iff :
    entered room pieces = [] ↔ ∀ p ∈ pieces, ∀ c ∈ p.toList.head?, room <
      c.utf8Size := by
  induction pieces with
  | nil => simp [entered]
  | cons p pieces ih =>
      rw [entered, List.append_eq_nil_iff, List.forall_mem_cons,
        ← cut_eq_nil_iff]
      refine and_congr_right fun hnil => ?_
      rw [hnil]
      exact ih

theorem entered_cons_of_le (h : size p.toList ≤ room) (pieces : List String) :
    entered room (p :: pieces) =
      p.toList ++ entered (room - size p.toList) pieces := by
  rw [entered, cut_eq_self h]

/-! ## When something spills -/

theorem spills_cons_of_le (h : size p.toList ≤ room) :
    Spills room (p :: pieces) ↔ Spills (room - size p.toList) pieces := by
  constructor
  · rintro ⟨read, rest, hpieces, hlong, q, hq, c, hc, hspace⟩
    cases read with
    | nil => exact absurd hlong (Nat.not_lt_zero room)
    | cons p' read =>
        obtain ⟨rfl, rfl⟩ := List.cons.inj hpieces
        rw [joined_cons, size_append] at hlong
        rw [joined_cons, cut_append_of_le h, size_append] at hspace
        exact ⟨read, rest, rfl, by omega, q, hq, c, hc, by omega⟩
  · rintro ⟨read, rest, rfl, hlong, q, hq, c, hc, hspace⟩
    refine ⟨p :: read, rest, rfl, ?_, q, hq, c, hc, ?_⟩
    · rw [joined_cons, size_append]
      omega
    · rw [joined_cons, cut_append_of_le h, size_append]
      omega

theorem spills_cons_of_lt (h : room < size p.toList) :
    Spills room (p :: pieces) ↔
      ∃ q ∈ pieces, ∃ c ∈ q.toList.head?,
      size (cut room p.toList) + c.utf8Size ≤ room := by
  constructor
  · rintro ⟨read, rest, hpieces, hlong, q, hq, c, hc, hspace⟩
    cases read with
    | nil => exact absurd hlong (Nat.not_lt_zero room)
    | cons p' read =>
        obtain ⟨rfl, rfl⟩ := List.cons.inj hpieces
        rw [joined_cons, cut_append_of_lt h] at hspace
        exact ⟨q, List.mem_append_right read hq, c, hc, hspace⟩
  · rintro ⟨q, hq, c, hc, hspace⟩
    have hjoined : joined [p] = p.toList := List.append_nil _
    exact ⟨[p], pieces, rfl, hjoined.symm ▸ h, q, hq, c, hc,
      hjoined.symm ▸ hspace⟩

theorem spills_append_of_le {before : List String}
    (h : size (joined before) ≤ room) :
    Spills room (before ++ pieces) ↔
      Spills (room - size (joined before)) pieces := by
  induction before generalizing room with
  | nil => rfl
  | cons p before ih =>
      rw [joined_cons, size_append] at h ⊢
      rw [List.cons_append, spills_cons_of_le (by omega), ih (by omega),
        Nat.sub_add_eq]

theorem not_spills_nil (room : Nat) : ¬ Spills room [] := by
  rintro ⟨read, rest, hpieces, hlong, -⟩
  obtain ⟨rfl, rfl⟩ := List.append_eq_nil_iff.1 hpieces.symm
  exact Nat.not_lt_zero room hlong

theorem not_spills_singleton (room : Nat) (p : String) : ¬ Spills room [p] := by
  rcases Nat.lt_or_ge room (size p.toList) with h | h
  · rw [spills_cons_of_lt h]
    simp
  · rw [spills_cons_of_le h]
    exact not_spills_nil _

theorem not_spills_of_fits (h : size (joined pieces) ≤ room) :
    ¬ Spills room pieces := by
  rw [← List.append_nil pieces, spills_append_of_le h]
  exact not_spills_nil _

/-- Characters of one byte each fill the space up when they are cut. -/
theorem not_spills_narrow (h : ∀ c ∈ p.toList, c.utf8Size = 1) (q : String) :
    ¬ Spills room [p, q] := by
  rcases Nat.lt_or_ge room (size p.toList) with hlt | hge
  · rw [spills_cons_of_lt hlt]
    rintro ⟨q, -, c, -, hspace⟩
    have hpos := c.utf8Size_pos
    have hlen : size p.toList = p.toList.length := by
      have hcut := size_cut_narrow h (size p.toList + p.toList.length)
      rw [cut_eq_self (Nat.le_add_right _ _)] at hcut
      omega
    rw [size_cut_narrow h] at hspace
    omega
  · rw [spills_cons_of_le hge]
    exact not_spills_singleton _ _

/-- Each piece being cut by itself comes to the same as cutting all of them
together if nothing spills, and only then. -/
theorem entered_eq_cut_iff :
    entered room pieces = cut room (joined pieces) ↔ ¬ Spills room pieces := by
  induction pieces generalizing room with
  | nil => exact ⟨fun _ => not_spills_nil room, fun _ => rfl⟩
  | cons p pieces ih =>
      rcases Nat.lt_or_ge room (size p.toList) with hlt | hge
      · rw [spills_cons_of_lt hlt, joined_cons, cut_append_of_lt hlt, entered,
          List.append_right_eq_self, entered_eq_nil_iff]
        simp only [not_exists, not_and, Nat.not_le,
          Nat.sub_lt_iff_lt_add (size_cut_le _ _), Nat.add_comm]
      · rw [spills_cons_of_le hge, joined_cons, cut_append_of_le hge,
          entered_cons_of_le hge, List.append_cancel_left_eq, ih]

theorem exists_spill (room : Nat) (pieces : List String) :
    ∃ spill, entered room pieces = cut room (joined pieces) ++ spill := by
  induction pieces generalizing room with
  | nil => exact ⟨[], rfl⟩
  | cons p pieces ih =>
      rcases Nat.lt_or_ge room (size p.toList) with hlt | hge
      · rw [joined_cons, cut_append_of_lt hlt, entered]
        exact ⟨_, rfl⟩
      · obtain ⟨spill, hspill⟩ := ih (room - size p.toList)
        rw [joined_cons, cut_append_of_le hge, entered_cons_of_le hge, hspill]
        exact ⟨spill, (List.append_assoc _ _ _).symm⟩

theorem entered_eq_joined_iff :
    entered room pieces = joined pieces ↔ size (joined pieces) ≤ room := by
  constructor
  · intro h
    rw [← h]
    exact size_entered_le room pieces
  · intro h
    rw [entered_eq_cut_iff.2 (not_spills_of_fits h), cut_eq_self h]

theorem exists_small_spill (room : Nat) (pieces : List String) :
    ∃ kept spill, entered room pieces = kept ++ spill ∧
    Longest room (joined pieces) kept ∧
      size spill ≤ 3 := by
  obtain ⟨spill, hspill⟩ := exists_spill room pieces
  refine ⟨_, spill, hspill, longest_cut room _, ?_⟩
  have hsize := size_entered_le room pieces
  rw [hspill, size_append] at hsize
  rcases cut_eq_or_lt room (joined pieces) with hall | hlt
  · have hfits : size (joined pieces) ≤ room := hall ▸ size_cut_le room _
    rw [entered_eq_joined_iff.2 hfits, hall,
      List.self_eq_append_right] at hspill
    rw [hspill]
    exact Nat.zero_le 3
  · omega

end Command

/-! ## Requests -/

namespace Request

open Text

/-- The text from outside that a request puts in quotes. -/
def quoted? : Request → Option String
  | .enterPin pin => some pin
  | .queryConfig name => some name
  | .setConfig name _ => some name
  | .dial _ | .attention | .setEcho _ | .answer | .hangUp |
      .listCalls | .simStatus
  | .registration | .reboot | .powerDown => none

/-- The space that a command has for a text in quotes, behind its eight leading
characters and the first quote. -/
def quotedRoom : Nat := Command.limit - 9

/-- Behind a text in quotes there is a quote first, and that takes one byte. -/
theorem spills_quoted_iff {lead s close : String} {c : Char}
    {rest : List String} (hlead : size lead.toList = 8)
    (hc : c ∈ close.toList.head?) (hone : c.utf8Size = 1)
    (hrest : ∀ room, ¬ Command.Spills room (close :: rest)) :
    Command.Spills Command.limit (lead :: "\"" :: s :: close :: rest) ↔
      quotedRoom < size s.toList ∧ size (cut quotedRoom s.toList) <
        quotedRoom := by
  have hbefore : size (Command.joined [lead, "\""]) = 9 := by
    rw [Command.joined_cons, size_append, hlead]
    rfl
  have hroom : size (Command.joined [lead, "\""]) ≤ Command.limit := by
    rw [hbefore]
    decide
  show Command.Spills Command.limit ([lead, "\""] ++ s :: close :: rest) ↔ _
  rw [Command.spills_append_of_le hroom, hbefore]
  show Command.Spills quotedRoom _ ↔ _
  rcases Nat.lt_or_ge quotedRoom (size s.toList) with hlt | hge
  · rw [Command.spills_cons_of_lt hlt]
    constructor
    · rintro ⟨q, -, d, -, hspace⟩
      have hpos := d.utf8Size_pos
      exact ⟨hlt, by omega⟩
    · rintro ⟨-, hspace⟩
      exact ⟨close, List.mem_cons_self, c, hc, by rw [hone]; exact hspace⟩
  · rw [Command.spills_cons_of_le hge]
    exact ⟨fun h => absurd h (hrest _), fun h => absurd h.1 (Nat.not_lt.2 hge)⟩

theorem size_dial_le (number : PhoneNumber) :
    size (Command.joined (pieces (.dial number))) ≤ Command.limit := by
  have hnumber : size number.text.toList ≤ 50 := by
    rw [size_toList]
    exact number.content.fits
  have hjoined : Command.joined (pieces (.dial number)) =
      Command.dial.toList ++ (number.text.toList ++ ";".toList) := by
    simp [Command.joined, pieces]
  have hlead : size Command.dial.toList = 3 := rfl
  have hend : size ";".toList = 1 := rfl
  have hlimit : Command.limit = 256 := rfl
  rw [hjoined, size_append, size_append]
  omega

theorem spills_iff (q : Request) : Command.Spills Command.limit q.pieces ↔
    ∃ s ∈ q.quoted?, quotedRoom < size s.toList ∧
      size (cut quotedRoom s.toList) < quotedRoom := by
  cases q with
  | dial number =>
      simp [quoted?, Command.not_spills_of_fits (size_dial_le number)]
  | enterPin pin =>
      simp only [pieces, quoted?, Option.mem_some_iff, exists_eq_left']
      exact spills_quoted_iff rfl rfl rfl fun _ =>
        Command.not_spills_singleton _ _
  | queryConfig name =>
      simp only [pieces, quoted?, Option.mem_some_iff, exists_eq_left']
      exact spills_quoted_iff rfl rfl rfl fun _ =>
        Command.not_spills_singleton _ _
  | setConfig name value =>
      have hclose : ∀ c ∈ "\",".toList, c.utf8Size = 1 :=
        List.forall_mem_cons.2 ⟨rfl, List.forall_mem_singleton.2 rfl⟩
      simp only [pieces, quoted?, Option.mem_some_iff, exists_eq_left']
      exact spills_quoted_iff rfl rfl rfl fun _ =>
        Command.not_spills_narrow hclose value
  | _ => simp [quoted?, pieces, Command.not_spills_singleton]

end Request

namespace Command

open Text

theorem longest_ofPieces_iff (pieces : List String) :
    Longest limit (joined pieces) (ofPieces pieces).value.text.toList ↔
    ¬ Spills limit pieces := by
  rw [longest_iff, toList_ofPieces, entered_eq_cut_iff]

/-- A command made of pieces is the longest beginning of their text that has
space, unless a piece behind the one that is cut finds space again; at most
three bytes come in that way. All of the text is there just if it has space. Of
the requests, those that put a text in quotes are at risk: the text must fit, or
what is left of it must fill up its space. -/
theorem shortened_at_end_iff (pieces : List String) (q : Request) :
    let text := (ofPieces pieces).value.text.toList
    (Longest limit (joined pieces) text ↔ ¬ Spills limit pieces) ∧
      (text = joined pieces ↔ size (joined pieces) ≤ limit) ∧
      (∃ kept spill, text = kept ++ spill ∧ Longest limit (joined pieces) kept ∧
        size spill ≤ 3) ∧
      (Longest limit (joined q.pieces) q.encode.value.text.toList ↔
        ∀ s ∈ q.quoted?, size s.toList ≤ Request.quotedRoom ∨
          size (cut Request.quotedRoom s.toList) = Request.quotedRoom) := by
  refine ⟨longest_ofPieces_iff pieces, ?_, ?_, ?_⟩
  · rw [toList_ofPieces]
    exact entered_eq_joined_iff
  · rw [toList_ofPieces]
    exact exists_small_spill limit pieces
  · rw [Request.encode, longest_ofPieces_iff, Request.spills_iff]
    simp only [not_exists, not_and]
    refine forall_congr' fun s => imp_congr_right fun _ => ?_
    have hle := size_cut_le Request.quotedRoom s.toList
    omega

/-- A name that is one byte too long, and whose last character takes two: the
closing quote goes in where that character did not, and the command asks for
another setting. -/
theorem quote_behind_cut_name :
    let q : Request :=
      .queryConfig (String.ofList (List.replicate 246 'x' ++ ['é']))
    ¬ Longest limit (joined q.pieces) q.encode.value.text.toList ∧
      q.encode.value.text.toList =
        "AT+QCFG=\"".toList ++ (List.replicate 246 'x' ++ ['"']) := by
  have hcut : cut 247 (List.replicate 246 'x' ++ ['é']) =
      List.replicate 246 'x' := by
    decide +kernel
  have hsize : size (List.replicate 246 'x' ++ ['é']) = 248 := by decide +kernel
  have hkept : size (List.replicate 246 'x') = 246 := by decide +kernel
  have hname : (String.ofList (List.replicate 246 'x' ++ ['é'])).toList =
      List.replicate 246 'x' ++ ['é'] := String.toList_ofList
  have hroom : limit - size config.toList - size "\"".toList = 247 := rfl
  have hlead : config.toList ++ "\"".toList = "AT+QCFG=\"".toList := rfl
  have hend : entered 1 ["\""] = ['"'] := rfl
  intro q
  have hspills : Spills limit q.pieces := by
    refine q.spills_iff.2 ⟨_, rfl, ?_⟩
    rw [hname]
    show 247 < size _ ∧ size (cut 247 _) < 247
    rw [hsize, hcut, hkept]
    decide
  refine ⟨fun h => (longest_ofPieces_iff _).1 h hspills, ?_⟩
  rw [Request.encode, toList_ofPieces, Request.pieces,
    entered_cons_of_le (by decide), entered_cons_of_le (by decide), hroom,
    entered, hname, hcut, hkept, hend, ← List.append_assoc, hlead]

end Command

end CellModem
