import CellModem.Proofs.Framing
import CellModem.Proofs.Recognition
import CellModem.Proofs.Truncation

/-!
# The echo of a command

A modem may send back what it is sent, and then the first line of a reply is the
command itself. Whatever the pieces in which the bytes come back, they make one
line: there is no end of line in a command, and the line fits into the buffer.
It can be taken for nothing else either, for it begins like a command, and
neither results nor replies nor messages do.

But the transaction compares it with the text of the command, and not with what
was sent. The text may take 256 bytes, as many as the line on the wire with its
end, so two bytes of the longest commands are missing from what is sent. A
command of 255 or 256 bytes is not known when it comes back, and counts as noise
(`echo_known_iff`).
-/

namespace CellModem

/-! ## Texts without an end of line -/

namespace Text

/-- Whether there is no end of line in a text. -/
def OneLine (s : String) : Prop := ∀ c ∈ s.toList, c ≠ '\r' ∧ c ≠ '\n'

instance (s : String) : Decidable (OneLine s) := List.decidableBAll _ s.toList

/-- Only the characters that end a line have bytes that do. -/
theorem isLineEnd_of_mem_utf8EncodeChar {c : Char}
    (hc : c ≠ '\r' ∧ c ≠ '\n') {b : UInt8} (hb : b ∈ String.utf8EncodeChar c) :
    isLineEnd b = false := by
  have hne {d : Char} (h : c ≠ d) : c.val.toNat ≠ d.val.toNat := fun he =>
    h (Char.ext (UInt32.toNat_inj.1 he))
  have hcr : c.val.toNat ≠ 13 := hne hc.1
  have hlf : c.val.toNat ≠ 10 := hne hc.2
  have hval : b.toNat ≠ 13 ∧ b.toNat ≠ 10 := by
    unfold String.utf8EncodeChar at hb
    dsimp only at hb
    split at hb
    · rw [List.mem_singleton.1 hb, UInt8.toNat_ofNat']
      omega
    · split at hb
      · simp only [List.mem_cons, List.not_mem_nil, or_false] at hb
        rcases hb with rfl | rfl <;> rw [UInt8.toNat_ofNat'] <;> omega
      · split at hb
        · simp only [List.mem_cons, List.not_mem_nil, or_false] at hb
          rcases hb with rfl | rfl | rfl <;> rw [UInt8.toNat_ofNat'] <;> omega
        · simp only [List.mem_cons, List.not_mem_nil, or_false] at hb
          rcases hb with
              rfl | rfl | rfl | rfl <;> rw [UInt8.toNat_ofNat'] <;> omega
  rw [isLineEnd, Bool.or_eq_false_iff, beq_eq_false_iff_ne, beq_eq_false_iff_ne]
  exact ⟨fun he => hval.1 (by rw [he]; rfl), fun he => hval.2 (by rw [he]; rfl)⟩

theorem unbroken_bytes {s : String} (h : OneLine s) : Unbroken (bytes s) := by
  intro b hb
  obtain ⟨c, hc, hb⟩ := List.mem_flatMap.1 hb
  exact isLineEnd_of_mem_utf8EncodeChar (h c hc) hb

theorem OneLine.append {s t : String} (hs : OneLine s) (ht : OneLine t) :
    OneLine (s ++ t) := by
  intro c hc
  rw [String.toList_append] at hc
  rcases List.mem_append.1 hc with h | h
  · exact hs c h
  · exact ht c h

theorem oneLine_cut {s : String} (h : OneLine s) (room : Nat) :
    OneLine (String.ofList (cut room s.toList)) := by
  intro c hc
  rw [String.toList_ofList] at hc
  exact h c ((isPrefix_cut room s.toList).subset hc)

end Text

/-! ## What is sent of a command -/

namespace Command

theorem oneLine_pushAll {c : Command} {pieces : List String}
    (hc : Text.OneLine c.text) (hpieces : ∀ p ∈ pieces, Text.OneLine p) :
    Text.OneLine (c.pushAll pieces).value.text := by
  induction pieces generalizing c with
  | nil => exact hc
  | cons piece pieces ih =>
      have hpush : Text.OneLine (c.push piece).value.text :=
        hc.append (Text.oneLine_cut (hpieces piece List.mem_cons_self) _)
      exact ih hpush fun p hp => hpieces p (List.mem_cons_of_mem piece hp)

theorem oneLine_sentPart {c : Command} (h : Text.OneLine c.text) :
    Text.OneLine c.sentPart :=
  Text.oneLine_cut h _

theorem size_push (c : Command) (piece : String) :
    (c.push piece).value.text.utf8ByteSize = c.text.utf8ByteSize + Text.size
      (Text.cut c.content.room piece.toList) :=
  c.content.size_push piece

theorem size_push_replicate {c : Command} {d : Char}
    (hd : d.utf8Size = 1) {n : Nat} (h : c.content.room ≤ n) :
    (c.push (String.ofList (List.replicate n d))).value.text.utf8ByteSize =
      limit := by
  have hfits : c.text.utf8ByteSize ≤ limit := c.content.fits
  have hroom : c.content.room = limit - c.text.utf8ByteSize := rfl
  have hnarrow : ∀ e ∈ List.replicate n d, e.utf8Size = 1 := fun e he =>
    List.eq_of_mem_replicate he ▸ hd
  rw [size_push, String.toList_ofList, Text.size_cut_narrow hnarrow,
    List.length_replicate]
  omega

theorem size_push_of_full {c : Command} (h : c.text.utf8ByteSize = limit)
    {piece : String} : (c.push piece).value.text.utf8ByteSize = limit := by
  have hfits : (c.push piece).value.text.utf8ByteSize ≤ limit :=
    (c.push piece).value.content.fits
  rw [size_push, h] at hfits ⊢
  omega

/-- A command is sent whole if its end of line has space as well. -/
theorem sentPart_eq_iff (c : Command) :
    c.sentPart = c.text ↔ c.text.utf8ByteSize ≤ maxSent := by
  rw [← String.toList_inj, sentPart, String.toList_ofList, Text.cut_eq_self_iff,
    Text.size_toList]

/-- What is left of a command begins like it. -/
theorem fits_sentPart {c : Command} (h : spelling.Fits c.text) :
    spelling.Fits c.sentPart := by
  rcases Text.cut_eq_or_lt maxSent c.text.toList with hall | hlt
  · rw [sentPart, hall, String.ofList_toList]
    exact h
  · obtain ⟨rest, hrest⟩ := Text.isPrefix_cut maxSent c.text.toList
    have hprefix : Text.bytes c.sentPart <+: Text.bytes c.text := by
      refine ⟨Text.bytes (String.ofList rest), ?_⟩
      rw [← Text.bytes_append, sentPart, ← String.ofList_append, hrest,
        String.ofList_toList]
    -- Both are beginnings of the command, and the one that is sent is
    -- not the shorter one.
    refine List.prefix_of_prefix_length_le h hprefix ?_
    have hlong : maxSent < (Text.bytes c.sentPart).length + 4 := by
      rw [Text.length_bytes, sentPart, Text.utf8ByteSize_ofList]
      exact hlt
    have hlead : (Text.bytes attention).length = 2 := by decide
    have hmax : maxSent = 254 := maxSent_eq
    omega

end Command

namespace Request

/-- The texts in a request that come from outside. -/
def arguments : Request → List String
  | .dial number => [number.text]
  | .enterPin pin => [pin]
  | .queryConfig name => [name]
  | .setConfig name value => [name, value]
  | .attention | .setEcho _ | .answer | .hangUp | .listCalls |
      .simStatus | .registration
  | .reboot | .powerDown => []

theorem oneLine_or_argument {q : Request} {p : String} (hp : p ∈ q.pieces) :
    Text.OneLine p ∨ p ∈ q.arguments := by
  cases q with
  | dial number =>
      simp only [pieces, List.mem_cons, List.not_mem_nil, or_false] at hp
      rcases hp with rfl | rfl | rfl
      · exact Or.inl (by decide)
      · exact Or.inr (by simp [arguments])
      · exact Or.inl (by decide)
  | enterPin pin =>
      simp only [pieces, List.mem_cons, List.not_mem_nil, or_false] at hp
      rcases hp with rfl | rfl | rfl | rfl
      · exact Or.inl (by decide)
      · exact Or.inl (by decide)
      · exact Or.inr (by simp [arguments])
      · exact Or.inl (by decide)
  | queryConfig name =>
      simp only [pieces, List.mem_cons, List.not_mem_nil, or_false] at hp
      rcases hp with rfl | rfl | rfl | rfl
      · exact Or.inl (by decide)
      · exact Or.inl (by decide)
      · exact Or.inr (by simp [arguments])
      · exact Or.inl (by decide)
  | setConfig name value =>
      simp only [pieces, List.mem_cons, List.not_mem_nil, or_false] at hp
      rcases hp with rfl | rfl | rfl | rfl | rfl
      · exact Or.inl (by decide)
      · exact Or.inl (by decide)
      · exact Or.inr (by simp [arguments])
      · exact Or.inl (by decide)
      · exact Or.inr (by simp [arguments])
  | setEcho on =>
      rw [List.mem_singleton.1 hp]
      exact Or.inl (by cases on <;> decide)
  | _ =>
      rw [List.mem_singleton.1 hp]
      exact Or.inl (by decide)

theorem oneLine_encode {q : Request} (h : ∀ s ∈ q.arguments, Text.OneLine s) :
    Text.OneLine q.encode.value.text :=
  Command.oneLine_pushAll (by decide) fun _ hp =>
    (oneLine_or_argument hp).elim id (h _)

end Request

/-! ## What comes back -/

namespace Transaction

variable {q : Request}

/-- A line that is neither a result nor a part of the reply nor a message leaves
the transaction as it was, and it is the command or it is noise. -/
theorem handle_of_unknown {t : Transaction}
    (hopen : t.complete = false) {s : String} (hne : Text.bytes s ≠ [])
    (hunknown : ∀ r ∈ Recogniser.all, r ≠ .echo → t.knows s r = false) :
    (t.handle (.ofText s)).value = (t, if s = t.command.text then .echo
      else .noise) := by
  have hfinal : (FinalResult.ofText? s).isSome = false :=
    hunknown .final (by decide) (by decide)
  have hmessage : (Urc.ofText? s).isSome = false :=
    hunknown .message (by decide) (by decide)
  rw [Option.isSome_eq_false_iff, Option.isNone_iff_eq_none] at hfinal hmessage
  have hpart : (t.response.accept (.ofText s)).value.isSome = false :=
    hunknown .part (by decide) (by decide)
  have htext : (Line.ofText s).text? = some s := Line.text?_ofText s
  have hnotFinal : t.final? (.ofText s) = none := by
    rw [final?, htext, Option.bind_eq_none_iff]
    intro s' hs'
    rw [← Option.some.inj (Option.filter_eq_some_iff.1 hs').1]
    exact hfinal
  have htakes : t.takes (.ofText s) = false := by
    rw [takes, hpart, Bool.and_false]
  have hstray : Event.ofStray (.ofText s) = .noise := by
    rw [Event.ofStray, Urc.ofLine?, htext, Option.bind_some, hmessage]
  have hbytes : (Line.ofText s).bytes ≠ [] := hne
  have hsame : (⟨t.command, t.response, false⟩ : Transaction) = t := by
    rw [← hopen]
  rw [handle_of_not_final hopen hnotFinal, openEvent, htakes, htext, hstray]
  simp only [Option.some.injEq, hbytes, ne_eq, not_false_eq_true, and_true,
    Bool.false_eq_true, if_false, hsame]

theorem bytes_sentPart_ne_nil (q : Request) :
    Text.bytes (start q).value.command.sentPart ≠ [] := by
  intro hnil
  have hfits : Command.spelling.Fits (start q).value.command.sentPart :=
    Command.fits_sentPart q.fits_encode
  rw [Command.spelling, Spelling.Fits, hnil] at hfits
  cases List.prefix_nil.1 hfits

/-- What is sent of a command is the command itself or nothing that the
transaction knows. -/
theorem handle_sentPart (q : Request) :
    ((start q).value.handle (.ofText (start q).value.command.sentPart)).value =
      ((start q).value,
        if (start q).value.command.text.utf8ByteSize ≤ Command.maxSent
          then .echo
        else .noise) := by
  have hfits : Command.spelling.Fits (start q).value.command.sentPart :=
    Command.fits_sentPart q.fits_encode
  have hreply : ∀ p ∈ q.spelling?.toList, Command.spelling.apart p = true := by
    cases q <;> simp [Request.spelling?] <;> decide
  have hunknown : ∀ r ∈ Recogniser.all, r ≠ .echo →
      (start q).value.knows (start q).value.command.sentPart r = false := by
    intro r _ hr
    refine not_knows_of_apart (q := q) hfits ?_
    cases r with
    | echo => exact absurd rfl hr
    | final =>
        exact show ∀ p ∈ FinalResult.spellings, Command.spelling.apart p =
          true by decide
    | part => exact hreply
    | message =>
        exact show ∀ p ∈ Urc.spelled.map Prod.fst, Command.spelling.apart p =
          true by decide
  have hhandle :=
    handle_of_unknown (t := (start q).value) rfl
      (bytes_sentPart_ne_nil q) hunknown
  simp only [Command.sentPart_eq_iff] at hhandle
  exact hhandle

theorem isEmpty_ofText {s : String} (h : Text.bytes s ≠ []) :
    (Line.ofText s).isEmpty = false :=
  List.isEmpty_eq_false_iff.2 h

theorem handle_empty (t : Transaction) :
    (t.handle ⟨[]⟩).value = (t, .noise) := by
  have htext : (⟨[]⟩ : Line).text? = some "" := Line.text?_ofText ""
  rw [handle, htext]
  rfl

theorem issue_unlimited (q : Request) : (issue q .unlimited).value =
    ((start q).value, Text.bytes (start q).value.command.sentPart ++
      [13, 10]) := by
  have hend : Text.bytes Command.terminator = [13, 10] := by decide
  rw [issue, Traced.value_bind, Traced.value_bind, Traced.value_pure,
    Sink.value_send_unlimited, Command.value_render, Text.bytes_append, hend]

/-- What lines turn out to be that are empty or what was sent. -/
theorem handleAll_sentPart {lines : List Line}
    (h : ∀ l ∈ lines, l.isEmpty = true ∨
      l = .ofText (start q).value.command.sentPart) :
    ((start q).value.handleAll lines).value =
      ((start q).value, lines.map fun l =>
        if l.isEmpty = true ∨
            Command.maxSent < (start q).value.command.text.utf8ByteSize
          then .noise
        else .echo) := by
  induction lines with
  | nil => rfl
  | cons l lines ih =>
      have hl : ((start q).value.handle l).value = ((start q).value,
          if l.isEmpty = true ∨
            Command.maxSent < (start q).value.command.text.utf8ByteSize
          then .noise else .echo) := by
        rcases h l List.mem_cons_self with hempty | rfl
        · obtain rfl : l = ⟨[]⟩ := congrArg Line.mk (List.isEmpty_iff.1 hempty)
          exact handle_empty _
        · rw [handle_sentPart, isEmpty_ofText (bytes_sentPart_ne_nil q)]
          by_cases hlen : (start q).value.command.text.utf8ByteSize ≤
            Command.maxSent
          · rw [if_pos hlen, if_neg (by simpa using hlen)]
          · rw [if_neg hlen, if_pos (by simpa using hlen)]
      rw [handleAll, Traced.value_bind, hl, Traced.value_bind,
        ih fun k hk => h k (List.mem_cons_of_mem l hk)]
      rfl

end Transaction

namespace LineBuffer.Use

/-- Whatever the pieces in which they come, the bytes of a text with an end of
line behind it make one line, if the text is no longer than a line may be. -/
theorem lines_of_text {σ : Type} {ch : Channel σ}
    (honest : ch.Honest) (source : σ) (cs : List Call) {s : String}
    (hs : Text.OneLine s) (hne : Text.bytes s ≠ [])
    (hlen : s.utf8ByteSize ≤ maxLine 512)
      (htaken : ((start source : Use 512 σ).calls ch
        (cs ++ [.consumeLines])).taken = Text.bytes s ++ [13, 10]) :
    ((start source : Use 512 σ).calls ch (cs ++ [.consumeLines])).handed.filter
      (!·.isEmpty) = [.ofText s] := by
  have hends : ∀ b ∈ [(13 : UInt8), 10], isLineEnd b = true := by
    simp [isLineEnd]
  have hstretches : stretches (Text.bytes s ++ [13, 10]) = [Text.bytes s] := by
    rw [stretches_text (Text.unbroken_bytes hs) fun b hb =>
      hends b (List.mem_of_mem_head? hb), stretches_ends hends, if_neg hne]
    rfl
  have hterm : Terminated (Text.bytes s ++ [13, 10]) :=
    terminated_append (List.cons_ne_nil _ _) hends
  have hshort : ∀ t ∈ stretches (Text.bytes s ++ [13, 10]),
      t.length ≤ maxLine 512 := by
    intro t ht
    rw [hstretches] at ht
    rw [List.mem_singleton.1 ht, Text.length_bytes]
    exact hlen
  have htexts := texts_calls honest source cs (htaken ▸ hterm) (htaken ▸ hshort)
  rw [htaken, hstretches] at htexts
  generalize (start source : Use 512 σ).calls ch
    (cs ++ [.consumeLines]) = x at htexts
  have hmap : (x.handed.filter (!·.isEmpty)).map (·.bytes) = x.texts := by
    rw [texts, List.filter_map]
    rfl
  rw [htexts] at hmap
  obtain ⟨line, hline, hbytes⟩ := List.map_eq_singleton_iff.1 hmap
  rw [hline]
  exact congrArg (fun b => [Line.mk b]) hbytes

/-- Bytes that are there already are taken at once if there is
space for them. -/
theorem taken_ofBytes {capacity : Nat} {data : List UInt8}
    (h : data.length ≤ capacity) :
    ((start data : Use capacity _).calls Channel.ofBytes
      ([.fill] ++ [.consumeLines])).taken = data := by
  show ((start data : Use capacity _).call Channel.ofBytes .fill).taken = data
  have hroom : (empty : LineBuffer capacity).room = capacity := Nat.sub_zero _
  have hread : Channel.ofBytes.recorded.read (data, []) capacity =
      (⟨data.take capacity, min capacity data.length⟩, data.drop capacity,
        [] ++ data.take capacity) := rfl
  have hall : [] ++ data.take capacity = data := List.take_of_length_le h
  simp only [call, value_fill, start, hroom, hread, hall]
  split
  · next hzero =>
      rw [hzero] at h
      exact (List.eq_nil_of_length_eq_zero (Nat.le_zero.1 h)).symm
  · split <;> rfl

end LineBuffer.Use

namespace Transaction

/-- The bytes that were sent of a command make one line when they come back. -/
theorem handed_of_issued {σ : Type} {ch : Channel σ}
    (honest : ch.Honest) {q : Request} (hq : ∀ s ∈ q.arguments, Text.OneLine s)
    (source : σ) (cs : List LineBuffer.Call)
      (htaken : ((LineBuffer.Use.start source : LineBuffer.Use 512 σ).calls ch
        (cs ++ [.consumeLines])).taken = (issue q .unlimited).value.2) :
    ((LineBuffer.Use.start source : LineBuffer.Use 512 σ).calls ch
      (cs ++ [.consumeLines])).handed.filter (!·.isEmpty) =
        [.ofText (start q).value.command.sentPart] := by
  rw [issue_unlimited] at htaken
  have hlen : (start q).value.command.sentPart.utf8ByteSize ≤
      LineBuffer.maxLine 512 :=
    Nat.le_trans (Command.size_sentPart_le _) (by decide)
  exact LineBuffer.Use.lines_of_text honest source cs
    (Command.oneLine_sentPart (Request.oneLine_encode hq))
    (bytes_sentPart_ne_nil q) hlen htaken

/-- If what was sent of a command comes back, in pieces of any size and through
any use of a buffer, there is one line that is not empty, the transaction stays
as it was, and it knows the command just if all of it was sent. -/
theorem echo_known_iff {σ : Type} {ch : Channel σ}
    (honest : ch.Honest) (q : Request) (hq : ∀ s ∈ q.arguments, Text.OneLine s)
    (source : σ) (cs : List LineBuffer.Call) :
    let issued := (issue q .unlimited).value
    let t := issued.1
    let x : LineBuffer.Use 512 σ :=
      (LineBuffer.Use.start source).calls ch (cs ++ [.consumeLines])
    x.taken = issued.2 →
      (∃ line, x.handed.filter (!·.isEmpty) = [line] ∧
        line.bytes ++ [13, 10] = issued.2 ∧
        ((t.handle line).value.2 = .echo ↔
          t.command.text.utf8ByteSize ≤ Command.maxSent)) ∧
      t.complete = false ∧
      (t.handleAll x.handed).value = (t, x.handed.map fun l =>
        if l.isEmpty = true ∨ Command.maxSent < t.command.text.utf8ByteSize
          then .noise
        else .echo) := by
  have hlines := @handed_of_issued σ ch honest q hq source cs
  have hopen : (start q).value.complete = false := rfl
  have hhandle := handle_sentPart q
  have hall {lines : List Line} := @handleAll_sentPart q lines
  rw [issue_unlimited] at hlines ⊢
  -- What else there is to the transaction does not matter.
  generalize (start q).value = t at hlines hopen hhandle hall
  dsimp only
  intro htaken
  have hline := hlines htaken
  generalize (LineBuffer.Use.start source).calls ch
    (cs ++ [.consumeLines]) = x at hline
  refine ⟨⟨.ofText t.command.sentPart, hline, rfl, ?_⟩, hopen,
    hall fun l hl => ?_⟩
  · rw [hhandle]
    by_cases hfits : t.command.text.utf8ByteSize ≤ Command.maxSent
    · rw [if_pos hfits]
      exact ⟨fun _ => hfits, fun _ => rfl⟩
    · rw [if_neg hfits]
      exact ⟨fun h => (by cases h), fun h => absurd h hfits⟩
  · cases hempty : l.isEmpty with
    | true => exact Or.inl rfl
    | false =>
        have hmem : l ∈ x.handed.filter (!·.isEmpty) :=
          List.mem_filter.2 ⟨hl, by rw [hempty]; rfl⟩
        rw [hline] at hmem
        exact Or.inr (List.mem_singleton.1 hmem)

/-- A short command comes back three bytes at a time. -/
theorem echo_known_of_pieces :
    let issued := (issue (.dial (.ofText "123")) .unlimited).value
    let x : LineBuffer.Use 512 _ :=
      (LineBuffer.Use.start issued.2).calls (Channel.chunked (some 3) 0)
      ([.fill, .consumeLine, .fill, .consumeLines, .fill] ++ [.consumeLines])
    issued.2 = Text.bytes "ATD123;\r\n" ∧ x.taken = issued.2 ∧ ∃ line,
      x.handed.filter (!·.isEmpty) = [line] ∧
      (issued.1.handle line).value.2 = .echo := by
  intro issued x
  have htaken : x.taken = issued.2 := by decide +kernel
  obtain ⟨line, hline, _, hknown⟩ :=
    (echo_known_iff (LineBuffer.Use.honest_chunked 3) (.dial (.ofText "123"))
      (by decide +kernel) issued.2
    [.fill, .consumeLine, .fill, .consumeLines, .fill] htaken).1
  exact ⟨by decide +kernel, htaken, line, hline, hknown.2 (by decide +kernel)⟩

/-- A command of 256 bytes comes back without the two that its end of
line has cost it. -/
theorem overlong_command_not_known :
    let q : Request := .queryConfig (String.ofList (List.replicate 300 'x'))
    let issued := (issue q .unlimited).value
    let x : LineBuffer.Use 512 _ :=
      (LineBuffer.Use.start issued.2).calls Channel.ofBytes
        ([.fill] ++ [.consumeLines])
    (∀ s ∈ q.arguments, Text.OneLine s) ∧
      issued.1.command.text.utf8ByteSize = 256 ∧ x.taken = issued.2 ∧
        ∃ line, x.handed.filter (!·.isEmpty) = [line] ∧
        (issued.1.handle line).value.2 = .noise := by
  intro q
  have hq : ∀ s ∈ q.arguments, Text.OneLine s := by
    intro s hs c hc
    rw [List.mem_singleton.1 hs, String.toList_ofList] at hc
    rw [List.eq_of_mem_replicate hc]
    decide
  have hcommand (name : String) : (start (.queryConfig name)).value.command =
      (((Command.ofPieces [Command.config, "\""]).value.push name).value.push
        "\"").value := rfl
  have hfull : (start q).value.command.text.utf8ByteSize = 256 := by
    rw [hcommand]
    refine Command.size_push_of_full (Command.size_push_replicate rfl ?_)
    exact Nat.le_trans (Nat.sub_le 256 _) (by decide)
  have hbytes :
      (Text.bytes (start q).value.command.sentPart ++ [13,
        10]).length ≤ 512 := by
    have hsize := (start q).value.command.size_sentPart_le
    have hmax : Command.maxSent = 254 := Command.maxSent_eq
    rw [List.length_append, Text.length_bytes]
    exact Nat.le_trans (Nat.add_le_add_right (hmax ▸ hsize) 2) (by decide)
  have hlines := handed_of_issued LineBuffer.Use.honest_ofBytes hq
    (Text.bytes (start q).value.command.sentPart ++ [13, 10]) [.fill]
  have hhandle := handle_sentPart q
  rw [issue_unlimited] at hlines ⊢
  generalize (start q).value = t at hfull hbytes hlines hhandle
  dsimp only
  have htaken := LineBuffer.Use.taken_ofBytes hbytes
  refine ⟨hq, hfull, htaken, .ofText t.command.sentPart, hlines htaken, ?_⟩
  rw [hhandle, hfull]
  rfl

end Transaction

end CellModem
