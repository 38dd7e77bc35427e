import CellModem.Command.Rendering
import CellModem.Field
import CellModem.Proofs.Truncation

/-!
# Texts that are made to fit

A text in a fixed space can refuse what is to be appended to it, and whoever
appends has to look. There are three ways of doing so. A text is appended as a
whole, and only if that is refused one character after the other, until one of
them is refused (`fill`). A field is copied character by character from the
beginning (`Field.copied`). And a command is copied as long as the calculated
length leaves space for its end of line, so that no copy is refused, and nobody
looks whether one was (`Command.lineFor?`).

All three come to the same, which is what the library computes by `cut`: what
goes in is the longest beginning that fits, however many bytes the characters
take (`longest_beginning_goes_in`). That it is text and stays within the limit
needs no proof there, because a `BoundedText` is nothing else.
-/

namespace CellModem

namespace Text

theorem size_ofList_singleton (c : Char) :
    size (String.ofList [c]).toList = c.utf8Size := by
  rw [String.toList_ofList]
  rfl

end Text

/-! ## Appending -/

namespace BoundedText

open Text

variable {limit : Nat} {s s' : BoundedText limit} {t : String}

theorem append?_eq_some_iff :
    s.append? t = some s' ↔ s'.text = s.text ++ t := by
  unfold append?
  split
  · rw [Option.some_inj]
    exact ⟨fun h => h ▸ rfl, fun h => eq_of_text_eq h.symm⟩
  · next hlong =>
      refine ⟨fun h => absurd h (Option.some_ne_none s').symm,
        fun h => absurd ?_ hlong⟩
      rw [← h]
      exact s'.fits

/-- What goes in had space, and takes that space. -/
theorem room_of_append? (h : s.append? t = some s') :
    size t.toList ≤ s.room ∧ s'.room = s.room - size t.toList := by
  have hsize := congrArg String.utf8ByteSize (append?_eq_some_iff.1 h)
  have hfits := s'.fits
  rw [String.utf8ByteSize_append] at hsize
  rw [size_toList, room, room]
  omega

theorem append?_eq_none_iff : s.append? t = none ↔ s.room < size t.toList := by
  have hfits := s.fits
  rw [size_toList, room, append?, dite_eq_right_iff]
  simp only [reduceCtorEq, imp_false, String.utf8ByteSize_append]
  omega

theorem exists_append? (h : size t.toList ≤ s.room) :
    ∃ s', s.append? t = some s' ∧ s'.text = s.text ++ t := by
  cases happend : s.append? t with
  | none => exact absurd h (Nat.not_le.2 (append?_eq_none_iff.1 happend))
  | some s' => exact ⟨s', rfl, append?_eq_some_iff.1 happend⟩

/-- The first character that is refused is the first one that has no space. -/
theorem toList_appendEach (s : BoundedText limit) (cs : List Char) :
    (s.appendEach cs).text.toList = s.text.toList ++ cut s.room cs := by
  induction cs generalizing s with
  | nil => exact (List.append_nil _).symm
  | cons c cs ih =>
      rw [appendEach, cut]
      split
      · next s' happend =>
          obtain ⟨hle, hroom⟩ := room_of_append? happend
          rw [size_ofList_singleton] at hle hroom
          rw [if_pos hle, ih, append?_eq_some_iff.1 happend, hroom,
            String.toList_append, String.toList_ofList, List.append_assoc]
          rfl
      · next hrefused =>
          rw [append?_eq_none_iff, size_ofList_singleton] at hrefused
          rw [if_neg (Nat.not_le.2 hrefused), List.append_nil]

theorem appendEach_eq (s : BoundedText limit) (t : String) :
    s.appendEach t.toList = s.push t :=
  eq_of_text_eq
    (String.toList_inj.1 ((toList_appendEach s t.toList).trans
      (toList_push s t).symm))

/-- The library's test whether a text has space tells whether it
goes in as a whole. -/
theorem fill_eq (s : BoundedText limit) (t : String) :
    s.fill t = (s.admits t, s.push t) := by
  unfold fill
  split
  · next s' happend =>
      obtain ⟨hle, -⟩ := room_of_append? happend
      have hpush : s' = s.push t := by
        refine eq_of_text_eq ?_
        rw [append?_eq_some_iff.1 happend, text_push, cut_eq_self hle,
          String.ofList_toList]
      rw [size_toList] at hle
      rw [hpush, admits, decide_eq_true hle]
  · next hrefused =>
      rw [append?_eq_none_iff, size_toList] at hrefused
      rw [appendEach_eq, admits, decide_eq_false (Nat.not_le.2 hrefused)]

end BoundedText

/-! ## Fields -/

namespace Field

theorem copied_eq (limit index : Nat) (s : String) :
    copied limit index s = bounded limit index s := by
  unfold copied bounded
  cases at? index s with
  | some value => exact BoundedText.appendEach_eq .empty value
  | none => rfl

end Field

/-! ## Commands with their end of line -/

namespace Command

open Text

/-- No copy is refused, for the calculation leaves space for it. -/
theorem exists_copy? (done : BoundedText limit) (cs : List Char)
    (h : done.text.utf8ByteSize ≤ maxSent) : ∃ line,
      copy? done cs =
        some (line, decide (maxSent < done.text.utf8ByteSize + size cs)) ∧
        line.text.toList = done.text.toList ++
          cut (maxSent - done.text.utf8ByteSize) cs := by
  have hlimit : limit = maxSent + terminator.utf8ByteSize := rfl
  induction cs generalizing done with
  | nil =>
      refine ⟨done, ?_, (List.append_nil _).symm⟩
      rw [copy?, size, Nat.add_zero, decide_eq_false (Nat.not_lt.2 h)]
  | cons c cs ih =>
      rw [copy?, size, cut]
      split
      · next hfull =>
          refine ⟨done, ?_, ?_⟩
          · rw [decide_eq_true (by omega)]
          · rw [if_neg (by omega), List.append_nil]
      · next hspace =>
          have hroom : size (String.ofList [c]).toList ≤ done.room := by
            rw [size_ofList_singleton, BoundedText.room]
            omega
          obtain ⟨done', happend, htext⟩ := BoundedText.exists_append? hroom
          have hdone : done'.text.utf8ByteSize =
              done.text.utf8ByteSize + c.utf8Size := by
            rw [htext, String.utf8ByteSize_append, utf8ByteSize_ofList]
            rfl
          obtain ⟨line, hline, hkept⟩ := ih done' (by omega)
          refine ⟨line, ?_, ?_⟩
          · rw [happend, Option.bind_some, hline, hdone, Nat.add_assoc]
          · rw [hkept, hdone, htext, if_pos (by omega), String.toList_append,
              String.toList_ofList, Nat.sub_add_eq, List.append_assoc]
            rfl

/-- Neither a copy nor the end of line is refused, and what comes out
is what is sent. -/
theorem exists_lineFor? (c : Command) :
    ∃ line, c.lineFor? = some (line, c.isCutBySending) ∧
    line.text = c.render.value := by
  obtain ⟨line, hline, hkept⟩ :=
    exists_copy? .empty c.text.toList (Nat.zero_le _)
  have hsent : line.text = c.sentPart := by
    rw [← String.toList_inj, hkept, sentPart, String.toList_ofList]
    rfl
  have hroom : size terminator.toList ≤ line.room := by
    have hle := c.size_sentPart_le
    have hlimit : limit = maxSent + size terminator.toList := rfl
    rw [BoundedText.room, hsent]
    omega
  obtain ⟨whole, happend, htext⟩ := BoundedText.exists_append? hroom
  refine ⟨whole, ?_, ?_⟩
  · have hcut :
        decide (maxSent < (BoundedText.empty :
          BoundedText limit).text.utf8ByteSize +
        size c.text.toList) = c.isCutBySending := by
      rw [size_toList]
      exact congrArg (fun n => decide (maxSent < n)) (Nat.zero_add _)
    rw [lineFor?, hline, hcut]
    simp only [Option.bind_eq_bind, Option.bind_some, happend]
    rfl
  · rw [htext, hsent, value_render]

end Command

/-! ## The longest beginning -/

namespace BoundedText

open Text

variable {limit : Nat}

/-- Of a text that does not fit, the longest beginning goes in that does:
where a text is appended to another one, where a field is copied, and where a
command is sent, which must leave space for its end of line. Whether that is
all of the text is known in each case, and no refusal goes unnoticed, for the
three ways of writing into a fixed space that may refuse come to the same as
what is calculated. -/
theorem longest_beginning_goes_in (s : BoundedText limit)
    (t : String) (index : Nat) (c : Command) :
    (s.fill t = (s.admits t, s.push t) ∧
      ∃ r, Longest (limit - s.text.utf8ByteSize) t.toList r ∧
        (s.push t).text.toList = s.text.toList ++ r ∧
        (s.admits t = true ↔ r = t.toList)) ∧
    (Field.copied limit index t = Field.bounded limit index t ∧
      Longest limit ((Field.at? index t).elim [] String.toList)
        (Field.bounded limit index t).text.toList) ∧
    (∃ line, c.lineFor? = some (line, c.isCutBySending) ∧
      line.text = c.render.value ∧ c.render.value.utf8ByteSize ≤ 256 ∧
      (∃ r, Longest 254 c.text.toList r ∧
        c.render.value.toList = r ++ ['\r', '\n']) ∧
      (c.isCutBySending = true ↔ 254 < c.text.utf8ByteSize) ∧
      c.render.trace = if c.isCutBySending then [.commandCut] else []) := by
  refine ⟨⟨fill_eq s t, _, longest_cut s.room t.toList, toList_push s t, ?_⟩,
    ⟨Field.copied_eq limit index t, ?_⟩, ?_⟩
  · rw [cut_eq_self_iff, size_toList, admits, decide_eq_true_eq]
  · rw [Field.bounded]
    cases Field.at? index t with
    | some value => exact longest_ofString value
    | none => exact longest_cut limit []
  · obtain ⟨line, hline, htext⟩ := c.exists_lineFor?
    refine ⟨line, hline, htext, ?_,
      ⟨_, longest_cut 254 c.text.toList, ?_⟩, ?_, ?_⟩
    · rw [← htext]
      exact line.fits
    · rw [Command.value_render, Command.sentPart, String.toList_append,
        String.toList_ofList]
      rfl
    · rw [Command.isCutBySending, decide_eq_true_eq, Command.maxSent_eq]
    · rw [Command.render, Traced.trace_bind, Logged.trace_noteIf,
        Traced.trace_pure, List.append_nil]

end BoundedText

end CellModem
