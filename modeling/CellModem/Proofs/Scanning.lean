import CellModem.Proofs.Fields
import CellModem.Token.Slices
import Mathlib.Data.List.Basic

/-!
# A scan takes a text apart

Scanning loses nothing but blanks. Any text is a row of tokens as they are
written, with blanks in front of each and behind the last, and there is only one
such row, the one that a scan finds, and so does a reader that cuts the tokens
out by their byte offsets (`ofText_eq_iff`, `read?_eq`). A comma is written as
itself, a quoted text between its quotes, of which the second may be missing at
the end of all, and a number or a word as a run of plain characters.

What stands behind a token decides how far it goes, and what stands in front of
it decides nothing. So a row is taken apart from the front, and that a run does
not begin in the middle of another one is seen in the end: the token before it
would have gone on (`TakenApart.maximal`).
-/

namespace CellModem

namespace Token

/-- How a token is written, if `behind` is all that comes after it. -/
inductive Spelt (behind : List Char) : List Char → Token → Prop
  | comma : Spelt behind [','] .comma
  | quoted {content} (hcontent : '"' ∉ content) :
      Spelt behind ('"' :: (content ++ ['"'])) (.quoted (String.ofList content))
  /-- Where the text ends, a quoted text may end without its quote. -/
  | unclosed {content} (hcontent : '"' ∉ content) (hend : behind = []) :
      Spelt behind ('"' :: content) (.quoted (String.ofList content))
  | number {run} (hrun : Field.Decimal run)
      (hstop : ∀ c ∈ behind.head?, isPlain c = false) :
      Spelt behind run (.number (String.ofList run))
  | word {run} (hne : run ≠ []) (hplain : ∀ c ∈ run, isPlain c = true)
      (hrun : ¬ Field.Decimal run)
      (hstop : ∀ c ∈ behind.head?, isPlain c = false) :
      Spelt behind run (.word (String.ofList run))

/-- A token, what it was written like, and the blanks in front of it. -/
structure Part where
  gap : List Char
  source : List Char
  token : Token

def Part.written (p : Part) : List Char := p.gap ++ p.source

/-- A text taken apart into tokens, with blanks in front of each and
behind the last. -/
structure TakenApart (cs : List Char) (parts : List Part) (gap : List Char) :
    Prop where
  whole : cs = parts.flatMap Part.written ++ gap
  blank : ∀ p ∈ parts, ∀ c ∈ p.gap, Text.isBlank c = true
  blank_end : ∀ c ∈ gap, Text.isBlank c = true
  spelt : ∀ before p after, parts = before ++ p :: after →
    Spelt (after.flatMap Part.written ++ gap) p.source p.token

/-- A run of plain characters between two texts that do not continue it. -/
structure MaximalRun (before run behind : List Char) : Prop where
  ne_nil : run ≠ []
  plain : ∀ c ∈ run, isPlain c = true
  begins : ∀ c ∈ before.getLast?, isPlain c = false
  stops : ∀ c ∈ behind.head?, isPlain c = false

namespace Spelt

variable {behind source : List Char} {token : Token}

theorem source_ne_nil (h : Spelt behind source token) : source ≠ [] := by
  cases h with
  | comma => exact List.cons_ne_nil _ _
  | quoted _ => exact List.cons_ne_nil _ _
  | unclosed _ _ => exact List.cons_ne_nil _ _
  | number hrun _ => exact ne_nil_of_decimal hrun
  | word hne _ _ _ => exact hne

/-- Whatever begins with a plain character does not come right behind a token
that ends with one. -/
theorem not_plain_getLast? (h : Spelt behind source token) {c : Char}
    (hc : c ∈ behind.head?) (hplain : isPlain c = true) :
    ∀ d ∈ source.getLast?, isPlain d = false := by
  have hno (hstop : ∀ c ∈ behind.head?, isPlain c = false) : False := by
    rw [hstop c hc] at hplain
    cases hplain
  cases h with
  | comma =>
      rintro d ⟨⟩
      decide
  | @quoted content _ =>
      intro d hd
      rw [← List.cons_append,
        List.getLast?_append_of_ne_nil _ (List.cons_ne_nil _ _)] at hd
      cases hd
      decide
  | unclosed _ hend =>
      rw [hend] at hc
      cases hc
  | number _ hstop => exact (hno hstop).elim
  | word _ _ _ hstop => exact (hno hstop).elim

/-- The token of a run tells whether it is written like a number. -/
theorem of_run {run : List Char} (hne : run ≠ [])
    (hplain : ∀ c ∈ run, isPlain c = true)
    (hstop : ∀ c ∈ behind.head?, isPlain c = false) :
    Spelt behind run (ofRun run) := by
  by_cases hrun : Field.Decimal run
  · rw [ofRun_of_decimal hrun]
    exact .number hrun hstop
  · rw [ofRun_of_not_decimal hrun]
    exact .word hne hplain hrun hstop

end Spelt

/-- A quoted text that is not closed is all there is. -/
theorem scan_unclosed {content : List Char} (h : '"' ∉ content) :
    scan ('"' :: content) = [.quoted (String.ofList content)] := by
  have hcontent : ∀ c ∈ content, (c != '"') = true := fun c hc =>
    bne_iff_ne.2 (ne_of_mem_of_not_mem hc h)
  have hstop : ∀ c ∈ ([] : List Char).head?, (c != '"') = false := nofun
  have htake := takeWhile_append_of_stop hcontent hstop
  have hdrop := dropWhile_append_of_stop hcontent hstop
  rw [List.append_nil] at htake hdrop
  have hhead : headToken '"' content =
      (.quoted (String.ofList content), []) := by
    rw [headToken, if_neg (by decide), if_pos rfl, htake, hdrop, List.tail_nil]
  rw [scan_eq_cons (List.dropWhile_cons_of_neg (by decide)), hhead,
    scan_eq_nil rfl]

/-- A token that is spelt in front of a text is the first one of a scan. -/
theorem scan_of_spelt {behind source : List Char} {token : Token}
    (h : Spelt behind source token) :
    scan (source ++ behind) = token :: scan behind := by
  cases h with
  | comma => exact scan_comma behind
  | quoted hcontent =>
      rw [List.cons_append, List.append_assoc]
      exact scan_quoted hcontent behind
  | unclosed hcontent hend =>
      rw [hend, List.append_nil, scan_unclosed hcontent, scan_eq_nil rfl]
  | number hrun hstop =>
      rw [scan_run (ne_nil_of_decimal hrun) (isPlain_of_decimal hrun) hstop,
        ofRun_of_decimal hrun]
  | word hne hplain hrun hstop => rw [scan_run hne hplain hstop,
      ofRun_of_not_decimal hrun]

namespace TakenApart

variable {cs gap : List Char} {p : Part} {parts : List Part}

theorem nil (h : ∀ c ∈ gap, Text.isBlank c = true) : TakenApart gap [] gap where
  whole := rfl
  blank _ hp := absurd hp List.not_mem_nil
  blank_end := h
  spelt before p after hparts := by cases before <;> cases hparts

theorem cons (hgap : ∀ c ∈ p.gap, Text.isBlank c = true)
    (hp : Spelt cs p.source p.token) (h : TakenApart cs parts gap) :
    TakenApart (p.written ++ cs) (p :: parts) gap where
  whole := by rw [List.flatMap_cons, List.append_assoc, ← h.whole]
  blank := List.forall_mem_cons.2 ⟨hgap, h.blank⟩
  blank_end := h.blank_end
  spelt before q after hparts := by
    cases before with
    | nil =>
        cases hparts
        rw [← h.whole]
        exact hp
    | cons r before =>
        obtain ⟨_, htail⟩ := List.cons.inj hparts
        exact h.spelt before q after htail

theorem tail (h : TakenApart cs (p :: parts) gap) :
    TakenApart (parts.flatMap Part.written ++ gap) parts gap where
  whole := rfl
  blank q hq := h.blank q (List.mem_cons_of_mem p hq)
  blank_end := h.blank_end
  spelt before q after hparts :=
    h.spelt (p :: before) q after (congrArg (p :: ·) hparts)

/-- In front of a run there is nothing, or a blank, or the end of a token that a
plain character does not continue. -/
theorem maximal {before after : List Part}
    (h : TakenApart cs (before ++ p :: after) gap)
    (htoken : p.token ≠ .comma ∧ ∀ content, p.token ≠ .quoted content) :
    MaximalRun (before.flatMap Part.written ++ p.gap) p.source
      (after.flatMap Part.written ++ gap) := by
  have hsource : p.source ≠ [] ∧ (∀ c ∈ p.source, isPlain c = true) ∧
      ∀ c ∈ (after.flatMap Part.written ++ gap).head?, isPlain c = false := by
    have hspelt := h.spelt before p after rfl
    revert htoken hspelt
    generalize p.source = source, p.token = token
    intro htoken hspelt
    cases hspelt with
    | comma => exact absurd rfl htoken.1
    | quoted _ => exact absurd rfl (htoken.2 _)
    | unclosed _ _ => exact absurd rfl (htoken.2 _)
    | number hrun hstop => exact ⟨ne_nil_of_decimal hrun,
        isPlain_of_decimal hrun, hstop⟩
    | word hne hplain _ hstop => exact ⟨hne, hplain, hstop⟩
  obtain ⟨hne, hplain, hstop⟩ := hsource
  refine ⟨hne, hplain, ?_, hstop⟩
  intro c hc
  rcases List.eq_nil_or_concat p.gap with hgap | ⟨blanks, b, hgap⟩
  · rcases List.eq_nil_or_concat before with rfl | ⟨earlier, q, rfl⟩
    · rw [hgap] at hc
      cases hc
    · -- The last character belongs to the token before, which the run would
      -- have continued.
      have hq := h.spelt earlier q (p :: after) (by simp)
      have hlast : c ∈ q.source.getLast? := by
        rw [hgap, List.append_nil, List.concat_eq_append, List.flatMap_append,
          List.flatMap_cons,
          List.flatMap_nil, List.append_nil, Part.written, ← List.append_assoc,
          List.getLast?_append_of_ne_nil _ hq.source_ne_nil] at hc
        exact hc
      obtain ⟨d, run, hrun⟩ := List.exists_cons_of_ne_nil hne
      refine hq.not_plain_getLast? (c := d) ?_
        (hplain d (hrun ▸ List.mem_cons_self)) c hlast
      rw [List.flatMap_cons, Part.written, hgap, hrun]
      rfl
  · have hblank : Text.isBlank b = true :=
      h.blank p (by simp) b (by simp [hgap])
    rw [hgap, List.concat_eq_append, ← List.append_assoc,
      List.getLast?_append_of_ne_nil _
      (List.cons_ne_nil _ _)] at hc
    cases hc
    simp [isPlain, hblank]

/-- The place behind any characters of a token is one between two
characters of the text. -/
theorem isValid {s : String} {before after : List Part}
    (h : TakenApart s.toList (before ++ p :: after) gap) {head rest : List Char}
    (hsource : p.source = head ++ rest) :
    (String.ofList (before.flatMap Part.written ++ p.gap ++
      head)).rawEndPos.IsValid s := by
  refine String.Pos.Raw.isValid_iff_exists_append.2
    ⟨_, String.ofList (rest ++ (after.flatMap Part.written ++ gap)), ?_, rfl⟩
  rw [← String.ofList_append, ← String.toList_inj,
    String.toList_ofList, h.whole, List.flatMap_append, List.flatMap_cons,
    Part.written, hsource]
  simp only [List.append_assoc]

end TakenApart

/-- Characters that are not blank begin with a token. -/
theorem exists_spelt (c : Char) (rest : List Char)
    (hblank : Text.isBlank c = false) :
    ∃ source behind token, c :: rest = source ++ behind ∧
    Spelt behind source token := by
  by_cases hcomma : c = ','
  · exact ⟨[','], rest, .comma, by rw [hcomma]; rfl, .comma⟩
  · by_cases hquote : c = '"'
    · subst hquote
      by_cases hclosed : '"' ∈ rest
      · obtain ⟨content, behind, rfl, hcontent⟩ :=
          List.eq_append_cons_of_mem hclosed
        exact ⟨'"' :: (content ++ ['"']), behind, _, by simp, .quoted hcontent⟩
      · exact ⟨'"' :: rest, [], _, (List.append_nil _).symm,
          .unclosed hclosed rfl⟩
    · have hplain : isPlain c = true := isPlain_iff.2 ⟨hcomma, hquote, hblank⟩
      have hrun : ∀ d ∈ c :: rest.takeWhile isPlain, isPlain d = true :=
        List.forall_mem_cons.2 ⟨hplain, List.all_eq_true.1 List.all_takeWhile⟩
      have hstop : ∀ d ∈ (rest.dropWhile isPlain).head?, isPlain d = false := by
        intro d hd
        have hnot := List.head?_dropWhile_not isPlain rest
        rw [Option.mem_def.1 hd] at hnot
        simpa using hnot
      refine ⟨c :: rest.takeWhile isPlain, rest.dropWhile isPlain, _, ?_,
        .of_run (List.cons_ne_nil _ _) hrun hstop⟩
      rw [List.cons_append, List.takeWhile_append_dropWhile]

theorem exists_takenApart (cs : List Char) :
    ∃ parts gap, TakenApart cs parts gap := by
  induction hn : cs.length using Nat.strongRecOn generalizing cs with
  | ind n ih =>
      have hgap : ∀ d ∈ cs.takeWhile Text.isBlank, Text.isBlank d = true :=
        List.all_eq_true.1 List.all_takeWhile
      have hsplit : cs.takeWhile Text.isBlank ++
          cs.dropWhile Text.isBlank = cs :=
        List.takeWhile_append_dropWhile
      have hfirst := List.head?_dropWhile_not Text.isBlank cs
      cases hcs : cs.dropWhile Text.isBlank with
      | nil =>
          rw [hcs, List.append_nil] at hsplit
          exact ⟨[], cs, .nil (hsplit ▸ hgap)⟩
      | cons c rest =>
          rw [hcs] at hfirst hsplit
          obtain ⟨source, behind, token, hrest, hspelt⟩ :=
            exists_spelt c rest (by simpa using hfirst)
          rw [hrest, ← List.append_assoc] at hsplit
          have hlt : behind.length < n := by
            have hpos := List.length_pos_iff.2 hspelt.source_ne_nil
            rw [← hn, ← hsplit, List.length_append, List.length_append]
            omega
          obtain ⟨parts, gap, h⟩ := ih _ hlt behind rfl
          have hcons := TakenApart.cons (p := ⟨_, source, token⟩) hgap hspelt h
          rw [Part.written, hsplit] at hcons
          exact ⟨_, gap, hcons⟩

/-- However a text is taken apart, a scan finds the tokens of the parts. -/
theorem TakenApart.scan_eq {cs gap : List Char} {parts : List Part}
    (h : TakenApart cs parts gap) : scan cs = parts.map Part.token := by
  induction parts generalizing cs with
  | nil =>
      rw [h.whole, List.flatMap_nil, List.nil_append, ← List.append_nil gap,
        scan_blanks h.blank_end, scan_eq_nil rfl]
      rfl
  | cons p parts ih =>
      rw [h.whole, List.flatMap_cons, Part.written, List.append_assoc,
        List.append_assoc, scan_blanks (h.blank p List.mem_cons_self),
        scan_of_spelt (h.spelt [] p parts rfl), ih h.tail]
      rfl

/-- A text is read to its end by cutting it at byte offsets, of which none is
refused. The tokens are those of a row of parts that the text is made of, with
blanks around them, and of no other row. What is taken for a number or a word
is a whole run of plain characters, and the text is cut between two characters
only. -/
theorem ofText_eq_iff (s : String) (tokens : List Token) :
    read? s = some (ofText s) ∧
    (ofText s = tokens ↔ ∃ parts gap, TakenApart s.toList parts gap ∧
      tokens = parts.map Part.token ∧
      ∀ before p after, parts = before ++ p :: after →
        (p.token ≠ .comma ∧ (∀ content, p.token ≠ .quoted content) →
          MaximalRun (before.flatMap Part.written ++ p.gap) p.source
            (after.flatMap Part.written ++ gap)) ∧
        ∀ head rest, p.source = head ++ rest →
          (String.ofList
            (before.flatMap Part.written ++ p.gap ++ head)).rawEndPos.IsValid
              s) := by
  refine ⟨read?_eq s, ?_, ?_⟩
  · rintro rfl
    obtain ⟨parts, gap, h⟩ := exists_takenApart s.toList
    refine ⟨parts, gap, h, h.scan_eq, ?_⟩
    rintro before p after rfl
    exact ⟨h.maximal, fun head rest => h.isValid⟩
  · rintro ⟨parts, gap, h, rfl, _⟩
    exact h.scan_eq

example : read? " +QCFG:\"a,b\" -1.5, é\"x " = some
    [.word "+QCFG:", .quoted "a,b", .number "-1.5", .comma, .word "é",
      .quoted "x "] := by
  decide +kernel

end Token

end CellModem
