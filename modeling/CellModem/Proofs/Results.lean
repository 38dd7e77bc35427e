import CellModem.Proofs.Numerals
import CellModem.Proofs.Recognition

/-!
# Final results are read as they are written

A line that is wrongly taken for a final result ends a reply too early, and one
that is missed lets a command wait for nothing. So it matters which lines are
final results, all of them and no others: six texts, and every line that begins
like an error with a number (`read_eq_some_iff`).

What follows such a beginning need not be a number. If there are blanks
around a numeral below `2 ^ 32` and nothing else, then that is the error's
number, with or without a plus sign and however many zeros are in front of
it. Anything else is an error without further meaning, and a numeral that is
too large belongs there: it is never taken for the number that its lower
digits or bits would make.
-/

namespace CellModem

/-! ## Errors with a number -/

namespace ModemError

open Text

/-- Blanks, a plus sign or none, the digits of a number, and blanks. -/
def Reports (s : String) (n : Nat) : Prop :=
  ∃ before sign digits after, s.toList = before ++ (sign ++ digits ++ after) ∧
    (∀ c ∈ before, isBlank c = true) ∧ sign ∈ [[], ['+']] ∧ Writes 10 digits n ∧
    ∀ c ∈ after, isBlank c = true

/-- The errors that are reported with a number, by what leads the number. -/
def leads : List (String × (UInt32 → ModemError)) :=
  [("+CME ERROR: ", equipment), ("+CMS ERROR: ", messageService)]

/-- Neither a sign nor a digit is a blank. -/
theorem trimmed_numeral {sign digits : List Char} {n : Nat}
    (hsign : sign ∈ [[], ['+']]) (h : Writes 10 digits n) :
    trimmed (sign ++ digits) = sign ++ digits := by
  refine trimmed_eq_self fun c hc => ?_
  rcases List.mem_append.1 hc with hc | hc
  · simp only [List.mem_cons, List.not_mem_nil, or_false] at hsign
    rcases hsign with rfl | rfl
    · cases hc
    · rw [List.mem_singleton.1 hc]
      decide
  · exact isBlank_eq_false_of_isAlphanum (h.isAlphanum (by decide) c hc)

theorem unsigned?_trim_eq_some_iff {bits n : Nat} {s : String} :
    unsigned? 10 bits (trim s) = some n ↔ Reports s n ∧ n < 1 <<< bits := by
  rw [unsigned?_eq_some_iff (by decide), trim, String.toList_ofList]
  constructor
  · rintro ⟨sign, hsign, digits, htrimmed, hwrites, hrange⟩
    obtain ⟨before, after, hs, hbefore, hafter⟩ := exists_blanks s.toList
    rw [htrimmed] at hs
    exact ⟨⟨before, sign, digits, after, hs, hbefore, hsign, hwrites,
      hafter⟩, hrange⟩
  · rintro ⟨⟨before, sign, digits, after, hs, hbefore, hsign, hwrites,
      hafter⟩, hrange⟩
    refine ⟨sign, hsign, digits, ?_, hwrites, hrange⟩
    rw [hs, trimmed_blanks hbefore hafter, trimmed_numeral hsign hwrites]

/-- No text reports two numbers, as it is read as each of them where there is
space for both. -/
theorem Reports.unique {s : String} {m n : Nat} (hm : Reports s m)
    (hn : Reports s n) : m = n := by
  have hread {k : Nat} (h : Reports s k) (hle : k ≤ m + n) :
      unsigned? 10 (m + n) (trim s) = some k := by
    refine unsigned?_trim_eq_some_iff.2 ⟨h, ?_⟩
    rw [Nat.one_shiftLeft]
    exact Nat.lt_of_le_of_lt hle Nat.lt_two_pow_self
  exact Option.some.inj ((hread hm (Nat.le_add_right m n)).symm.trans
    (hread hn (Nat.le_add_left n m)))

theorem reports_toString (n : Nat) : Reports (toString n) n := by
  refine ⟨[], [], (toString n).toList, [], by simp, nofun, by simp, ?_, nofun⟩
  rw [Nat.toString_eq_repr, Nat.toList_repr]
  exact writes_toDigits (by decide) n

theorem code?_eq_some_iff {s : String} {code : UInt32} :
    code? s = some code ↔ ∃ n, Reports s n ∧ n < UInt32.size ∧
    UInt32.ofNat n = code := by
  simp only [code?, Option.map_eq_some_iff, unsigned?_trim_eq_some_iff,
    Nat.one_shiftLeft, and_assoc]

theorem code?_eq_none_iff {s : String} :
    code? s = none ↔ ∀ n, Reports s n → UInt32.size ≤ n := by
  rw [Option.eq_none_iff_forall_ne_some]
  constructor
  · intro h n hn
    exact Nat.le_of_not_lt fun hlt =>
      h _ (code?_eq_some_iff.2 ⟨n, hn, hlt, rfl⟩)
  · intro h code hcode
    obtain ⟨n, hn, hlt, -⟩ := code?_eq_some_iff.1 hcode
    exact absurd hlt (Nat.not_lt.2 (h n hn))

/-- What follows the lead decides between a number and mere words. -/
theorem ofText?_lead {x : String × (UInt32 → ModemError)} (hx : x ∈ leads)
    (rest : String) :
    ofText? (x.1 ++ rest) = some ((code? rest).elim .generic x.2) := by
  have hrest : Text.afterText? x.1 (x.1 ++ rest) = some rest :=
    afterText?_eq_some_iff.2 rfl
  simp only [leads, List.mem_cons, List.not_mem_nil, or_false] at hx
  rcases hx with rfl | rfl
  · rw [ofText?, equipmentLead, hrest]
  · have hother :
        Text.afterText? "+CME ERROR: " ("+CMS ERROR: " ++ rest) = none := by
      have hapart :
          (Spelling.lead "+CMS ERROR: ").apart
          (.lead "+CME ERROR: ") = true := by
        decide
      have hfits :
          (Spelling.lead "+CMS ERROR: ").Fits ("+CMS ERROR: " ++ rest) :=
        Spelling.fits_of_afterText? (by rw [hrest]; rfl)
      rw [← Option.not_isSome_iff_eq_none]
      exact mt Spelling.fits_of_afterText?
        (Spelling.not_fits_of_apart hapart hfits)
    rw [ofText?, equipmentLead, hother, messageServiceLead, hrest]

end ModemError

/-! ## Lines -/

namespace FinalResult

/-- The final results that have a text of their own. -/
def texts : List (String × FinalResult) :=
  [("OK", .ok), ("ERROR", .error .generic), ("NO CARRIER", .error .noCarrier),
    ("BUSY", .error .busy), ("NO ANSWER", .error .noAnswer),
    ("NO DIALTONE", .error .noDialtone)]

/-- How a final result is written. -/
inductive Written : String → FinalResult → Prop
  | text {s : String} {r : FinalResult} (h : (s, r) ∈ texts) : Written s r
  | number {lead : String} {error : UInt32 → ModemError}
      (hlead : (lead, error) ∈ ModemError.leads) {rest : String} {n : Nat}
      (h : ModemError.Reports rest n) (hrange : n < UInt32.size) :
      Written (lead ++ rest) (.error (error (.ofNat n)))
  /-- Whatever else follows, a numeral that is too large as well as
  words or nothing. -/
  | words {lead : String} {error : UInt32 → ModemError}
      (hlead : (lead, error) ∈ ModemError.leads) {rest : String}
      (h : ∀ n, ModemError.Reports rest n → UInt32.size ≤ n) :
      Written (lead ++ rest) (.error .generic)

theorem ofText?_lead {x : String × (UInt32 → ModemError)}
    (hx : x ∈ ModemError.leads) (rest : String) :
    ofText? (x.1 ++ rest) =
      some (.error ((ModemError.code? rest).elim .generic x.2)) := by
  have hne : x.1 ++ rest ≠ "OK" := by
    have hapart : (Spelling.lead x.1).apart (.whole "OK") = true := by
      simp only [ModemError.leads, List.mem_cons, List.not_mem_nil,
        or_false] at hx
      rcases hx with rfl | rfl <;> decide
    refine Spelling.not_fits_of_apart hapart (Spelling.fits_of_afterText? ?_)
    rw [Text.afterText?_eq_some_iff.2 rfl]
    rfl
  rw [ofText?, if_neg hne, ModemError.ofText?_lead hx]
  rfl

theorem ofText?_of_mem_texts {s : String} {r : FinalResult}
    (h : (s, r) ∈ texts) :
    ofText? s = some r := by
  simp only [texts, List.mem_cons, List.not_mem_nil, or_false,
    Prod.mk.injEq] at h
  rcases h with ⟨rfl, rfl⟩ | ⟨rfl, rfl⟩ | ⟨rfl, rfl⟩ | ⟨rfl, rfl⟩ | ⟨rfl, rfl⟩ |
      ⟨rfl, rfl⟩ <;>
    decide +kernel

/-- A final result has a text of its own, or it begins like an
error with a number. -/
theorem text_or_lead_of_ofText? {s : String} {r : FinalResult}
    (h : ofText? s = some r) :
    (s, r) ∈ texts ∨ ∃ x ∈ ModemError.leads, ∃ rest, s = x.1 ++ rest := by
  unfold ofText? at h
  split at h
  · next hok =>
      cases h
      exact Or.inl (hok ▸ by decide)
  · obtain ⟨e, he, rfl⟩ := Option.map_eq_some_iff.1 h
    unfold ModemError.ofText? at he
    split at he
    · next rest hlead =>
        exact Or.inr ⟨("+CME ERROR: ",
          .equipment), by simp [ModemError.leads], rest,
            Text.afterText?_eq_some_iff.1 hlead⟩
    · next rest _ hlead =>
        exact Or.inr ⟨("+CMS ERROR: ",
          .messageService), by simp [ModemError.leads], rest,
            Text.afterText?_eq_some_iff.1 hlead⟩
    · left
      unfold ModemError.ofFixed? at he
      split at he <;> cases he <;> decide

theorem written_lead {x : String × (UInt32 → ModemError)}
    (hx : x ∈ ModemError.leads) (rest : String) :
    Written (x.1 ++ rest)
      (.error ((ModemError.code? rest).elim .generic x.2)) := by
  cases hcode : ModemError.code? rest with
  | none => exact .words hx (ModemError.code?_eq_none_iff.1 hcode)
  | some code =>
      obtain ⟨n, hn, hrange, rfl⟩ := ModemError.code?_eq_some_iff.1 hcode
      exact .number hx hn hrange

theorem ofText?_of_written {s : String} {r : FinalResult} (h : Written s r) :
    ofText? s = some r := by
  cases h with
  | text h => exact ofText?_of_mem_texts h
  | number hlead h hrange =>
      rw [ofText?_lead hlead,
        ModemError.code?_eq_some_iff.2 ⟨_, h, hrange, rfl⟩]
      rfl
  | words hlead h =>
      rw [ofText?_lead hlead, ModemError.code?_eq_none_iff.2 h]
      rfl

theorem written_of_ofText? {s : String} {r : FinalResult}
    (h : ofText? s = some r) :
    Written s r := by
  rcases text_or_lead_of_ofText? h with htext | ⟨x, hx, rest, rfl⟩
  · exact .text htext
  · rw [ofText?_lead hx] at h
    cases h
    exact written_lead hx rest

theorem isSome_ofText?_iff {s : String} :
    (ofText? s).isSome = true ↔
      s ∈ texts.map Prod.fst ∨ ∃ x ∈ ModemError.leads, ∃ rest, s =
        x.1 ++ rest := by
  rw [Option.isSome_iff_exists, List.mem_map]
  constructor
  · rintro ⟨r, h⟩
    exact (text_or_lead_of_ofText? h).imp_left fun htext => ⟨(s, r), htext, rfl⟩
  · rintro (⟨⟨s, r⟩, h, rfl⟩ | ⟨x, hx, rest, rfl⟩)
    · exact ⟨r, ofText?_of_mem_texts h⟩
    · exact ⟨_, ofText?_lead hx rest⟩

theorem ofText?_lead_toString {x : String × (UInt32 → ModemError)}
    (hx : x ∈ ModemError.leads) (n : Nat) : ofText? (x.1 ++ toString n) =
      some (.error (if n < UInt32.size then x.2 (.ofNat n) else .generic)) := by
  have hreports := ModemError.reports_toString n
  split
  · next hrange => exact ofText?_of_written (.number hx hreports hrange)
  · next hrange =>
      refine ofText?_of_written (.words hx fun m hm => ?_)
      rw [hm.unique hreports]
      exact Nat.le_of_not_lt hrange

/-- A line is read as a final result if and only if it is written like one, and
it is one if and only if it is one of six texts or begins in one of two ways.
Every number of 32 bits is read back, and a larger one is not taken for any. -/
theorem read_eq_some_iff (s : String) (r : FinalResult) (n : Nat) :
    ((read s).value = some r ↔ Written s r) ∧
      ((read s).value.isSome = true ↔
        s ∈ ["OK", "ERROR", "NO CARRIER", "BUSY", "NO ANSWER", "NO DIALTONE"] ∨
          ∃ lead ∈ ["+CME ERROR: ", "+CMS ERROR: "], ∃ rest, s = lead ++ rest) ∧
      ∀ x ∈ ModemError.leads,
        (read (x.1 ++ toString n)).value =
          some (.error (if n < UInt32.size then x.2 (.ofNat n)
            else .generic)) := by
  simp only [value_read]
  refine ⟨⟨written_of_ofText?, ofText?_of_written⟩, ?_,
    fun x hx => ofText?_lead_toString hx n⟩
  rw [isSome_ofText?_iff]
  simp [texts, ModemError.leads]

example : (read "+CMS ERROR: \u00a0+00500\t").value =
    some (.error (.messageService 500)) ∧
    (read "+CMS ERROR: 4294967796").value = some (.error .generic) := by
  decide +kernel

end FinalResult

end CellModem
