import CellModem.Text.Numeral

/-!
# Numerals are read as they are written

A number may be written with letters of either case among its digits, and with
zeros in front. The relation `Writes` admits all of that, and says nothing of
how a numeral is read. Digit by digit it adds to a number what reading one digit
more does, so a numeral that is in range is read as the number that it writes,
and nothing else is read as a number (`unsigned?_eq_some_iff`).
-/

namespace CellModem.Text

/-- A digit, in either case if it is a letter. -/
def IsDigit (radix : Nat) (c : Char) (d : Nat) : Prop :=
  d < radix ∧ (c = d.digitChar ∨ c = d.digitChar.toUpper)

instance (radix : Nat) (c : Char) (d : Nat) : Decidable (IsDigit radix c d) :=
  inferInstanceAs (Decidable (_ ∧ _))

/-- The characters write a number, the most significant digit first. -/
inductive Writes (radix : Nat) : List Char → Nat → Prop where
  | digit {c : Char} {d : Nat} (h : IsDigit radix c d) : Writes radix [c] d
  | snoc {cs : List Char} {n : Nat} {c : Char} {d : Nat}
      (hcs : Writes radix cs n) (h : IsDigit radix c d) :
      Writes radix (cs ++ [c]) (n * radix + d)

variable {radix bits n d : Nat} {c : Char} {cs : List Char}

theorem IsDigit.lt_sixteen (hradix : radix ≤ 16) (h : IsDigit radix c d) :
    d < 16 :=
  Nat.lt_of_lt_of_le h.1 hradix

/-- Up to sixteen, a digit has its value in every radix that is larger. -/
theorem digit?_of_isDigit (hradix : radix ≤ 16) (h : IsDigit radix c d) :
    digit? radix c = some d := by
  have hall : ∀ d < 16, digit? 16 d.digitChar = some d ∧
      digit? 16 d.digitChar.toUpper = some d :=
    by decide
  have hsixteen : digit? 16 c = some d := by
    rcases h.2 with rfl | rfl
    · exact (hall d (h.lt_sixteen hradix)).1
    · exact (hall d (h.lt_sixteen hradix)).2
  unfold digit? at hsixteen ⊢
  rw [Option.filter_eq_some_iff] at hsixteen ⊢
  exact ⟨hsixteen.1, decide_eq_true h.1⟩

theorem isAlphanum_of_isDigit (hradix : radix ≤ 16) (h : IsDigit radix c d) :
    c.isAlphanum = true := by
  have hall : ∀ d < 16, d.digitChar.isAlphanum = true ∧
      d.digitChar.toUpper.isAlphanum = true := by
    decide
  rcases h.2 with rfl | rfl
  · exact (hall d (h.lt_sixteen hradix)).1
  · exact (hall d (h.lt_sixteen hradix)).2

theorem Writes.ne_nil (h : Writes radix cs n) : cs ≠ [] := by
  cases h with
  | digit => exact List.cons_ne_nil _ _
  | snoc => exact List.append_ne_nil_of_right_ne_nil _ (List.cons_ne_nil _ _)

theorem Writes.isAlphanum (hradix : radix ≤ 16) (h : Writes radix cs n) :
    ∀ c ∈ cs, c.isAlphanum = true := by
  induction h with
  | digit hd =>
      intro c hc
      rw [List.mem_singleton.1 hc]
      exact isAlphanum_of_isDigit hradix hd
  | snoc _ hd ih =>
      intro c hc
      rcases List.mem_append.1 hc with hc | hc
      · exact ih c hc
      · rw [List.mem_singleton.1 hc]
        exact isAlphanum_of_isDigit hradix hd

/-- No punctuation stands in a numeral. -/
theorem Writes.not_mem (hradix : radix ≤ 16) (h : Writes radix cs n) {c : Char}
    (hc : c.isAlphanum = false) : c ∉ cs := by
  intro hmem
  rw [h.isAlphanum hradix c hmem] at hc
  cases hc

theorem exists_digits_of_writes (hradix : radix ≤ 16) (h : Writes radix cs n) :
    ∃ ds, cs.mapM (digit? radix) = some ds ∧ ofDigits radix ds = n := by
  induction h with
  | @digit c d hd =>
      refine ⟨[d], ?_, ?_⟩
      · rw [List.mapM_cons, digit?_of_isDigit hradix hd]
        rfl
      · simp [ofDigits]
  | @snoc cs n c d _ hd ih =>
      obtain ⟨ds, hds, hvalue⟩ := ih
      refine ⟨ds ++ [d], ?_, ?_⟩
      · rw [List.mapM_append, hds, List.mapM_cons, digit?_of_isDigit hradix hd]
        rfl
      · rw [ofDigits] at hvalue ⊢
        rw [List.foldl_append, hvalue]
        rfl

theorem natural?_of_writes (hradix : radix ≤ 16) (h : Writes radix cs n) :
    natural? radix cs = some n := by
  obtain ⟨ds, hds, hvalue⟩ := exists_digits_of_writes hradix h
  rw [natural?, if_neg (by simp [h.ne_nil]), hds, Option.map_some, hvalue]

theorem unsigned?_of_writes {s : String} (hradix : radix ≤ 16)
    (h : Writes radix s.toList n) (hn : n < 1 <<< bits) :
    unsigned? radix bits s = some n := by
  have hplus : '+' ∉ s.toList := h.not_mem hradix rfl
  unfold unsigned?
  split
  · next hs => exact absurd (hs ▸ List.mem_cons_self) hplus
  · dsimp only
    rw [natural?_of_writes hradix h, Option.filter_some,
      if_pos (decide_eq_true hn)]

/-! ## What is read was written -/

/-- A character with the value of a digit is that digit. -/
theorem isDigit_of_digit? (hradix : radix ≤ 16) (h : digit? radix c = some d) :
    IsDigit radix c d := by
  have hdecimal : ∀ d < 10, d.digitChar.toNat = d + 48 := by decide
  have hletter : ∀ d < 16, 10 ≤ d →
      d.digitChar.toNat = d + 87 ∧ d.digitChar.toUpper.toNat = d + 55 := by
        decide
  unfold digit? at h
  rw [Option.filter_eq_some_iff, decide_eq_true_eq] at h
  obtain ⟨hvalue, hd⟩ := h
  have hlt : d < 16 := Nat.lt_of_lt_of_le hd hradix
  refine ⟨hd, ?_⟩
  split at hvalue
  · next hc =>
      have hlower : 48 ≤ c.toNat := hc.1
      have hupper : c.toNat ≤ 57 := hc.2
      obtain rfl : c.toNat - 48 = d := Option.some.inj hvalue
      refine Or.inl (Char.toNat_inj.1 ?_)
      rw [hdecimal _ (by omega)]
      omega
  · split at hvalue
    · next hc =>
        have hlower : 97 ≤ c.toNat := hc.1
        obtain rfl : c.toNat - 97 + 10 = d := Option.some.inj hvalue
        refine Or.inl (Char.toNat_inj.1 ?_)
        rw [(hletter _ hlt (by omega)).1]
        omega
    · split at hvalue
      · next hc =>
          have hlower : 65 ≤ c.toNat := hc.1
          obtain rfl : c.toNat - 65 + 10 = d := Option.some.inj hvalue
          refine Or.inr (Char.toNat_inj.1 ?_)
          rw [(hletter _ hlt (by omega)).2]
          omega
      · cases hvalue

/-- Digits behind a numeral go on writing its number. -/
theorem Writes.append {more : List Char} {ds : List Nat} (hradix : radix ≤ 16)
    (h : Writes radix cs n) (hmore : more.mapM (digit? radix) = some ds) :
    Writes radix (cs ++ more) (ds.foldl (fun n d => n * radix + d) n) := by
  induction more generalizing cs n ds with
  | nil =>
      obtain rfl : [] = ds := Option.some.inj hmore
      rw [List.append_nil]
      exact h
  | cons c more ih =>
      rw [List.mapM_cons] at hmore
      obtain ⟨d, hd, hrest⟩ := Option.bind_eq_some_iff.1 hmore
      obtain ⟨ds', hds', hcons⟩ := Option.bind_eq_some_iff.1 hrest
      obtain rfl : d :: ds' = ds := Option.some.inj hcons
      rw [List.append_cons, List.foldl_cons]
      exact ih (h.snoc (isDigit_of_digit? hradix hd)) hds'

/-- The numerals that are read are those that are written. -/
theorem natural?_eq_some_iff (hradix : radix ≤ 16) :
    natural? radix cs = some n ↔ Writes radix cs n := by
  constructor
  · intro h
    cases cs with
    | nil => cases h
    | cons c cs =>
        rw [natural?, List.isEmpty_cons, if_neg Bool.false_ne_true] at h
        obtain ⟨all, hall, rfl⟩ := Option.map_eq_some_iff.1 h
        rw [List.mapM_cons] at hall
        obtain ⟨d, hd, hrest⟩ := Option.bind_eq_some_iff.1 hall
        obtain ⟨ds, hds, hcons⟩ := Option.bind_eq_some_iff.1 hrest
        obtain rfl : d :: ds = all := Option.some.inj hcons
        have hwrites :=
          (Writes.digit (isDigit_of_digit? hradix hd)).append hradix hds
        rw [ofDigits, List.foldl_cons, Nat.zero_mul, Nat.zero_add]
        exact hwrites
  · exact natural?_of_writes hradix

/-- A number is read if it is in range, with a plus sign in front or without. -/
theorem unsigned?_eq_some_iff {s : String} (hradix : radix ≤ 16) :
    unsigned? radix bits s = some n ↔
      ∃ sign ∈ [[], ['+']], ∃ digits, s.toList = sign ++ digits ∧
      Writes radix digits n ∧
        n < 1 <<< bits := by
  have hread (digits : List Char) :
      (natural? radix digits).filter (· < 1 <<< bits) = some n ↔
        Writes radix digits n ∧ n < 1 <<< bits := by
    rw [Option.filter_eq_some_iff, natural?_eq_some_iff hradix,
      decide_eq_true_eq]
  constructor
  · intro h
    unfold unsigned? at h
    split at h
    · next digits hs => exact ⟨['+'], by simp, digits, hs, (hread digits).1 h⟩
    · exact ⟨[], by simp, s.toList, rfl, (hread s.toList).1 h⟩
  · rintro ⟨sign, hsign, digits, hs, hwrites, hrange⟩
    simp only [List.mem_cons, List.not_mem_nil, or_false] at hsign
    rcases hsign with rfl | rfl
    · rw [List.nil_append] at hs
      exact unsigned?_of_writes hradix (hs ▸ hwrites) hrange
    · rw [unsigned?, hs]
      exact (hread digits).2 ⟨hwrites, hrange⟩

/-- Every number can be written. -/
theorem writes_toDigits (hradix : 1 < radix) (n : Nat) :
    Writes radix (Nat.toDigits radix n) n := by
  induction n using Nat.strongRecOn with
  | ind n ih =>
      by_cases hn : n < radix
      · rw [Nat.toDigits_of_lt_base hn]
        exact .digit ⟨hn, Or.inl rfl⟩
      · have hpositive : 0 < n / radix :=
          Nat.div_pos (Nat.le_of_not_lt hn) (by omega)
        have hlast : n % radix < radix := Nat.mod_lt n (by omega)
        have hlower : n / radix < n := Nat.div_lt_self (by omega) hradix
        have hdigits : Nat.toDigits radix n =
            Nat.toDigits radix (n / radix) ++ [(n % radix).digitChar] := by
          rw [← Nat.toDigits_of_lt_base hlast,
            Nat.toDigits_append_toDigits hradix hpositive hlast,
            Nat.div_add_mod]
        have hvalue : n / radix * radix + n % radix = n := by
          rw [Nat.mul_comm, Nat.div_add_mod]
        have hsnoc :=
          (ih (n / radix) hlower).snoc (d := n % radix) ⟨hlast, Or.inl rfl⟩
        rwa [← hdigits, hvalue] at hsnoc

end CellModem.Text
