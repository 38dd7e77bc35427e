import CellModem.Text.Cut

/-!
# Cutting a text at a byte offset

Where to cut a text is said in bytes, and a cut goes between two characters or
not at all. `splitAt?` refuses every other offset, and `offset?` is where the
first character of some kind begins.
-/

namespace CellModem.Text

/-- The text in front of an offset and the text behind it, unless the offset
lies past the end or inside a character. -/
def splitAt? (s : String) (i : Nat) : Option (String × String) :=
  if h : String.Pos.Raw.IsValid s ⟨i⟩ then
    some ((s.sliceTo (s.pos ⟨i⟩ h)).copy, (s.sliceFrom (s.pos ⟨i⟩ h)).copy)
  else none

/-- The text behind an offset. -/
def from? (s : String) (i : Nat) : Option String := (splitAt? s i).map Prod.snd

/-- The text in front of an offset. -/
def upTo? (s : String) (i : Nat) : Option String := (splitAt? s i).map Prod.fst

/-- The offset of the first character with the property. -/
def offset? (p : Char → Bool) : List Char → Option Nat
  | [] => none
  | c :: cs => if p c then some 0 else (offset? p cs).map (c.utf8Size + ·)

theorem splitAt?_eq_some_iff {s t u : String} {i : Nat} :
    splitAt? s i = some (t, u) ↔ s = t ++ u ∧ i = t.utf8ByteSize := by
  constructor
  · intro h
    unfold splitAt? at h
    split at h
    · next hvalid =>
        obtain ⟨ht, hu⟩ := Prod.mk.inj (Option.some.inj h)
        have hsplits := (s.pos ⟨i⟩ hvalid).splits
        rw [ht, hu] at hsplits
        exact ⟨hsplits.eq_append,
          congrArg String.Pos.Raw.byteIdx hsplits.offset_eq_rawEndPos⟩
    · cases h
  · rintro ⟨rfl, rfl⟩
    have hvalid : String.Pos.Raw.IsValid (t ++ u) ⟨t.utf8ByteSize⟩ :=
      String.Pos.Raw.isValid_iff_exists_append.2 ⟨t, u, rfl, rfl⟩
    have hsplits := ((t ++ u).pos ⟨t.utf8ByteSize⟩ hvalid).splits
    obtain ⟨ht, hu⟩ := hsplits.eq ⟨rfl, rfl⟩
    rw [splitAt?, dif_pos hvalid, ht, hu]

theorem splitAt?_ofList (cs ds : List Char) :
    splitAt? (String.ofList (cs ++ ds)) (size cs) =
      some (String.ofList cs, String.ofList ds) :=
  splitAt?_eq_some_iff.2 ⟨String.ofList_append, (utf8ByteSize_ofList cs).symm⟩

theorem from?_ofList (cs ds : List Char) :
    from? (String.ofList (cs ++ ds)) (size cs) = some (String.ofList ds) := by
  rw [from?, splitAt?_ofList, Option.map_some]

theorem upTo?_ofList (cs ds : List Char) :
    upTo? (String.ofList (cs ++ ds)) (size cs) = some (String.ofList cs) := by
  rw [upTo?, splitAt?_ofList, Option.map_some]

theorem from?_of_lt {s : String} {i : Nat} (h : s.utf8ByteSize < i) :
    from? s i = none := by
  rw [from?, Option.map_eq_none_iff, Option.eq_none_iff_forall_ne_some]
  rintro ⟨t, u⟩ hsome
  obtain ⟨rfl, rfl⟩ := splitAt?_eq_some_iff.1 hsome
  rw [String.utf8ByteSize_append] at h
  omega

/-- Whether or not there is such a character, what comes before it is found. -/
theorem getD_offset? (p : Char → Bool) (cs : List Char) :
    (offset? p cs).getD (size cs) = size (cs.takeWhile (!p ·)) := by
  induction cs with
  | nil => rfl
  | cons c cs ih =>
      rw [offset?]
      cases hp : p c with
      | true => rw [if_pos rfl, List.takeWhile_cons_of_neg (by simp [hp])]; rfl
      | false =>
          rw [if_neg Bool.false_ne_true,
            List.takeWhile_cons_of_pos (by simp [hp]), size, size, ← ih]
          cases offset? p cs <;> rfl

end CellModem.Text
