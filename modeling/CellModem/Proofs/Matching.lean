import CellModem.Line
import CellModem.Traced

/-!
# Matching bytes is matching text

A line is told by its beginning before anyone knows whether it is text. Its
first bytes are compared with those of the beginning, and only what is left is
decoded. That is as good as decoding the line and looking at its text, and as
strict: what follows the beginning is found if and only if all of the line is
text and begins so (`matched_as_text`).

The one thing needed for this is that bytes in front of which a text stands are
text if and only if they would be by themselves (`ofBytes?_append`). So a line
that begins with the right bytes and has no value is one that is not text.
-/

namespace CellModem

/-! ## Decoding behind a text -/

namespace Text

theorem isSome_ofBytes?_iff {b : List UInt8} :
    (ofBytes? b).isSome = true ↔ b.toByteArray.IsValidUTF8 := by
  unfold ofBytes? String.fromUTF8?
  split
  · next h => exact ⟨fun _ => h, fun _ => rfl⟩
  · next h => exact ⟨fun h' => absurd h' Bool.false_ne_true,
      fun h' => absurd h' h⟩

/-- Whether bytes are text does not depend on characters in front of them. -/
theorem isValidUTF8_append_iff (cs : List Char) (b : List UInt8) :
    (cs.flatMap String.utf8EncodeChar ++ b).toByteArray.IsValidUTF8 ↔
      b.toByteArray.IsValidUTF8 := by
  induction cs with
  | nil => rfl
  | cons c cs ih =>
      rw [List.flatMap_cons, List.append_assoc, List.toByteArray_append,
        ← List.utf8Encode_singleton,
        ByteArray.isValidUTF8_utf8Encode_singleton_append_iff, ih]

theorem ofBytes?_append (s : String) (b : List UInt8) :
    ofBytes? (bytes s ++ b) = (ofBytes? b).map (s ++ ·) := by
  cases hb : ofBytes? b with
  | some r => rw [ofBytes?_eq_some_iff.1 hb, ← bytes_append, ofBytes?_bytes,
      Option.map_some]
  | none =>
      have hinvalid : ¬ (ofBytes? (bytes s ++ b)).isSome = true := by
        rw [isSome_ofBytes?_iff, bytes, isValidUTF8_append_iff,
          ← isSome_ofBytes?_iff, hb]
        exact Bool.false_ne_true
      rw [Option.map_none, ← Option.not_isSome_iff_eq_none]
      exact hinvalid

end Text

/-! ## Lines -/

namespace Line

theorem text?_eq_some_iff {l : Line} {s : String} :
    l.text? = some s ↔ l.bytes = Text.bytes s := Text.ofBytes?_eq_some_iff

/-- What is reported when a callback is given the text behind `lead`,
if there is one. -/
def visit {ω α : Type} (l : Line) (lead : String) (f : String → Traced ω α) :
    Traced ω (Option α) := (l.withValue lead f).sequence

theorem startsWith_iff {l : Line} {lead : String} :
    l.startsWith lead = true ↔ Text.bytes lead <+: l.bytes := by
  rw [startsWith, Option.isSome_iff_exists]
  refine exists_congr fun rest => ?_
  rw [Text.after?_eq_some_iff, eq_comm]

theorem isText_iff {l : Line} {s : String} :
    l.isText s = true ↔ l.text? = some s := by
  rw [isText, beq_iff_eq, text?_eq_some_iff]

theorem value?_eq_some_iff {l : Line} {lead r : String} :
    l.value? lead = some r ↔ l.text? = some (lead ++ r) := by
  rw [value?, Option.bind_eq_some_iff, text?_eq_some_iff, Text.bytes_append]
  simp only [Text.after?_eq_some_iff, Text.ofBytes?_eq_some_iff,
    exists_eq_right]

/-- Where the bytes match, there is a value just if the line is text. -/
theorem value?_eq_none_iff {l : Line} {lead : String}
    (h : l.startsWith lead = true) : l.value? lead = none ↔ l.text? = none := by
  obtain ⟨rest, hrest⟩ := startsWith_iff.1 h
  rw [value?, Text.after?_eq_some_iff.2 hrest.symm, Option.bind_some,
    text?, ← hrest, Text.ofBytes?_append, Option.map_eq_none_iff]

theorem isSome_value?_iff {l : Line} {lead : String} :
    (l.value? lead).isSome = true ↔ ∃ s, l.text? = some s ∧
    lead.toList <+: s.toList := by
  rw [Option.isSome_iff_exists]
  constructor
  · rintro ⟨r, h⟩
    refine ⟨_, value?_eq_some_iff.1 h, ?_⟩
    rw [String.toList_append]
    exact List.prefix_append _ _
  · rintro ⟨s, hs, r, hr⟩
    have hrest : s = lead ++ String.ofList r := by
      rw [← String.toList_inj, ← hr, String.toList_append, String.toList_ofList]
    exact ⟨_, value?_eq_some_iff.2 (hrest ▸ hs)⟩

theorem withValue_eq_some_iff {α : Type} {l : Line} {lead : String}
    {f : String → α} {a : α} :
    l.withValue lead f = some a ↔
    ∃ r, l.text? = some (lead ++ r) ∧ f r = a := by
  rw [withValue, Option.map_eq_some_iff]
  exact exists_congr fun r => and_congr_left' value?_eq_some_iff

theorem visit_of_some {ω α : Type} {l : Line} {lead r : String}
    (h : l.text? = some (lead ++ r)) (f : String → Traced ω α) :
    l.visit lead f = some <$> f r := by
  rw [visit, withValue_eq_some_iff.2 ⟨r, h, rfl⟩, Option.sequence_some]

theorem visit_of_none {ω α : Type} {l : Line} {lead : String}
    (h : ∀ r, l.text? ≠ some (lead ++ r)) (f : String → Traced ω α) :
    l.visit lead f = pure none := by
  have hnone : l.withValue lead f = none := by
    rw [Option.eq_none_iff_forall_ne_some]
    intro a ha
    obtain ⟨r, hr, -⟩ := withValue_eq_some_iff.1 ha
    exact h r hr
  rw [visit, hnone, Option.sequence_none]

/-- A line has a value behind a beginning if and only if all of it is text and
begins so, and then the value is the rest of the text. A callback is given the
value once if there is one and is not called otherwise. A line is a certain
text if its text is. And it may begin with the right bytes and have no value,
if it is not text. -/
theorem matched_as_text (l : Line) (lead : String) :
    (∀ r, l.value? lead = some r ↔ l.text? = some (lead ++ r)) ∧
      ((l.value? lead).isSome = true ↔ ∃ s, l.text? = some s ∧
        lead.toList <+: s.toList) ∧
      (∀ (α : Type) (f : String → α) (a : α),
        l.withValue lead f = some a ↔
          ∃ r, l.text? = some (lead ++ r) ∧ f r = a) ∧
      (∀ (ω α : Type) (f : String → Traced ω α),
        (∀ r, l.text? = some (lead ++ r) → l.visit lead f = some <$> f r) ∧
          ((∀ r, l.text? ≠ some (lead ++ r)) → l.visit lead f = pure none)) ∧
      (l.isText lead = true ↔ l.text? = some lead) ∧
      (l.startsWith lead = true ∧ l.value? lead = none ↔
        Text.bytes lead <+: l.bytes ∧ l.text? = none) := by
  refine ⟨fun _ => value?_eq_some_iff, isSome_value?_iff,
    fun _ _ _ => withValue_eq_some_iff,
    fun _ _ f => ⟨fun _ h => visit_of_some h f, fun h => visit_of_none h f⟩,
    isText_iff, ?_⟩
  rw [← startsWith_iff]
  exact and_congr_right value?_eq_none_iff

end Line

end CellModem
