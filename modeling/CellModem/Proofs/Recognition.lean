import CellModem.Proofs.Reply

/-!
# Telling lines apart

A transaction asks four questions of a line, one after the other: is it the
command, is it a final result, does the response take it, is it an unsolicited
message. The order matters only for lines to which more than one of the answers
is yes, and there are three kinds of these: `NO CARRIER`, which is a final
result and a message, and the lines that report the status of the SIM or the
registration while just that is asked for. To recognise a message takes eight
more questions, and their order does not matter at all.

What is asked of a line is always either that it is a certain text or that it
begins with one. So each question has a spelling, a line to which two answers
are yes has both spellings, and whether there are such lines can be decided on
the spellings alone (`Spelling.apart`).
-/

namespace CellModem

/-! ## Spellings -/

/-- How all lines of a kind are written. -/
inductive Spelling where
  | whole (text : String)
  /-- The line begins with a text. -/
  | lead (text : String)
deriving DecidableEq

namespace Spelling

/-- Whether a line is written like that. -/
def Fits (s : String) : Spelling → Prop
  | whole text => s = text
  | lead text => Text.bytes text <+: Text.bytes s

/-- Whether no line is written in both ways. -/
def apart : Spelling → Spelling → Bool
  | whole a, whole b => a != b
  | whole a, lead b => !(Text.bytes b).isPrefixOf (Text.bytes a)
  | lead a, whole b => !(Text.bytes a).isPrefixOf (Text.bytes b)
  | lead a, lead b =>
    !(Text.bytes a).isPrefixOf (Text.bytes b) && !(Text.bytes b).isPrefixOf
      (Text.bytes a)

theorem not_fits_of_apart {p q : Spelling} (h : p.apart q = true) {s : String}
    (hp : p.Fits s) : ¬ q.Fits s := by
  intro hq
  cases p with
  | whole a =>
      cases q with
      | whole b => exact absurd (hp.symm.trans hq) (by simpa [apart] using h)
      | lead b =>
          subst hp
          rw [apart, List.isPrefixOf_iff_prefix.2 hq] at h
          cases h
  | lead a =>
      cases q with
      | whole b =>
          subst hq
          rw [apart, List.isPrefixOf_iff_prefix.2 hp] at h
          cases h
      | lead b =>
          rw [apart, Bool.and_eq_true, Bool.not_eq_true',
            Bool.not_eq_true'] at h
          rcases List.prefix_or_prefix_of_prefix hp hq with hab | hba
          · rw [List.isPrefixOf_iff_prefix.2 hab] at h
            cases h.1
          · rw [List.isPrefixOf_iff_prefix.2 hba] at h
            cases h.2

theorem fits_of_afterText? {text s : String}
    (h : (Text.afterText? text s).isSome = true) : (lead text).Fits s := by
  obtain ⟨r, hr⟩ := Option.isSome_iff_exists.1 h
  rw [Text.afterText?_eq_some_iff.1 hr, Fits, Text.bytes_append]
  exact List.prefix_append _ _

end Spelling

/-! ## How everything is written -/

/-- All commands begin like the one that asks for nothing. -/
def Command.spelling : Spelling := .lead Command.attention

def FinalResult.spellings : List Spelling :=
  [.whole "OK", .lead ModemError.equipmentLead,
    .lead ModemError.messageServiceLead, .whole "ERROR", .whole "NO CARRIER",
    .whole "BUSY", .whole "NO ANSWER", .whole "NO DIALTONE"]

/-- How the lines are written that are a part of the reply to a request. -/
def Request.spelling? : Request → Option Spelling
  | .listCalls => some (.lead Call.lead)
  | .queryConfig _ => some (.lead ConfigValue.lead)
  | .simStatus => some (.lead "+CPIN: ")
  | .registration => some (.lead "+CREG: ")
  | .attention | .setEcho _ | .dial _ | .answer | .hangUp | .enterPin _ |
      .setConfig _ _
  | .reboot | .powerDown => none

/-- The recognisers of messages, each with the spelling of
what it recognises. -/
def Urc.spelled : List (Spelling × (String → Option Urc)) :=
  [(.whole "RING", fixed? "RING" .ring), (.lead callerIdLead, callerId?),
    (.whole "NO CARRIER", fixed? "NO CARRIER" .callEnded),
    (.lead "+CPIN: ", simStatus?), (.lead "+CREG: ", registration?),
    (.whole "RDY", fixed? "RDY" .ready),
    (.whole "POWERED DOWN", fixed? "POWERED DOWN" .poweredDown),
    (.lead "+QIND: ", indication?)]

theorem Command.prefix_pushAll (c : Command) (pieces : List String) :
    Text.bytes c.text <+: Text.bytes (c.pushAll pieces).value.text := by
  induction pieces generalizing c with
  | nil => exact List.prefix_rfl
  | cons piece pieces ih =>
      have hpush : Text.bytes c.text <+:
          Text.bytes (c.push piece).value.text := by
        show Text.bytes c.text <+: Text.bytes (c.text ++ String.ofList _)
        rw [Text.bytes_append]
        exact List.prefix_append _ _
      exact hpush.trans (ih _)

/-- However long the text in a request is, it does not get in front of the
command's beginning. -/
theorem Request.fits_encode (q : Request) :
    Command.spelling.Fits q.encode.value.text := by
  obtain ⟨first, rest, hpieces, hfirst⟩ : ∃ first rest, q.pieces =
      first :: rest ∧ Text.bytes Command.attention <+:
        Text.bytes (Command.empty.push first).value.text := by
    cases q with
    | setEcho on => cases on <;> exact ⟨_, _, rfl, by decide⟩
    | _ => exact ⟨_, _, rfl, by decide⟩
  rw [Request.encode, Command.ofPieces, hpieces]
  exact hfirst.trans (Command.prefix_pushAll _ rest)

theorem FinalResult.fits_of_ofText? {s : String}
    (h : (ofText? s).isSome = true) : ∃ p ∈ spellings, p.Fits s := by
  unfold ofText? at h
  split at h
  · next hok => exact ⟨.whole "OK", by decide, hok⟩
  · rw [Option.isSome_map] at h
    unfold ModemError.ofText? at h
    split at h
    · next code _ hlead =>
        exact ⟨.lead ModemError.equipmentLead, by decide,
          Spelling.fits_of_afterText? (by rw [hlead]; rfl)⟩
    · next code _ hlead =>
        exact ⟨.lead ModemError.messageServiceLead, by decide,
          Spelling.fits_of_afterText? (by rw [hlead]; rfl)⟩
    · unfold ModemError.ofFixed? at h
      split at h
      · exact ⟨.whole "ERROR", by decide, rfl⟩
      · exact ⟨.whole "NO CARRIER", by decide, rfl⟩
      · exact ⟨.whole "BUSY", by decide, rfl⟩
      · exact ⟨.whole "NO ANSWER", by decide, rfl⟩
      · exact ⟨.whole "NO DIALTONE", by decide, rfl⟩
      · cases h

theorem Urc.recognisers_eq : recognisers = spelled.map Prod.snd := rfl

theorem Urc.fits_fixed? {text s : String} {urc : Urc}
    (h : (fixed? text urc s).isSome = true) : (Spelling.whole text).Fits s := by
  unfold fixed? at h
  split at h
  · assumption
  · cases h

theorem SimStatus.fits_of_ofText? {s : String} (h : (ofText? s).isSome = true) :
    (Spelling.lead "+CPIN: ").Fits s :=
  Spelling.fits_of_afterText? (Option.isSome_of_isSome_bind h)

theorem Registration.fits_of_ofText? {s : String}
    (h : (ofText? s).isSome = true) : (Spelling.lead "+CREG: ").Fits s :=
  Spelling.fits_of_afterText? (Option.isSome_of_isSome_bind h)

theorem Urc.fits_of_mem {x : Spelling × (String → Option Urc)}
    (hx : x ∈ spelled) {s : String} (h : (x.2 s).isSome = true) :
    x.1.Fits s := by
  simp only [spelled, List.mem_cons, List.not_mem_nil, or_false] at hx
  rcases hx with rfl | rfl | rfl | rfl | rfl | rfl | rfl | rfl
  · exact fits_fixed? h
  · exact Spelling.fits_of_afterText? (by simpa [callerId?] using h)
  · exact fits_fixed? h
  · exact SimStatus.fits_of_ofText? (by simpa [simStatus?] using h)
  · exact Registration.fits_of_ofText? (by simpa [registration?] using h)
  · exact fits_fixed? h
  · exact fits_fixed? h
  · exact Spelling.fits_of_afterText? (by simpa [indication?] using h)

theorem Request.fits_of_accept {q : Request} {s : String}
    (h : (q.emptyResponse.accept (.ofText s)).value.isSome = true) :
    ∃ p ∈ q.spelling?, p.Fits s := by
  cases q with
  | listCalls =>
      rw [emptyResponse, isSome_accept_calls] at h
      obtain ⟨r, hr⟩ := Option.isSome_iff_exists.1 h
      have hs : Text.bytes s = Text.bytes Call.lead ++ r :=
        Text.after?_eq_some_iff.1 hr
      refine ⟨_, rfl, ?_⟩
      rw [Spelling.Fits, hs]
      exact List.prefix_append _ _
  | queryConfig name =>
      refine ⟨_, rfl, Spelling.fits_of_afterText? ?_⟩
      have hsome : (ConfigValue.ofText? s).isSome = true := by
        simpa [emptyResponse] using h
      rw [ConfigValue.ofText?, Option.isSome_map, ConfigValue.parts?] at hsome
      exact Option.isSome_of_isSome_bind hsome
  | simStatus =>
      refine ⟨_, rfl, SimStatus.fits_of_ofText? ?_⟩
      simpa [emptyResponse] using h
  | registration =>
      refine ⟨_, rfl, Registration.fits_of_ofText? ?_⟩
      simpa [emptyResponse] using h
  | _ => cases h

/-! ## Who knows a line -/

/-- What a transaction asks of a line, in the order in which it asks. -/
inductive Recogniser where
  | echo
  | final
  | part
  | message
deriving DecidableEq

def Recogniser.all : List Recogniser := [.echo, .final, .part, .message]

/-- How the lines are written to which the answer is yes. -/
def Recogniser.spellings (reply? : Option Spelling) : Recogniser → List Spelling
  | .echo => [Command.spelling]
  | .final => FinalResult.spellings
  | .part => reply?.toList
  | .message => Urc.spelled.map Prod.fst

namespace Transaction

/-- What the answer is for a line of text. -/
def knows (t : Transaction) (s : String) : Recogniser → Bool
  | .echo => s = t.command.text
  | .final => (FinalResult.ofText? s).isSome
  | .part => (t.response.accept (.ofText s)).value.isSome
  | .message => (Urc.ofText? s).isSome

/-- All to which the answer is yes. -/
def knownTo (t : Transaction) (s : String) : List Recogniser :=
  Recogniser.all.filter (t.knows s)

theorem isSome_accept_handle (t : Transaction) (k l : Line) :
    ((t.handle k).value.1.response.accept l).value.isSome =
      (t.response.accept l).value.isSome := by
  cases hc : t.complete with
  | true => rw [handle_of_complete hc]
  | false =>
      cases hf : t.final? k with
      | some result => rw [handle_of_final hc hf]
      | none =>
          rw [handle_of_not_final hc hf]
          split
          · exact isSome_accept_absorb _ _ _
          · rfl

/-- The lines seen so far make no difference to what is known. -/
theorem knows_after (t : Transaction) (lines : List Line) (s : String)
    (r : Recogniser) : (t.after lines).knows s r = t.knows s r := by
  induction lines generalizing t with
  | nil => rfl
  | cons l lines ih =>
      rw [after_cons, ih]
      cases r with
      | echo => rw [knows, knows, command_handle]
      | final => rfl
      | part => exact isSome_accept_handle t l _
      | message => rfl

theorem fits_of_knows {q : Request} {s : String} {r : Recogniser}
    (h : (start q).value.knows s r = true) :
    ∃ p ∈ r.spellings q.spelling?, p.Fits s := by
  cases r with
  | echo =>
      have hs : s = q.encode.value.text := of_decide_eq_true h
      refine ⟨_, List.mem_singleton.2 rfl, ?_⟩
      rw [hs]
      exact q.fits_encode
  | final => exact FinalResult.fits_of_ofText? h
  | part =>
      obtain ⟨p, hp, hfits⟩ := Request.fits_of_accept h
      exact ⟨p, Option.mem_toList.2 hp, hfits⟩
  | message =>
      obtain ⟨r, hr, hsome⟩ := List.findSome?_isSome_iff.1 h
      rw [Urc.recognisers_eq] at hr
      obtain ⟨x, hx, rfl⟩ := List.mem_map.1 hr
      exact ⟨x.1, List.mem_map_of_mem hx, Urc.fits_of_mem hx hsome⟩

end Transaction

/-! ## No line is known twice -/

/-- The lines that are known twice while a request is under way. -/
def Request.Shares (q : Request) (s : String) : Prop :=
  s = "NO CARRIER" ∨ q = .simStatus ∧ (SimStatus.ofText? s).isSome = true ∨
    q = .registration ∧ (Registration.ofText? s).isSome = true

/-- Whether no line is written for both of two recognisers, but for a final
result and two kinds of replies. -/
def Recogniser.Parted (reply? : Option Spelling) (r r' : Recogniser) : Prop :=
  ∀ p ∈ r.spellings reply?, ∀ p' ∈ r'.spellings reply?,
    p.apart p' = true ∨ p = .whole "NO CARRIER" ∨
      r = .part ∧ (reply? = some (.lead "+CPIN: ") ∨
        reply? = some (.lead "+CREG: "))

instance (reply? : Option Spelling) (r r' : Recogniser) :
    Decidable (r.Parted reply? r') :=
  inferInstanceAs (Decidable (∀ _ ∈ _, _))

theorem Request.parted_spellings (q : Request) :
    Recogniser.all.Pairwise fun r r' => r.Parted q.spelling? r' := by
  have hreplies : ∀ reply? ∈ [none, some (.lead Call.lead),
      some (.lead ConfigValue.lead), some (.lead "+CPIN: "),
      some (.lead "+CREG: ")], Recogniser.all.Pairwise fun r r' =>
        r.Parted reply? r' := by
    decide +kernel
  refine hreplies q.spelling? ?_
  cases q <;> simp [spelling?]

theorem Urc.apart_spelled :
    (spelled.map Prod.fst).Pairwise fun p p' => p.apart p' = true := by
  decide +kernel

theorem Request.eq_of_spelling {q : Request}
    (h : q.spelling? = some (.lead "+CPIN: ") ∨
      q.spelling? = some (.lead "+CREG: ")) :
    q = .simStatus ∨ q = .registration := by
  cases q with
  | simStatus => exact Or.inl rfl
  | registration => exact Or.inr rfl
  | _ => exact absurd h (by simp [spelling?, Call.lead, ConfigValue.lead])

theorem length_filter_le_one {α : Type} {p : α → Bool} {l : List α}
    (h : l.Pairwise fun a b => ¬ (p a = true ∧ p b = true)) :
    (l.filter p).length ≤ 1 := by
  have hpairs := h.filter p
  have hmem {a : α} (ha : a ∈ l.filter p) : p a = true :=
    (List.mem_filter.1 ha).2
  cases hf : l.filter p with
  | nil => exact Nat.zero_le 1
  | cons a rest =>
      cases rest with
      | nil => exact Nat.le_refl 1
      | cons b rest =>
          rw [hf] at hpairs hmem
          have hb : b ∈ b :: rest := List.mem_cons_self
          exact absurd ⟨hmem List.mem_cons_self,
            hmem (List.mem_cons_of_mem a hb)⟩
              (List.rel_of_pairwise_cons hpairs hb)

theorem Urc.length_recognise (s : String) :
    (recognisers.filter fun r => (r s).isSome).length ≤ 1 := by
  refine length_filter_le_one ?_
  rw [recognisers_eq, List.pairwise_map]
  refine (List.pairwise_map.1 apart_spelled).imp_of_mem ?_
  rintro x y hx hy hapart ⟨hxs, hys⟩
  exact Spelling.not_fits_of_apart hapart (fits_of_mem hx hxs)
    (fits_of_mem hy hys)

/-- The messages can be looked for in any order. -/
theorem Urc.findSome?_of_perm {rs : List (String → Option Urc)}
    (h : rs.Perm recognisers) (s : String) :
    rs.findSome? (· s) = ofText? s := by
  have hperm := h.filterMap (· s)
  have hfew : (recognisers.filterMap (· s)).length ≤ 1 := by
    rw [List.length_filterMap_eq_countP, List.countP_eq_length_filter]
    exact length_recognise s
  rw [ofText?, ← List.head?_filterMap, ← List.head?_filterMap]
  cases hl : recognisers.filterMap (· s) with
  | nil =>
      rw [hl] at hperm
      rw [List.perm_nil.1 hperm]
  | cons urc rest =>
      rw [hl] at hperm hfew
      obtain rfl : rest = [] := List.length_eq_zero_iff.1 (by simpa using hfew)
      rw [List.perm_singleton.1 hperm]

namespace Transaction

variable {q : Request} {s : String}

theorem knows_part_simStatus (s : String) :
    (start .simStatus).value.knows s .part = (SimStatus.ofText? s).isSome := by
  simp [knows, start, Request.emptyResponse]

theorem knows_part_registration (s : String) :
    (start .registration).value.knows s .part =
      (Registration.ofText? s).isSome := by
  simp [knows, start, Request.emptyResponse]

theorem length_knownTo (h : ¬ q.Shares s) :
    ((start q).value.knownTo s).length ≤ 1 := by
  refine length_filter_le_one (q.parted_spellings.imp ?_)
  rintro r r' hparted ⟨hr, hr'⟩
  obtain ⟨p, hp, hfits⟩ := fits_of_knows hr
  obtain ⟨p', hp', hfits'⟩ := fits_of_knows hr'
  rcases hparted p hp p' hp' with hapart | rfl | ⟨rfl, hreply⟩
  · exact Spelling.not_fits_of_apart hapart hfits hfits'
  · exact h (Or.inl hfits)
  · rcases Request.eq_of_spelling hreply with rfl | rfl
    · exact h (Or.inr (Or.inl ⟨rfl, (knows_part_simStatus s).symm.trans hr⟩))
    · exact h (Or.inr (Or.inr ⟨rfl, (knows_part_registration s).symm.trans hr⟩))

theorem not_knows_of_apart {p : Spelling} (hfits : p.Fits s) {r : Recogniser}
    (h : ∀ p' ∈ r.spellings q.spelling?, p.apart p' = true) :
    (start q).value.knows s r = false := by
  cases hr : (start q).value.knows s r with
  | false => rfl
  | true =>
      obtain ⟨p', hp', hfits'⟩ := fits_of_knows hr
      exact absurd hfits' (Spelling.not_fits_of_apart (h p' hp') hfits)

theorem knownTo_noCarrier (q : Request) :
    (start q).value.knownTo "NO CARRIER" = [.final, .message] := by
  have hfits : (Spelling.whole "NO CARRIER").Fits "NO CARRIER" := rfl
  have hecho : (start q).value.knows "NO CARRIER" .echo = false := by
    refine not_knows_of_apart hfits fun p hp => ?_
    rw [List.mem_singleton.1 hp]
    decide
  have hpart : (start q).value.knows "NO CARRIER" .part = false := by
    refine not_knows_of_apart hfits ?_
    cases q <;> simp [Recogniser.spellings, Request.spelling?] <;> decide
  have hfinal : (start q).value.knows "NO CARRIER" .final = true := rfl
  have hmessage : (start q).value.knows "NO CARRIER" .message = true := rfl
  simp [knownTo, Recogniser.all, hecho, hfinal, hpart, hmessage]

/-- A line that is taken and is a message as well is nothing else. -/
theorem knownTo_reply {p : Spelling} (hfits : p.Fits s)
    (hapart : ∀ p' ∈ Command.spelling :: FinalResult.spellings,
      p.apart p' = true)
    (hpart : (start q).value.knows s .part = true)
    (hmessage : ∃ r ∈ Urc.recognisers, (r s).isSome = true) :
    (start q).value.knownTo s = [.part, .message] := by
  have hecho : (start q).value.knows s .echo = false := by
    refine not_knows_of_apart hfits fun p' hp' => hapart p' ?_
    rw [List.mem_singleton.1 hp']
    exact List.mem_cons_self
  have hfinal : (start q).value.knows s .final = false :=
    not_knows_of_apart hfits fun p' hp' =>
      hapart p' (List.mem_cons_of_mem _ hp')
  have hknown : (start q).value.knows s .message = true :=
    List.findSome?_isSome_iff.2 hmessage
  simp [knownTo, Recogniser.all, hecho, hfinal, hpart, hknown]

theorem knownTo_simStatus (h : (SimStatus.ofText? s).isSome = true) :
    (start .simStatus).value.knownTo s = [.part, .message] :=
  knownTo_reply (SimStatus.fits_of_ofText? h) (by decide)
    ((knows_part_simStatus s).trans h)
    ⟨Urc.simStatus?, by simp [Urc.recognisers],
      by simpa [Urc.simStatus?] using h⟩

theorem knownTo_registration (h : (Registration.ofText? s).isSome = true) :
    (start .registration).value.knownTo s = [.part, .message] :=
  knownTo_reply (Registration.fits_of_ofText? h) (by decide)
    ((knows_part_registration s).trans h)
    ⟨Urc.registration?, by simp [Urc.recognisers],
      by simpa [Urc.registration?] using h⟩

/-- At any point of a reply, at most one of the four answers is yes for a
line of text, unless it is one of the lines that are shared, for which
exactly two are. A message has one recogniser at most, so that the order of
these makes no difference. -/
theorem known_once (q : Request) (lines : List Line) (s : String) :
    let t := (start q).value.after lines
    (¬ q.Shares s → (t.knownTo s).length ≤ 1) ∧
    (s = "NO CARRIER" → t.knownTo s = [.final, .message]) ∧
    (q = .simStatus → (SimStatus.ofText? s).isSome = true →
      t.knownTo s = [.part, .message]) ∧
    (q = .registration → (Registration.ofText? s).isSome = true →
      t.knownTo s = [.part, .message]) ∧
    (Urc.recognisers.filter fun r => (r s).isSome).length ≤ 1 ∧
    ∀ rs : List (String → Option Urc), rs.Perm Urc.recognisers →
      rs.findSome? (· s) = Urc.ofText? s := by
  intro t
  have hknown : t.knownTo s = (start q).value.knownTo s := by
    rw [knownTo, knownTo]
    exact List.filter_congr fun r _ => knows_after _ _ _ _
  rw [hknown]
  refine ⟨length_knownTo, ?_, ?_, ?_, Urc.length_recognise s,
    fun rs h => Urc.findSome?_of_perm h s⟩
  · rintro rfl
    exact knownTo_noCarrier q
  · rintro rfl h
    exact knownTo_simStatus h
  · rintro rfl h
    exact knownTo_registration h

-- The status of the SIM is nothing but a message while something
-- else is asked for.
example : (start .registration).value.knownTo "+CPIN: READY" = [.message] := by
  decide +kernel

end Transaction

end CellModem
