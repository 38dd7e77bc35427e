import CellModem.Proofs.Fields
import CellModem.Proofs.Numerals
import CellModem.Proofs.Reply

/-!
# The calls that are listed

The modem reports its calls one in a line, and other lines may stand among them:
messages that arrive just then, noise, and lines that begin like a call and
cannot be read. Whatever stands between them, the list is made of the calls as
they were reported, in that order, up to the number that there is space for
(`calls_read_back`).

Two things carry this. A report is a row of five numbers and, if the other
party's number goes with it, two fields more, and each is read at its position
(`Report.ofText?_text`). And a line either adds the call that it reports or
leaves the list as it was (`CallList.absorb_of_call`,
`CallList.absorb_of_no_call`).
-/

namespace CellModem

/-! ## Decimal numbers -/

namespace Field

theorem digits_toString (n : Nat) : Digits (toString n).toList := by
  rw [Nat.toString_eq_repr, Nat.toList_repr]
  exact ⟨Nat.toDigits_ne_nil,
    fun _ => Nat.isDigit_of_mem_toDigits (by decide) (by decide)⟩

/-- A number as it is usually written, without zeros in front. -/
def Content.natural (n : Nat) : Content :=
  .digits ⟨toString n, digits_toString n⟩

theorem unsigned?_toString {bits n : Nat} (h : n < 1 <<< bits) :
    Text.unsigned? 10 bits (toString n) = some n := by
  refine Text.unsigned?_of_writes (by decide) ?_ h
  rw [Nat.toString_eq_repr, Nat.toList_repr]
  exact Text.writes_toDigits (by decide) n

end Field

/-! ## Numbers in quotes -/

/-- The numbers that can be reported. An empty one would be taken for one that
is withheld, and a quote would end the number early. -/
def PhoneNumber.Reportable (n : PhoneNumber) : Prop :=
  n.text ≠ "" ∧ '"' ∉ n.text.toList

namespace Field

/-- A number in quotes, or just the quotes if it is withheld. -/
def Content.party :
    (number : Option PhoneNumber) → (∀ n ∈ number, n.Reportable) → Content
  | none, _ => .quoted "" List.not_mem_nil
  | some n, h => .quoted n.text (h n rfl).2

theorem value_party (number : Option PhoneNumber)
    (h : ∀ n ∈ number, n.Reportable) :
    ((Content.party number h).value?.filter (· != "")).map
      PhoneNumber.ofText = number := by
  cases number with
  | none => rfl
  | some n =>
      have hvalue : (Content.party (some n) h).value? = some n.text := rfl
      rw [hvalue, Option.filter_some, if_pos (bne_iff_ne.2 (h n rfl).1),
        Option.map_some, n.ofText_text]

end Field

/-! ## Reports -/

namespace Call

open CellModem.Field

/-- The number by which a direction is reported. -/
def Direction.code : Direction → Nat
  | .mobileOriginated => 0
  | .mobileTerminated => 1

def State.code : State → Nat
  | .active => 0
  | .held => 1
  | .dialing => 2
  | .alerting => 3
  | .incoming => 4
  | .waiting => 5

/-- The number by which a mode is reported; for a mode without a name, the
first that is free. -/
def Mode.code : Mode → Nat
  | .voice => 0
  | .data => 1
  | .fax => 2
  | .unknown => 3

theorem Direction.ofCode?_code (d : Direction) :
    ofCode? (toString d.code) = some d := by
  cases d <;> rfl

theorem State.ofCode?_code (s : State) :
    ofCode? (toString s.code) = some s := by
  cases s <;> rfl

theorem Mode.ofCode_code (m : Mode) : ofCode (toString m.code) = m := by
  cases m <;> rfl

/-- What is reported of a call: the call, and the type of the number. Without a
type the number is left out as well, as it may be if it is withheld. -/
structure Report where
  call : Call
  type? : Option {s : String // Digits s.toList}
  reportable : ∀ n ∈ call.number, n.Reportable
  typed : call.number.isSome = true → type?.isSome = true

namespace Report

variable (r : Report)

def contents : List Content :=
  [.natural r.call.index.toNat, .natural r.call.direction.code,
    .natural r.call.state.code, .natural r.call.mode.code,
    .natural r.call.multiparty.toNat] ++ r.type?.elim [] fun type =>
      [.party r.call.number r.reportable, .digits type]

/-- The line by which the call is reported. -/
def text : String := "+CLCC: " ++ (Row.bare r.contents).text

/-! ## Reading a report -/

theorem afterText?_text :
    Text.afterText? lead r.text = some (" " ++ (Row.bare r.contents).text) :=
  Text.afterText?_eq_some_iff.2 (by rw [← String.append_assoc]; rfl)

theorem at?_contents (i : Nat) :
    at? i (" " ++ (Row.bare r.contents).text) =
      r.contents[i]?.bind (·.value?) := by
  rw [at?_blank, at?_bare]

theorem numberField?_contents :
    (numberField? (" " ++ (Row.bare r.contents).text)).map .ofText =
      r.call.number := by
  have hfield : r.contents[5]?.bind (·.value?) =
      r.type?.bind fun _ =>
      (Content.party r.call.number r.reportable).value? := by
    cases htype : r.type? <;> simp [contents, htype]
  rw [numberField?, at?_contents, hfield]
  cases htype : r.type? with
  | none =>
      have hnumber : r.call.number = none := by
        have htyped := r.typed
        rw [htype] at htyped
        simpa using htyped
      exact hnumber.symm
  | some type => exact value_party r.call.number r.reportable

/-- A report is read as the call that it is about. -/
theorem ofText?_text : ofText? r.text = some r.call := by
  have hindex : (r.contents[0]?.bind (·.value?)).bind (Text.unsigned? 10 8) =
      some r.call.index.toNat := unsigned?_toString r.call.index.toNat_lt
  have hdirection : (r.contents[1]?.bind (·.value?)).bind Direction.ofCode? =
      some r.call.direction := r.call.direction.ofCode?_code
  have hstate : (r.contents[2]?.bind (·.value?)).bind State.ofCode? =
      some r.call.state :=
    r.call.state.ofCode?_code
  have hmode : r.contents[3]?.bind (·.value?) =
      some (toString r.call.mode.code) := rfl
  have hmultiparty : r.contents[4]?.bind (·.value?) =
      some (toString r.call.multiparty.toNat) := rfl
  have hone : (toString r.call.multiparty.toNat == "1") =
      r.call.multiparty := by
    cases r.call.multiparty <;> rfl
  rw [ofText?, afterText?_text, Option.bind_some, ofFields?]
  simp only [at?_contents, hindex, hdirection, hstate, hmode, hmultiparty,
    numberField?_contents, hone, r.call.mode.ofCode_code, UInt8.ofNat_toNat,
    Option.bind_eq_bind, Option.bind_some, Option.pure_def]

example : ofText? "+CLCC: 3,0,0,0,1" =
    some ⟨3, .mobileOriginated, .active, .voice, true, none⟩ := by
      decide +kernel

end Report

end Call

/-! ## The list -/

theorem Call.startsWith_of_ofText? {l : Line} {call : Call}
    (h : l.text?.bind Call.ofText? = some call) :
    l.startsWith Call.lead = true := by
  obtain ⟨s, hs, hcall⟩ := Option.bind_eq_some_iff.1 h
  obtain ⟨fields, hfields, _⟩ := Option.bind_eq_some_iff.1 hcall
  have hbytes : l.bytes = Text.bytes Call.lead ++ Text.bytes fields := by
    rw [← Text.bytes_append, ← Text.afterText?_eq_some_iff.1 hfields,
      Text.bytes_of_ofBytes? hs]
  rw [Line.startsWith, Text.after?_eq_some_iff.2 hbytes]
  rfl

namespace CallList

/-- The list with a line taken, or as it was if the line is not of the list. -/
def absorb (list : CallList) (l : Line) : CallList :=
  (list.accept l).value.getD list

/-- The list after some lines. -/
def after (list : CallList) (lines : List Line) : CallList :=
  lines.foldl absorb list

/-- A line among which the calls are reported. -/
inductive Entry where
  | report (r : Call.Report)
  | foreign (l : Line) (h : l.startsWith Call.lead = false)
  | unreadable (l : Line) (hlead : l.startsWith Call.lead = true)
      (hnone : l.text?.bind Call.ofText? = none)

def Entry.line : Entry → Line
  | report r => .ofText r.text
  | foreign l _ => l
  | unreadable l _ _ => l

/-- The call that is reported. -/
def Entry.call? : Entry → Option Call
  | report r => some r.call
  | foreign _ _ => none
  | unreadable _ _ _ => none

variable (list : CallList) (l : Line)

theorem absorb_of_no_call (h : l.text?.bind Call.ofText? = none) :
    list.absorb l = list := by
  unfold absorb accept
  split
  · rw [h]
    rfl
  · rfl

theorem absorb_of_call {call : Call}
    (h : l.text?.bind Call.ofText? = some call) :
    list.absorb l = if limit ≤ list.calls.length then list
    else ⟨list.calls ++ [call]⟩ := by
  rw [absorb, accept, if_pos (Call.startsWith_of_ofText? h), h]
  simp [add]

theorem call?_eq (e : Entry) : e.call? = e.line.text?.bind Call.ofText? := by
  cases e with
  | report r =>
      rw [Entry.line, Line.text?_ofText, Option.bind_some, r.ofText?_text]
      rfl
  | foreign l h =>
      cases hcall : l.text?.bind Call.ofText? with
      | none => exact hcall.symm
      | some call =>
          rw [Call.startsWith_of_ofText? hcall] at h
          cases h
  | unreadable l _ hnone => exact hnone.symm

/-- Lines add the calls that they report, as long as there is space. -/
theorem after_entries (entries : List Entry)
    (hlist : list.calls.length ≤ limit) : list.after (entries.map Entry.line) =
      ⟨(list.calls ++ entries.filterMap Entry.call?).take limit⟩ := by
  induction entries generalizing list with
  | nil =>
      rw [List.filterMap_nil, List.append_nil, List.take_of_length_le hlist]
      rfl
  | cons e entries ih =>
      have hcons : list.after ((e :: entries).map Entry.line) =
          (list.absorb e.line).after (entries.map Entry.line) := rfl
      rw [hcons]
      cases hcall : e.call? with
      | none =>
          rw [absorb_of_no_call list e.line (call?_eq e ▸ hcall), ih list hlist,
            List.filterMap_cons_none hcall]
      | some call =>
          rw [absorb_of_call list e.line (call?_eq e ▸ hcall),
            List.filterMap_cons_some hcall]
          by_cases hfull : limit ≤ list.calls.length
          · -- nothing that follows gets in
            have htake (calls : List Call) :
                (list.calls ++ calls).take limit = list.calls := by
              rw [List.take_append_of_le_length hfull,
                List.take_of_length_le hlist]
            rw [if_pos hfull, ih list hlist, htake, htake]
          · have hspace : (list.calls ++ [call]).length ≤ limit := by
              rw [List.length_append, List.length_singleton]
              omega
            rw [if_neg hfull, ih ⟨list.calls ++ [call]⟩ hspace,
              List.append_assoc, List.singleton_append]

/-- However calls are reported and whatever stands between the reports, the list
is the calls from the first on, as many as there is space for. Just the lines
that begin like a report are taken, and a line does nothing to the list but add
the call that it reports. -/
theorem calls_read_back :
    (∀ entries : List Entry,
      empty.after (entries.map Entry.line) =
        ⟨(entries.filterMap Entry.call?).take limit⟩) ∧
    (∀ (list : CallList) (l : Line),
      (list.accept l).value.isSome = l.startsWith Call.lead) ∧
    (∀ (list : CallList) (l : Line), list.absorb l = list ∨
      ∃ call, l.text?.bind Call.ofText? = some call ∧
        list.calls.length < limit ∧
        list.absorb l = ⟨list.calls ++ [call]⟩) := by
  refine ⟨fun entries => after_entries empty entries (Nat.zero_le limit),
    isSome_accept, ?_⟩
  intro list l
  cases hcall : l.text?.bind Call.ofText? with
  | none => exact Or.inl (absorb_of_no_call list l hcall)
  | some call =>
      have habsorb := absorb_of_call list l hcall
      by_cases hfull : limit ≤ list.calls.length
      · rw [if_pos hfull] at habsorb
        exact Or.inl habsorb
      · rw [if_neg hfull] at habsorb
        exact Or.inr ⟨call, rfl, Nat.lt_of_not_le hfull, habsorb⟩

end CallList

end CellModem
