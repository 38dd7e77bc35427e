import CellModem.Proofs.Calls
import CellModem.Proofs.Recognition
import CellModem.Proofs.Registration
import CellModem.Proofs.Truncation

/-!
# Messages are read as they are announced

Four messages are fixed texts and four carry something: who is calling, what the
SIM waits for, where the modem is registered, or whatever the vendor has to say.
Each is written in a way of its own, and is read as the message that it is
(`announcements_read_back`).

That takes two steps. One recogniser knows the line, which is for the reader of
its fields to say. And none of those that are tried before it does, because no
line is written in two ways (`ofText?_of_mem`). The same comparison of spellings
shows that a fixed text with more behind it is no message (`ofText?_extended`).
-/

namespace CellModem

open CellModem.Field

/-! ## Announcements -/

/-- The codes by which a status is reported. That nothing is known
is not reported. -/
def SimStatus.codes : SimStatus → List String
  | .unknown => []
  | .ready => ["READY"]
  | .simPin => ["SIM PIN"]
  | .simPuk => ["SIM PUK"]
  | .simPin2 => ["SIM PIN2"]
  | .simPuk2 => ["SIM PUK2"]
  | .phoneSimPin => ["PH-SIM PIN"]
  | .notInserted => ["NOT INSERTED", "NOT READY"]

theorem SimStatus.ofCode?_of_mem {status : SimStatus} {code : String}
    (h : code ∈ status.codes) :
    ofCode? (Text.trim code) = some status := by
  have hall : (status.codes.all fun code =>
    ofCode? (Text.trim code) == some status) = true := by
    cases status <;> decide +kernel
  exact eq_of_beq (List.all_eq_true.1 hall code h)

namespace Urc

/-- A message as the modem writes it. -/
inductive Announcement where
  | ring
  /-- The caller's number, and what type of number it is. -/
  | callerId (number : Option PhoneNumber)
      (type : {s : String // Digits s.toList})
      (reportable : ∀ n ∈ number, n.Reportable)
  | callEnded
  /-- One of the codes of a status, with blanks around it. -/
  | simStatus (status : SimStatus) (code before after : String)
      (known : code ∈ status.codes)
      (blank_before : ∀ c ∈ before.toList, Text.isBlank c = true)
      (blank_after : ∀ c ∈ after.toList, Text.isBlank c = true)
  | registration (r : Registration.Report)
  | ready
  | poweredDown
  | indication (payload : String)

namespace Announcement

def text : Announcement → String
  | ring => "RING"
  | callerId number type reportable =>
    "+CLIP: " ++ (Row.bare [.party number reportable, .digits type]).text
  | callEnded => "NO CARRIER"
  | simStatus _ code before after _ _ _ =>
      "+CPIN: " ++ (before ++ (code ++ after))
  | registration r => r.message
  | ready => "RDY"
  | poweredDown => "POWERED DOWN"
  | indication payload => "+QIND: " ++ payload

/-- The message that is announced, with as much of the vendor's
text as is kept. -/
def urc : Announcement → Urc
  | ring => .ring
  | callerId number _ _ => .callerId number
  | callEnded => .callEnded
  | simStatus status _ _ _ _ _ _ => .simStatus status
  | registration r => .registration r.registration
  | ready => .ready
  | poweredDown => .poweredDown
  | indication payload => .indication (.ofString payload)

end Announcement

/-! ## Which recogniser knows a line -/

/-- It is enough that one recogniser knows a line; the others do not. -/
theorem ofText?_of_mem {r : String → Option Urc} (hr : r ∈ recognisers)
    {s : String} {urc : Urc} (h : r s = some urc) : ofText? s = some urc := by
  obtain ⟨before, after, hsplit⟩ := List.append_of_mem hr
  have hperm : (r :: (before ++ after)).Perm recognisers :=
    hsplit ▸ List.perm_middle.symm
  rw [← findSome?_of_perm hperm, List.findSome?_cons, h]

/-- A text that only whole lines consist of is no message with
more behind it. -/
theorem ofText?_extended {text : String}
    (h : ∀ p ∈ spelled.map Prod.fst, p = .whole text ∨
      (Spelling.lead text).apart p = true)
    {more : String} (hmore : more ≠ "") : ofText? (text ++ more) = none := by
  rw [ofText?, recognisers_eq, List.findSome?_eq_none_iff]
  intro r hr
  obtain ⟨x, hx, rfl⟩ := List.mem_map.1 hr
  have hlead : (Spelling.lead text).Fits (text ++ more) := by
    rw [Spelling.Fits, Text.bytes_append]
    exact List.prefix_append _ _
  cases hread : x.2 (text ++ more) with
  | none => rfl
  | some urc =>
      have hfits : x.1.Fits (text ++ more) := fits_of_mem hx (hread ▸ rfl)
      rcases h x.1 (List.mem_map_of_mem hx) with hwhole | hapart
      · rw [hwhole, Spelling.Fits, String.append_eq_left_iff] at hfits
        exact absurd hfits hmore
      · exact absurd hfits (Spelling.not_fits_of_apart hapart hlead)

example : ofText? "RINGING" = none := by decide +kernel

/-! ## Reading an announcement -/

namespace Announcement

theorem callerId?_text (number : Option PhoneNumber)
    (type : {s : String // Digits s.toList}) (h : ∀ n ∈ number, n.Reportable) :
    callerId? (callerId number type h).text = some (.callerId number) := by
  have hfields : Text.afterText? callerIdLead (callerId number type h).text =
      some (" " ++ (Row.bare [.party number h, .digits type]).text) :=
    Text.afterText?_eq_some_iff.2 (by rw [← String.append_assoc]; rfl)
  have hnumber : (callerNumber?
      (" " ++ (Row.bare [.party number h, .digits type]).text)).map .ofText =
        number := by
    rw [callerNumber?, at?_blank, at?_bare]
    exact value_party number h
  rw [callerId?, hfields, Option.map_some, hnumber]

/-- Each announcement is read as what it announces. -/
theorem ofText?_text (a : Announcement) : ofText? a.text = some a.urc := by
  cases a with
  | ring =>
      exact ofText?_of_mem (r := fixed? "RING" .ring)
        (by simp [recognisers]) rfl
  | callerId number type h =>
      exact ofText?_of_mem (r := callerId?) (by simp [recognisers])
        (callerId?_text number type h)
  | callEnded =>
      exact ofText?_of_mem (r := fixed? "NO CARRIER" .callEnded)
        (by simp [recognisers]) rfl
  | simStatus status code before after known hbefore hafter =>
      refine ofText?_of_mem (r := simStatus?) (by simp [recognisers]) ?_
      have hcode :
          Text.afterText? "+CPIN: " ("+CPIN: " ++ (before ++ (code ++ after))) =
          some (before ++ (code ++ after)) := Text.afterText?_eq_some_iff.2 rfl
      rw [text, urc, simStatus?, SimStatus.ofText?, hcode, Option.bind_some,
        Text.trim_blanks hbefore hafter, SimStatus.ofCode?_of_mem known,
        Option.map_some]
  | registration r =>
      refine ofText?_of_mem (r := registration?) (by simp [recognisers]) ?_
      rw [text, urc, registration?, r.ofText?_message, Option.map_some]
  | ready =>
      exact ofText?_of_mem (r := fixed? "RDY" .ready)
        (by simp [recognisers]) rfl
  | poweredDown =>
      exact ofText?_of_mem (r := fixed? "POWERED DOWN" .poweredDown)
        (by simp [recognisers]) rfl
  | indication payload =>
      refine ofText?_of_mem (r := indication?) (by simp [recognisers]) ?_
      have hpayload : Text.afterText? "+QIND: " ("+QIND: " ++ payload) =
          some payload :=
        Text.afterText?_eq_some_iff.2 rfl
      rw [text, urc, indication?, hpayload, Option.map_some]

end Announcement

/-- Every announcement is read as its message, of which a vendor's text is kept
as far as there is space for. A fixed text is no message with more behind it,
and neither is a line that is not text. -/
theorem announcements_read_back :
    (∀ a : Announcement, (readLine (.ofText a.text)).value = some a.urc) ∧
    (∀ payload : String, Text.Longest 64 payload.toList
      (BoundedText.ofString payload : BoundedText 64).text.toList) ∧
    (∀ text ∈ ["RING", "NO CARRIER", "RDY", "POWERED DOWN"], ∀ more ≠ "",
      (readLine (.ofText (text ++ more))).value = none) ∧
    (∀ l : Line, l.text? = none → (readLine l).value = none) := by
  refine ⟨?_, Text.longest_ofString, ?_, ?_⟩
  · intro a
    rw [value_readLine, ofLine?, Line.text?_ofText, Option.bind_some,
      a.ofText?_text]
  · intro text htext more hmore
    have hall : ∀ text ∈ ["RING", "NO CARRIER", "RDY", "POWERED DOWN"],
        ∀ p ∈ spelled.map Prod.fst, p = .whole text ∨
        (Spelling.lead text).apart p = true := by
      decide +kernel
    rw [value_readLine, ofLine?, Line.text?_ofText, Option.bind_some,
      ofText?_extended (hall text htext) hmore]
  · intro l hl
    rw [value_readLine, ofLine?, hl, Option.bind_none]

end Urc

end CellModem
