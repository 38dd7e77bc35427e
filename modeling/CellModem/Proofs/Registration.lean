import CellModem.Proofs.Fields
import CellModem.Proofs.Numerals
import CellModem.Response.Accept

/-!
# One registration, two reports

The modem reports where it stands with the network as a message of its own
accord and as the reply to a question. The reply has one field more, in front,
and is told from the message by the number of commas alone. That works as long
as no reply has as many fields as a message.

A message has one field, or three with a place, or four if the access technology
comes with it; so a reply has two, four or five. Four fields are taken for a
message, and a reply with a place and no technology is read one field too early:
the setting in front as the status, the status as the area, and the area as the
cell. All other reports are read as what they report
(`registration_read_back_iff`).
-/

namespace CellModem.Registration

open CellModem.Field

/-! ## Reports -/

/-- The number by which a status is reported. -/
def Status.code : Status → Nat
  | .notRegistered => 0
  | .registeredHome => 1
  | .searching => 2
  | .registrationDenied => 3
  | .unknown => 4
  | .registeredRoaming => 5

theorem Status.code_lt (s : Status) : s.code < 10 := by cases s <;> decide

/-- An area and a cell as hexadecimal numerals, and the number of the access
technology, which not every modem adds. -/
structure Place where
  area : UInt16
  cell : UInt32
  areaText : String
  cellText : String
  access? : Option {s : String // Digits s.toList}
  writes_area : Text.Writes 16 areaText.toList area.toNat
  writes_cell : Text.Writes 16 cellText.toList cell.toNat

/-- What is reported. -/
structure Report where
  status : Status
  place? : Option Place

/-- The registration that the report is about. -/
def Report.registration (r : Report) : Registration :=
  ⟨r.status, r.place?.map (·.area), r.place?.map (·.cell)⟩

theorem digits_digitChar {d : Nat} (h : d < 10) :
    Digits (String.singleton d.digitChar).toList := by
  have hall : ∀ d < 10, d.digitChar.isDigit = true := by decide
  simp [Digits, hall d h]

/-- A number of one digit. -/
def digit (d : Nat) (h : d < 10) : Content :=
  .number (String.singleton d.digitChar) (digits_digitChar h).decimal

/-- A hexadecimal number in quotes. -/
def hexadecimal {n : Nat} (s : String) (h : Text.Writes 16 s.toList n) :
    Content :=
  .quoted s (h.not_mem (Nat.le_refl 16) rfl)

def Place.contents (p : Place) : List Content :=
  [hexadecimal p.areaText p.writes_area,
    hexadecimal p.cellText p.writes_cell] ++ p.access?.toList.map fun s =>
      .number s.1 s.2.decimal

def Report.contents (r : Report) : List Content :=
  digit r.status.code r.status.code_lt :: r.place?.elim [] Place.contents

/-- The message by which the modem reports of its own accord. -/
def Report.message (r : Report) : String :=
  "+CREG: " ++ (Row.bare r.contents).text

/-- The reply to a question, in which the setting of the
messages comes first. -/
def Report.reply (r : Report) (setting : Fin 3) : String :=
  "+CREG: " ++ (Row.bare (digit setting (by omega) :: r.contents)).text

/-! ## Reading fields -/

theorem comma_not_mem_digit {d : Nat} (h : d < 10) :
    ',' ∉ (digit d h).written :=
  comma_not_mem_number _

theorem comma_not_mem_hexadecimal {n : Nat} {s : String}
    (h : Text.Writes 16 s.toList n) : ',' ∉ (hexadecimal s h).written := by
  have hs : ',' ∉ s.toList := h.not_mem (Nat.le_refl 16) rfl
  simp [hexadecimal, Content.written, hs]

theorem Report.comma_not_mem (r : Report) :
    ∀ x ∈ r.contents, ',' ∉ x.written := by
  intro x hx
  rcases List.mem_cons.1 hx with rfl | hx
  · exact comma_not_mem_digit _
  · cases hplace : r.place? with
    | none =>
        rw [hplace] at hx
        cases hx
    | some p =>
        rw [hplace] at hx
        rcases List.mem_append.1 hx with hx | hx
        · simp only [List.mem_cons, List.not_mem_nil, or_false] at hx
          rcases hx with rfl | rfl
          · exact comma_not_mem_hexadecimal _
          · exact comma_not_mem_hexadecimal _
        · obtain ⟨s, _, rfl⟩ := List.mem_map.1 hx
          exact comma_not_mem_number _

theorem unsigned?_digit {radix bits d : Nat} (hten : 10 ≤ radix)
    (hradix : radix ≤ 16) (hbits : 10 ≤ 1 <<< bits) (h : d < 10) :
    Text.unsigned? radix bits (String.singleton d.digitChar) = some d := by
  refine Text.unsigned?_of_writes hradix ?_ (Nat.lt_of_lt_of_le h hbits)
  rw [String.toList_singleton]
  exact .digit ⟨Nat.lt_of_lt_of_le h hten, Or.inl rfl⟩

/-- What is read of a report, from the position on at which its number of fields
says the status to be. -/
theorem ofText?_bare {xs : List Content} (hcomma : ∀ x ∈ xs, ',' ∉ x.written)
    {position code : Nat}
    (hposition : statusPosition? (xs.length - 1) = some position)
    (hcode : (xs[position]?.bind (·.value?)).bind
      (Text.unsigned? 10 8) = some code) :
    ofText? ("+CREG: " ++ (Row.bare xs).text) = some ⟨.ofCode code,
      ((xs[position + 1]?.bind (·.value?)).bind
        (Text.unsigned? 16 16)).map UInt16.ofNat,
      ((xs[position + 2]?.bind (·.value?)).bind (Text.unsigned? 16 32)).map
        UInt32.ofNat⟩ := by
  have hfields : Text.afterText? "+CREG: " ("+CREG: " ++ (Row.bare xs).text) =
      some (Row.bare xs).text := Text.afterText?_eq_some_iff.2 rfl
  simp only [ofText?, hfields, count_comma_bare hcomma, hposition, ofFields?,
    at?_bare, hcode, Option.bind_eq_bind, Option.bind_some]
  rfl

theorem Status.ofCode_code (s : Status) : Status.ofCode s.code = s := by
  cases s <;> rfl

theorem Status.code_ofCode {n : Nat} (h : n < 6) :
    (Status.ofCode n).code = n := by
  have hall : ∀ n < 6, (Status.ofCode n).code = n := by decide
  exact hall n h

namespace Place

variable (p : Place)

theorem unsigned?_area : Text.unsigned? 16 16 p.areaText = some p.area.toNat :=
  Text.unsigned?_of_writes (Nat.le_refl 16) p.writes_area p.area.toNat_lt

theorem unsigned?_cell : Text.unsigned? 16 32 p.cellText = some p.cell.toNat :=
  Text.unsigned?_of_writes (Nat.le_refl 16) p.writes_cell p.cell.toNat_lt

/-- The numeral of an area is in range for a cell. -/
theorem unsigned?_area_as_cell :
    Text.unsigned? 16 32 p.areaText = some p.area.toNat :=
  Text.unsigned?_of_writes (Nat.le_refl 16) p.writes_area
    (Nat.lt_trans p.area.toNat_lt (by decide))

end Place

/-! ## Reading reports -/

namespace Report

variable (r : Report) (setting : Fin 3)

theorem value_area :
    r.contents[1]?.bind (·.value?) = r.place?.map (·.areaText) := by
  rw [contents]
  cases r.place? <;> rfl

theorem value_cell :
    r.contents[2]?.bind (·.value?) = r.place?.map (·.cellText) := by
  rw [contents]
  cases r.place? <;> rfl

theorem read_area :
    ((r.contents[1]?.bind (·.value?)).bind (Text.unsigned? 16 16)).map
      UInt16.ofNat = r.place?.map (·.area) := by
  rw [value_area]
  cases r.place? with
  | none => rfl
  | some p => simp [p.unsigned?_area]

theorem read_cell :
    ((r.contents[2]?.bind (·.value?)).bind (Text.unsigned? 16 32)).map
      UInt32.ofNat = r.place?.map (·.cell) := by
  rw [value_cell]
  cases r.place? with
  | none => rfl
  | some p => simp [p.unsigned?_cell]

theorem read_status :
    (r.contents[0]?.bind (·.value?)).bind (Text.unsigned? 10 8) =
      some r.status.code :=
  unsigned?_digit (Nat.le_refl 10) (by decide) (by decide) r.status.code_lt

theorem ofText?_message : ofText? r.message = some r.registration := by
  have hposition : statusPosition? (r.contents.length - 1) = some 0 := by
    rw [contents]
    cases r.place? with
    | none => rfl
    | some p =>
        rw [Option.elim_some, Place.contents]
        cases p.access? <;> rfl
  rw [message, ofText?_bare r.comma_not_mem hposition r.read_status,
    Status.ofCode_code, r.read_area, r.read_cell, registration]

theorem comma_not_mem_reply :
    ∀ x ∈ digit setting (by omega) :: r.contents, ',' ∉ x.written :=
  List.forall_mem_cons.2 ⟨comma_not_mem_digit _, r.comma_not_mem⟩

/-- A reply that does not look like a message says what the message says. -/
theorem ofText?_reply (h : ∀ p ∈ r.place?, p.access?.isSome = true) :
    ofText? (r.reply setting) = some r.registration := by
  have hposition :
      statusPosition? ((digit setting (by omega) :: r.contents).length - 1) =
      some 1 := by
    rw [contents]
    cases hplace : r.place? with
    | none => rfl
    | some p =>
        obtain ⟨s, hs⟩ := Option.isSome_iff_exists.1 (h p hplace)
        rw [Option.elim_some, Place.contents, hs]
        rfl
  rw [reply, ofText?_bare (r.comma_not_mem_reply setting) hposition
    r.read_status, Status.ofCode_code]
  simp only [List.getElem?_cons_succ, r.read_area, r.read_cell]
  rfl

/-- A reply of four fields is read one field too early. -/
theorem ofText?_reply_of_four {p : Place} (hplace : r.place? = some p)
    (haccess : p.access? = none) : ofText? (r.reply setting) =
      some ⟨.ofCode setting, some (.ofNat r.status.code),
        some p.area.toUInt32⟩ := by
  have hposition :
      statusPosition? ((digit setting (by omega) :: r.contents).length - 1) =
      some 0 := by
    rw [contents, hplace, Option.elim_some, Place.contents, haccess]
    rfl
  have hsetting :
      Text.unsigned? 10 8 (String.singleton (Nat.digitChar setting)) =
      some setting.val :=
    unsigned?_digit (Nat.le_refl 10) (by decide) (by decide) (by omega)
  have hstatus :
      Text.unsigned? 16 16 (String.singleton r.status.code.digitChar) =
      some r.status.code :=
    unsigned?_digit (by decide) (Nat.le_refl 16) (by decide) r.status.code_lt
  rw [reply, ofText?_bare (r.comma_not_mem_reply setting) hposition hsetting]
  have hfirst : r.contents[0]?.bind (·.value?) =
      some (String.singleton r.status.code.digitChar) :=
    rfl
  simp only [List.getElem?_cons_succ, hfirst, r.value_area, hplace,
    Option.map_some, Option.bind_some, hstatus, p.unsigned?_area_as_cell,
    UInt32.ofNat_uInt16ToNat]

/-- What is read one field too early is right where the numbers happen
to be the same. -/
theorem misread_eq_registration_iff {p : Place} (hplace : r.place? = some p) :
    (⟨.ofCode setting, some (.ofNat r.status.code), some p.area.toUInt32⟩ :
      Registration) =
        r.registration ↔
      setting.val = r.status.code ∧ p.area.toNat = r.status.code ∧
        p.cell.toNat = p.area.toNat := by
  have hstatus : Status.ofCode setting = r.status ↔
      setting.val = r.status.code := by
    constructor
    · intro h
      rw [← h, Status.code_ofCode (by omega)]
    · intro h
      rw [h, Status.ofCode_code]
  have harea : UInt16.ofNat r.status.code = p.area ↔
      p.area.toNat = r.status.code := by
    have hcode : r.status.code < 2 ^ 16 :=
      Nat.lt_trans r.status.code_lt (by decide)
    rw [← UInt16.toNat_inj, UInt16.toNat_ofNat_of_lt' hcode, eq_comm]
  have hcell : p.area.toUInt32 = p.cell ↔ p.cell.toNat = p.area.toNat := by
    rw [← UInt32.toNat_inj, UInt16.toNat_toUInt32, eq_comm]
  simp only [registration, hplace, Option.map_some, Registration.mk.injEq,
    Option.some.injEq, hstatus, harea, hcell]

end Report

/-- A message is read as the registration that it reports, and so is a reply,
except with a place and no access technology. Then the setting is taken for the
status, the status for the area and the area for the cell, and the registration
is right only where these happen to be the same. -/
theorem registration_read_back_iff (r : Report) (setting : Fin 3)
    (prior : Option Registration) :
    ofText? r.message = some r.registration ∧
    ∃ s : Registration,
      ((Response.registration prior).accept
          (.ofText (r.reply setting))).value = some (.registration (some s)) ∧
      (s = r.registration ↔ ∀ p ∈ r.place?, p.access? = none →
        setting.val = r.status.code ∧ p.area.toNat = r.status.code ∧
          p.cell.toNat = p.area.toNat) ∧
      ∀ p ∈ r.place?, p.access? = none →
        s.status.code = setting.val ∧
          s.area = some (UInt16.ofNat r.status.code) ∧
          s.cell = some p.area.toUInt32 := by
  refine ⟨r.ofText?_message, ?_⟩
  by_cases htold : ∀ p ∈ r.place?, p.access?.isSome = true
  · have hnone : ∀ p ∈ r.place?, p.access? ≠ none := fun p hp =>
      Option.isSome_iff_ne_none.1 (htold p hp)
    refine ⟨r.registration, ?_, ?_, fun p hp haccess =>
      absurd haccess (hnone p hp)⟩
    · rw [Response.value_accept_registration, r.ofText?_reply setting htold]
      rfl
    · exact ⟨fun _ p hp haccess => absurd haccess (hnone p hp), fun _ => rfl⟩
  · obtain ⟨p, hplace, haccess⟩ : ∃ p, r.place? = some p ∧
        p.access? = none := by
      cases hplace : r.place? with
      | none => simp [hplace] at htold
      | some p => exact ⟨p, rfl, by simpa [hplace] using htold⟩
    have honly : ∀ p' ∈ r.place?, p' = p := fun p' hp' =>
      Option.some.inj (hp'.symm.trans hplace)
    refine ⟨⟨.ofCode setting, some (.ofNat r.status.code),
      some p.area.toUInt32⟩, ?_, ?_, ?_⟩
    · rw [Response.value_accept_registration,
        r.ofText?_reply_of_four setting hplace haccess]
      rfl
    · rw [r.misread_eq_registration_iff setting hplace]
      constructor
      · intro h p' hp' _
        rwa [honly p' hp']
      · intro h
        exact h p hplace haccess
    · intro p' hp' _
      rw [honly p' hp']
      exact ⟨Status.code_ofCode (by omega), rfl, rfl⟩

/-- Numerals of four digits, for areas and cells as modems write them. -/
theorem writes_four {a b c d : Char} {i j k l : Nat} (ha : Text.IsDigit 16 a i)
    (hb : Text.IsDigit 16 b j) (hc : Text.IsDigit 16 c k)
    (hd : Text.IsDigit 16 d l) :
    Text.Writes 16 [a, b, c, d] (((i * 16 + j) * 16 + k) * 16 + l) :=
  .snoc (.snoc (.snoc (.digit ha) hb) hc) hd

/-- Area 28A0 and cell 2776, where the modem is registered at home. -/
def home : Report where
  status := .registeredHome
  place? := some
    { area := 0x28A0
      cell := 0x2776
      areaText := "28A0"
      cellText := "2776"
      access? := none
      writes_area := show Text.Writes 16 ['2', '8', 'A', '0'] _ from
        writes_four (i := 2) (j := 8) (k := 10) (l := 0) (by decide)
          (by decide) (by decide) (by decide)
      writes_cell := show Text.Writes 16 ['2', '7', '7', '6'] _ from
        writes_four (i := 2) (j := 7) (k := 7) (l := 6) (by decide)
          (by decide) (by decide) (by decide) }

/-- With the messages set to the longer form, a modem at home is taken for
one that searches. -/
theorem four_fields_read_too_early :
    home.reply 2 = "+CREG: 2,1,\"28A0\",\"2776\"" ∧
    home.registration = ⟨.registeredHome, some 10400, some 10102⟩ ∧
    ((Response.registration none).accept (.ofText (home.reply 2))).value =
      some (.registration (some ⟨.searching, some 1, some 10400⟩)) := by
  refine ⟨?_, rfl, ?_⟩
  · decide +kernel
  · decide +kernel

end CellModem.Registration
