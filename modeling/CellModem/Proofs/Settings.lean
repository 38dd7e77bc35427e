import CellModem.Proofs.Fields
import CellModem.Proofs.Truncation
import CellModem.Response.Accept

/-!
# A setting that comes back

A setting is reported in the form in which it is made: the name in quotes, a
comma, and the value as it is. So the line that reports what a command has
set is read as the very name and value of the command, provided that both
have been sent whole.

But only the name is looked for with an eye to quotes. The value is what stands
behind the first comma of the line, and if the name has a comma in it, that is
not the comma behind the name. The value then begins in the middle of the name
(`setting_read_back_iff`).
-/

namespace CellModem

open Text

/-! ## Where the two readings end -/

theorem Field.at?_zero_quoted {content : String}
    (h : '"' ∉ content.toList) (rest : List Char) :
    Field.at? 0 (String.ofList ('"' :: (content.toList ++ '"' :: rest))) =
      some content := by
  rw [Field.at?, Token.ofText, String.toList_ofList, Token.scan_quoted h,
    String.ofList_toList]
  rfl

namespace ConfigValue

theorem behindComma_ofList {before after : List Char} (h : ',' ∉ before) :
    behindComma (String.ofList (before ++ ',' :: after)) =
      String.ofList after := by
  have hbefore : ∀ c ∈ before, (c != ',') = true := fun c hc =>
    bne_iff_ne.2 (ne_of_mem_of_not_mem hc h)
  have hstop : ∀ c ∈ (',' :: after).head?, (c != ',') = false := by simp
  rw [behindComma, String.toList_ofList, dropWhile_append_of_stop hbefore hstop]
  rfl

/-- The line that reports what a command sets, if it sets anything. -/
def reportOf? (command : String) : Option String :=
  (Text.afterText? Command.config command).map (lead ++ ·)

/-- What stands behind the equals sign of a command that sets a value. -/
def assignment (name value : String) : String :=
  String.ofList ('"' :: (name.toList ++ '"' :: ',' :: value.toList))

variable {name value : String}

theorem encode_setConfig
    (hfits : size (Command.joined (Request.setConfig name value).pieces) ≤
      Command.limit) :
    (Request.setConfig name value).encode.value.text =
      Command.config ++ assignment name value := by
  have hquote : "\"".toList = ['"'] := rfl
  have hclose : "\",".toList = ['"', ','] := rfl
  rw [← String.toList_inj, Request.encode, Command.toList_ofPieces,
    Command.entered_eq_joined_iff.2 hfits]
  simp [Command.joined, Request.pieces, assignment, hquote, hclose]

theorem size_value_le
    (hfits : size (Command.joined (Request.setConfig name value).pieces) ≤
      Command.limit) :
    11 + name.utf8ByteSize + value.utf8ByteSize ≤ 256 := by
  have hlead : size Command.config.toList = 8 := rfl
  have hquote : size "\"".toList = 1 := rfl
  have hclose : size "\",".toList = 2 := rfl
  have hlimit : Command.limit = 256 := rfl
  simp only [Request.pieces, Command.joined_cons, size_append, hlead, hquote,
    hclose, size_toList, hlimit] at hfits
  have hnil : size (Command.joined []) = 0 := rfl
  omega

theorem ofText?_assignment (hquote : '"' ∉ name.toList) :
    ofText? (lead ++ assignment name value) =
      some ⟨.ofString name,
        .ofString (behindComma (assignment name value))⟩ := by
  have hrest : afterText? lead (lead ++ assignment name value) =
      some (assignment name value) :=
    afterText?_eq_some_iff.2 rfl
  have hname : Field.at? 0 (assignment name value) = some name :=
    Field.at?_zero_quoted hquote _
  rw [ofText?, parts?, hrest, Option.bind_eq_bind, Option.bind_some, hname]
  rfl

theorem behindComma_assignment (hcomma : ',' ∉ name.toList) :
    behindComma (assignment name value) = value := by
  have hbefore : ',' ∉ '"' :: (name.toList ++ ['"']) := by simp [hcomma]
  have hsplit : assignment name value =
      String.ofList ('"' :: (name.toList ++ ['"']) ++ ',' :: value.toList) := by
    simp [assignment]
  rw [hsplit, behindComma_ofList hbefore, String.ofList_toList]

/-- With a comma in the name, the value begins behind that comma. -/
theorem behindComma_assignment_of_comma {front back : List Char}
    (hname : name.toList = front ++ ',' :: back) (hfront : ',' ∉ front) :
    behindComma (assignment name value) =
      String.ofList (back ++ '"' :: ',' :: value.toList) := by
  have hbefore : ',' ∉ '"' :: front := by simp [hfront]
  have hsplit : assignment name value =
      String.ofList
      ('"' :: front ++ ',' :: (back ++ '"' :: ',' :: value.toList)) := by
    simp [assignment, hname]
  rw [hsplit, behindComma_ofList hbefore]

theorem size_behindComma_le (s : String) :
    (behindComma s).utf8ByteSize ≤ s.utf8ByteSize := by
  have hsuffix : (s.toList.dropWhile (· != ',')).drop 1 <:+ s.toList :=
    (List.drop_suffix 1 _).trans (List.dropWhile_suffix _)
  obtain ⟨front, hfront⟩ := hsuffix
  have hsize := congrArg size hfront
  rw [size_append, size_toList] at hsize
  rw [behindComma, utf8ByteSize_ofList]
  omega

theorem size_assignment (name value : String) :
    (assignment name value).utf8ByteSize =
      3 + name.utf8ByteSize + value.utf8ByteSize := by
  have hquote : '"'.utf8Size = 1 := rfl
  have hcomma : ','.utf8Size = 1 := rfl
  rw [assignment, utf8ByteSize_ofList]
  simp only [size, size_append, size_toList, hquote, hcomma]
  omega

/-- If a name of at most 32 bytes without a quote is set to a value, and the
command is not cut, the line that reports it is taken by any response of its
kind. The name is then the one that was set, and the value is just if there is
no comma in the name; else the rest of the name is read with the value, from
behind its first comma. -/
theorem setting_read_back_iff (hname : name.utf8ByteSize ≤ 32)
    (hquote : '"' ∉ name.toList)
    (hfits : size (Command.joined (Request.setConfig name value).pieces) ≤
      Command.limit) (prior : ConfigValue) :
    ∃ line setting,
      reportOf? (Request.setConfig name value).encode.value.text = some line ∧
      ((Response.config prior).accept (.ofText line)).value =
        some (.config setting) ∧
      setting.name.text = name ∧
      (setting.values.text = value ↔ ',' ∉ name.toList) ∧
      ∀ front back, name.toList = front ++ ',' :: back → ',' ∉ front →
        setting.values.text.toList = back ++ '"' :: ',' :: value.toList := by
  have hcommand := encode_setConfig hfits
  have hline : reportOf? (Request.setConfig name value).encode.value.text =
      some (lead ++ assignment name value) := by
    rw [reportOf?, afterText?_eq_some_iff.2 hcommand, Option.map_some]
  have hvalues : (BoundedText.ofString (behindComma (assignment name value)) :
      BoundedText 256).text = behindComma (assignment name value) := by
    refine BoundedText.text_ofString ?_
    have hsize := size_value_le hfits
    have hle := size_behindComma_le (assignment name value)
    rw [size_assignment] at hle
    omega
  have hsplit : ∀ front back, name.toList = front ++ ',' :: back → ',' ∉ front →
      (behindComma (assignment name value)).toList =
      back ++ '"' :: ',' :: value.toList := by
    intro front back hcomma hfront
    rw [behindComma_assignment_of_comma hcomma hfront, String.toList_ofList]
  refine ⟨_, ⟨.ofString name, .ofString (behindComma (assignment name value))⟩,
    hline, ?_, BoundedText.text_ofString hname, ?_, ?_⟩
  · rw [Response.value_accept_config, ofText?_assignment hquote,
      Option.map_some]
  · rw [hvalues]
    refine ⟨fun hvalue hcomma => ?_, behindComma_assignment⟩
    -- What is read with the value makes it longer.
    obtain ⟨front, back, hnameSplit, hfront⟩ :=
      List.eq_append_cons_of_mem hcomma
    have hlen := congrArg List.length (hsplit front back hnameSplit hfront)
    rw [hvalue, List.length_append, List.length_cons, List.length_cons] at hlen
    omega
  · rw [hvalues]
    exact hsplit

/-- A list of bands, of which the commas are all in the value. -/
theorem bands_read_back :
    let value := "0x260,0x42000000000000381a,0x0"
    "band".utf8ByteSize ≤ 32 ∧ '"' ∉ "band".toList ∧
      size (Command.joined (Request.setConfig "band" value).pieces) ≤
        Command.limit ∧
      ∃ line setting,
        reportOf? (Request.setConfig "band" value).encode.value.text =
          some line ∧
        ((Response.config .empty).accept (.ofText line)).value =
          some (.config setting) ∧
        setting.name.text = "band" ∧ setting.values.text = value := by
  intro value
  have hname : "band".utf8ByteSize ≤ 32 := by decide
  have hquote : '"' ∉ "band".toList := by decide
  have hfits : size (Command.joined (Request.setConfig "band" value).pieces) ≤
      Command.limit := by
    decide
  obtain ⟨line, setting, hline, haccept, hread, hvalue, _⟩ :=
    setting_read_back_iff hname hquote hfits .empty
  exact ⟨hname, hquote, hfits, line, setting, hline, haccept, hread,
    hvalue.2 (by decide)⟩

/-- The name `a,b` is set to `1`, and of the report the value is
read as `b",1`. -/
theorem comma_in_name_read_with_value :
    let command := (Request.setConfig "a,b" "1").encode.value.text
    let setting : ConfigValue := ⟨.ofString "a,b", .ofString "b\",1"⟩
    "a,b".utf8ByteSize ≤ 32 ∧ '"' ∉ "a,b".toList ∧
      size (Command.joined (Request.setConfig "a,b" "1").pieces) ≤
        Command.limit ∧
      reportOf? command = some "+QCFG: \"a,b\",1" ∧
      ((Response.config .empty).accept (.ofText "+QCFG: \"a,b\",1")).value =
        some (.config setting) ∧
      setting.values.text ≠ "1" := by
  intro command setting
  have hreport : reportOf? command = some "+QCFG: \"a,b\",1" := by
    decide +kernel
  have haccept :
      ((Response.config .empty).accept (.ofText "+QCFG: \"a,b\",1")).value =
      some (.config setting) := by
    decide +kernel
  exact ⟨by decide, by decide, by decide, hreport, haccept, by decide +kernel⟩

end ConfigValue

end CellModem
