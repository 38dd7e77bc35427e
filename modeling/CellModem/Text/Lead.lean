/-!
# What follows a known beginning

Most lines of a modem are told apart by how they begin. `after?` gives the rest
of a list behind a given beginning; `afterText?` does so for texts.
-/

namespace CellModem.Text

/-- The rest of the list behind `lead`, if it begins with `lead`. -/
def after? {α : Type} [DecidableEq α] : List α → List α → Option (List α)
  | [], s => some s
  | _ :: _, [] => none
  | l :: lead, c :: s => if l = c then after? lead s else none

theorem after?_eq_some_iff {α : Type} [DecidableEq α] {lead s r : List α} :
    after? lead s = some r ↔ s = lead ++ r := by
  fun_induction after? lead s with
  | case1 s => simp
  | case2 => simp
  | case3 l lead s ih => simp [ih]
  | case4 l lead c s h => simp [Ne.symm h]

/-- The rest of the text behind `lead`, if it begins with `lead`. -/
def afterText? (lead s : String) : Option String :=
  (after? lead.toList s.toList).map String.ofList

theorem afterText?_eq_some_iff {lead s r : String} :
    afterText? lead s = some r ↔ s = lead ++ r := by
  simp only [afterText?, Option.map_eq_some_iff, after?_eq_some_iff]
  constructor
  · rintro ⟨r', h, rfl⟩
    rw [← String.toList_inj, String.toList_append, String.toList_ofList, h]
  · rintro rfl
    exact ⟨r.toList, by rw [String.toList_append], String.ofList_toList⟩

end CellModem.Text
