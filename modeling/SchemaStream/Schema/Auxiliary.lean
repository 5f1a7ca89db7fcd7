import SchemaStream.Json.Basic
import SchemaStream.Text.Affix

/-!
# Auxiliary fields

A field may be accompanied by a field for the reasoning behind its value and by one for a
quote that supports it.  Their names begin in one of two ways, by which they are known and
taken out again.
-/

namespace SchemaStream

namespace Auxiliary

def reasoningStart : String := "reasoning___"

def sourceStart : String := "source___"

def reasoningField (name : String) : String := reasoningStart ++ name

def sourceField (name : String) : String := sourceStart ++ name

def isAuxiliary (name : String) : Bool :=
  Text.begins reasoningStart name || Text.begins sourceStart name

mutual

/-- A value without its auxiliary members, at every depth. -/
def filter : Json → Json
  | .array items => .array (filterItems items)
  | .object members => .object (filterMembers members)
  | scalar => scalar

def filterItems : List Json → List Json
  | [] => []
  | item :: items => filter item :: filterItems items

def filterMembers : List (String × Json) → List (String × Json)
  | [] => []
  | (name, value) :: rest =>
      if isAuxiliary name then filterMembers rest else (name, filter value) :: filterMembers rest

end

theorem filterItems_eq_map (items : List Json) : filterItems items = items.map filter := by
  induction items with
  | nil => rfl
  | cons item items ih => rw [filterItems, ih, List.map_cons]

theorem filterMembers_eq_mapValues (members : List (String × Json)) :
    filterMembers members =
      Members.mapValues filter (members.filter fun member => !isAuxiliary member.1) := by
  induction members with
  | nil => rfl
  | cons member rest ih =>
      obtain ⟨name, value⟩ := member
      rw [filterMembers, ih, List.filter_cons]
      by_cases h : isAuxiliary name <;> simp [h, Members.mapValues]

end Auxiliary

end SchemaStream
