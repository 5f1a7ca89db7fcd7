import Mathlib.Data.List.Forall2
import SchemaStream.Json.Basic

/-!
# Values that lose members of one name

What may be left of a value when some of its objects, at any depth, lose the member of a name.
-/

namespace SchemaStream

namespace Members

variable {α : Type} {R : α → α → Prop} {name key : String} {members others more rest : Members α}
  {value left : α}

/-- Some members of the name are gone.  The others are there in their order, with values in a
relation. -/
inductive Sheds (name : String) (R : α → α → Prop) : Members α → Members α → Prop
  | nil : Sheds name R [] []
  | kept {key : String} {value left : α} {members others : Members α} (own : R value left)
      (rest : Sheds name R members others) :
      Sheds name R ((key, value) :: members) ((key, left) :: others)
  | lost {value : α} {members others : Members α} (rest : Sheds name R members others) :
      Sheds name R ((name, value) :: members) others

namespace Sheds

theorem of_forall₂
    (same : List.Forall₂ (fun member other => member.1 = other.1 ∧ R member.2 other.2)
      members others) : Sheds name R members others := by
  induction same with
  | nil => exact .nil
  | @cons member other _ _ both _ ih =>
      obtain ⟨key, value⟩ := member
      obtain ⟨_, left⟩ := other
      obtain ⟨rfl, own⟩ := both
      exact .kept own ih

theorem refl (own : ∀ value, R value value) (members : Members α) : Sheds name R members members :=
  of_forall₂ (List.forall₂_same.2 fun member _ => ⟨rfl, own member.2⟩)

theorem append (front : Sheds name R members others) (back : Sheds name R more rest) :
    Sheds name R (members ++ more) (others ++ rest) := by
  induction front with
  | nil => exact back
  | kept own _ ih => exact .kept own ih
  | lost _ ih => exact .lost ih

theorem erase (own : ∀ value, R value value) (members : Members α) :
    Sheds name R members (members.erase name) := by
  induction members with
  | nil => exact .nil
  | cons member members ih =>
      obtain ⟨key, value⟩ := member
      rw [Members.erase] at ih ⊢
      rw [List.filter_cons]
      by_cases same : key = name
      · subst same
        simpa using Sheds.lost ih
      · simpa [same] using Sheds.kept (own value) ih

theorem insert (inside : Sheds name R members others) (ne : name ≠ key) (own : R value left) :
    Sheds name R (members.insert key value) (others.insert key left) := by
  induction inside with
  | nil => exact .kept own .nil
  | @kept other _ _ _ _ below rest ih =>
      rw [Members.insert, Members.insert]
      by_cases same : other = key
      · rw [if_pos same, if_pos same]
        exact .kept own rest
      · rw [if_neg same, if_neg same]
        exact .kept below ih
  | lost rest ih =>
      rw [Members.insert, if_neg ne]
      exact .lost ih

end Sheds

end Members

namespace Json

/-- Some objects may have lost their members of the name, and nothing else is changed. -/
inductive Sheds (name : String) : Json → Json → Prop
  | refl (value : Json) : Sheds name value value
  | array {items others : List Json} (each : List.Forall₂ (Sheds name) items others) :
      Sheds name (.array items) (.array others)
  | object {members others : Members Json}
      (inside : Members.Sheds name (Sheds name) members others) :
      Sheds name (.object members) (.object others)

theorem sheds_object_iff {name : String} {members others : Members Json} :
    Sheds name (.object members) (.object others) ↔
      Members.Sheds name (Sheds name) members others := by
  constructor
  · intro sheds
    cases sheds with
    | refl => exact .refl .refl members
    | object inside => exact inside
  · exact .object

end Json

end SchemaStream
