import SchemaStream.Json.Basic
import SchemaStream.Proofs.Json.Reordering

/-!
# Values up to the order of members
-/

namespace SchemaStream

namespace Json

/-- The same value but for the order of the members of objects, at any depth. -/
inductive Rearranged : Json → Json → Prop
  | refl (value : Json) : Rearranged value value
  | array {items others : List Json} (each : List.Forall₂ Rearranged items others) :
      Rearranged (.array items) (.array others)
  | object {members middle others : Members Json}
      (names : Members.keys members = Members.keys middle)
      (values : List.Forall₂ Rearranged (members.map Prod.snd) (middle.map Prod.snd))
      (perm : middle.Perm others) : Rearranged (.object members) (.object others)

variable {members others : Members Json} {value other : Json} {name : String}

/-- Objects are the same up to order if the one lists the members of the other, with values
that are, in its own order. -/
theorem rearranged_object_iff :
    Rearranged (.object members) (.object others) ↔
      ∃ middle : Members Json, List.Forall₂
        (fun member other => member.1 = other.1 ∧ Rearranged member.2 other.2) members middle ∧
          middle.Perm others := by
  constructor
  · intro h
    cases h with
    | refl =>
        refine ⟨members, List.forall₂_same.2 fun member _ => ?_, .refl members⟩
        exact ⟨rfl, .refl member.2⟩
    | object names values perm => exact ⟨_, Members.forall₂_iff.2 ⟨names, values⟩, perm⟩
  · rintro ⟨middle, same, perm⟩
    obtain ⟨names, values⟩ := Members.forall₂_iff.1 same
    exact .object names values perm

theorem Rearranged.keys_perm (h : Rearranged (.object members) (.object others)) :
    (Members.keys members).Perm (Members.keys others) := by
  obtain ⟨middle, same, perm⟩ := rearranged_object_iff.1 h
  rw [(Members.forall₂_iff.1 same).1]
  exact perm.map Prod.fst

theorem Rearranged.rel_get? (h : Rearranged (.object members) (.object others))
    (distinct : (Members.keys members).Nodup) (name : String) :
    Option.Rel Rearranged (Members.get? members name) (Members.get? others name) := by
  obtain ⟨middle, same, perm⟩ := rearranged_object_iff.1 h
  have distinct' : (Members.keys middle).Nodup := (Members.forall₂_iff.1 same).1 ▸ distinct
  have reordered : Members.Reordered middle others := ⟨distinct', perm⟩
  rw [← reordered.get?_eq name]
  exact Members.rel_get? same name

/-- Putting in the same name keeps objects the same up to order. -/
theorem Rearranged.insert (h : Rearranged (.object members) (.object others))
    (distinct : (Members.keys members).Nodup) (name : String) (h' : Rearranged value other) :
    Rearranged (.object (Members.insert members name value))
      (.object (Members.insert others name other)) := by
  obtain ⟨middle, same, perm⟩ := rearranged_object_iff.1 h
  have distinct' : (Members.keys middle).Nodup := (Members.forall₂_iff.1 same).1 ▸ distinct
  have added : Members.Reordered [(name, other)] [(name, other)] := .refl (by simp [Members.keys])
  have reordered : Members.Reordered middle others := ⟨distinct', perm⟩
  have put : Members.Reordered (Members.insert middle name other)
      (Members.insert others name other) := reordered.insertAll added
  exact rearranged_object_iff.2 ⟨_, Members.forall₂_insert same h', put.perm⟩

end Json

end SchemaStream
