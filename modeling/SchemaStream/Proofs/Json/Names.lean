import SchemaStream.Json.Basic
import Mathlib.Data.List.Basic

/-!
# Names within a value

The names that the objects within a value give their members, at every depth.
-/

namespace SchemaStream

namespace Json

mutual

def names : Json → List String
  | .array items => itemNames items
  | .object members => memberNames members
  | _ => []

def itemNames : List Json → List String
  | [] => []
  | item :: rest => names item ++ itemNames rest

def memberNames : List (String × Json) → List String
  | [] => []
  | (name, value) :: rest => name :: names value ++ memberNames rest

end

variable {name : String} {items : List Json} {members : List (String × Json)}

theorem mem_names_array_iff : name ∈ (array items).names ↔ ∃ item ∈ items, name ∈ item.names := by
  rw [names]
  induction items with
  | nil => simp [itemNames]
  | cons item rest ih => simp [itemNames, ih]

theorem mem_names_object_iff :
    name ∈ (object members).names ↔
      name ∈ Members.keys members ∨ ∃ member ∈ members, name ∈ member.2.names := by
  rw [names, Members.keys]
  induction members with
  | nil => simp [memberNames]
  | cons member rest ih =>
      simp only [memberNames, List.cons_append, List.mem_cons, List.mem_append, ih, List.map_cons,
        exists_eq_or_imp]
      tauto

theorem forall_mem_names_array_iff {P : String → Prop} :
    (∀ name ∈ (array items).names, P name) ↔
      ∀ item ∈ items, ∀ name ∈ item.names, P name := by
  simp only [mem_names_array_iff]
  exact ⟨fun every item mem name below => every name ⟨item, mem, below⟩,
    fun every name ⟨item, mem, below⟩ => every item mem name below⟩

theorem forall_mem_names_object_iff {P : String → Prop} :
    (∀ name ∈ (object members).names, P name) ↔
      (∀ name ∈ Members.keys members, P name) ∧
        ∀ member ∈ members, ∀ name ∈ member.2.names, P name := by
  simp only [mem_names_object_iff]
  constructor
  · intro every
    exact ⟨fun name mem => every name (.inl mem),
      fun member mem name below => every name (.inr ⟨member, mem, below⟩)⟩
  · rintro ⟨own, inside⟩ name (mem | ⟨member, mem, below⟩)
    · exact own name mem
    · exact inside member mem name below

end Json

end SchemaStream
