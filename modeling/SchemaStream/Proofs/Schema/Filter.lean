import SchemaStream.Proofs.Json.Distinct
import SchemaStream.Proofs.Json.Names
import SchemaStream.Schema.Auxiliary
import Mathlib.Data.List.Perm.Subperm

/-!
# Filtered values

Filtering leaves alone what has no auxiliary names in it, and every member that has another
name.  Two values that are the same have the same names, if no name is repeated in one of them.
-/

namespace SchemaStream

namespace Json

variable {value member : Json} {items others : List Json} {name : String}

theorem exists_of_sameItems (same : sameItems items others = true) (mem : value ∈ others) :
    ∃ item ∈ items, item.same value = true := by
  induction items generalizing others with
  | nil =>
      cases others with
      | nil => exact absurd mem List.not_mem_nil
      | cons other rest => cases same
  | cons item rest ih =>
      cases others with
      | nil => exact absurd mem List.not_mem_nil
      | cons other more =>
          rw [sameItems, Bool.and_eq_true] at same
          rcases List.mem_cons.1 mem with rfl | mem
          · exact ⟨item, List.mem_cons_self, same.1⟩
          · obtain ⟨item, below, related⟩ := ih same.2 mem
            exact ⟨item, List.mem_cons_of_mem _ below, related⟩

theorem sameMembers_iff {members others : Members Json} :
    sameMembers members others = true ↔
      ∀ member ∈ members, ∃ other, Members.get? others member.1 = some other ∧
        member.2.same other = true := by
  induction members with
  | nil => simp [sameMembers]
  | cons member rest ih =>
      obtain ⟨name, value⟩ := member
      rw [sameMembers, Bool.and_eq_true, ih, List.forall_mem_cons]
      refine and_congr_left fun _ => ?_
      cases Members.get? others name <;> simp

/-- Where the names of one object do not repeat, an object of the same size that has them all has
no others, and has none twice. -/
theorem perm_keys_of_sameMembers {members others : Members Json}
    (distinct : (Members.keys members).Nodup) (length : members.length = others.length)
    (same : sameMembers members others = true) :
    (Members.keys members).Perm (Members.keys others) := by
  have inside : Members.keys members ⊆ Members.keys others := by
    intro name mem
    obtain ⟨member, below, rfl⟩ := List.mem_map.1 mem
    obtain ⟨other, found, -⟩ := sameMembers_iff.1 same member below
    exact Members.mem_keys_iff_exists_get?.2 ⟨other, found⟩
  refine (List.subperm_of_subset distinct inside).perm_of_length_le ?_
  simp [Members.keys, length]

theorem mem_names_of_same (distinct : member.distinct = true) (same : member.same value = true)
    (mem : name ∈ value.names) : name ∈ member.names := by
  induction member generalizing value with
  | array items ih =>
      cases value with
      | array others =>
          rw [Json.same] at same
          rw [mem_names_array_iff] at mem ⊢
          obtain ⟨other, below, mem⟩ := mem
          obtain ⟨item, within, related⟩ := exists_of_sameItems same below
          have own := distinct_array_iff.1 distinct item within
          exact ⟨item, within, ih item within own related mem⟩
      | _ => cases same
  | object members ih =>
      cases value with
      | object others =>
          rw [Json.same, Bool.and_eq_true, beq_iff_eq] at same
          obtain ⟨own, inside⟩ := distinct_object_iff.1 distinct
          have keys := perm_keys_of_sameMembers own same.1 same.2
          rw [mem_names_object_iff] at mem ⊢
          rcases mem with mem | ⟨other, below, mem⟩
          · exact .inl (keys.mem_iff.2 mem)
          · -- The member is below a name that both objects have.
            have named : other.1 ∈ Members.keys members :=
              keys.mem_iff.2 (List.mem_map.2 ⟨other, below, rfl⟩)
            obtain ⟨entry, within, name⟩ := List.mem_map.1 named
            obtain ⟨found, held, related⟩ := sameMembers_iff.1 same.2 entry within
            rw [name, Members.get?_eq_some_of_mem (keys.nodup_iff.1 own) below] at held
            cases held
            exact .inr ⟨entry, within, ih entry within (inside entry within) related mem⟩
      | _ => cases same
  | null | bool | number | string =>
      cases value with
      | array | object => cases same
      | _ => exact absurd mem List.not_mem_nil

end Json

namespace Auxiliary

variable {value : Json} {name : String}

theorem filter_eq_null_iff : filter value = .null ↔ value = .null := by
  cases value <;> simp [filter]

theorem filter_eq_self (plain : ∀ name ∈ value.names, isAuxiliary name = false) :
    filter value = value := by
  induction value with
  | null | bool | number | string => rfl
  | array items ih =>
      have inside := Json.forall_mem_names_array_iff.1 plain
      have each : items.map filter = items.map id :=
        List.map_congr_left fun item mem => ih item mem (inside item mem)
      rw [filter, filterItems_eq_map, each, List.map_id]
  | object members ih =>
      obtain ⟨own, inside⟩ := Json.forall_mem_names_object_iff.1 plain
      have all : (members.filter fun member => !isAuxiliary member.1) = members :=
        List.filter_eq_self.2 fun member mem => by
          rw [own member.1 (List.mem_map.2 ⟨member, mem, rfl⟩)]
          rfl
      have each : Members.mapValues filter members = members.map id :=
        List.map_congr_left fun member mem => Prod.ext rfl (ih member mem (inside member mem))
      rw [filter, filterMembers_eq_mapValues, all, each, List.map_id]

theorem get?_filterMembers (members : Members Json) (plain : isAuxiliary name = false) :
    Members.get? (filterMembers members) name = (Members.get? members name).map filter := by
  induction members with
  | nil => rfl
  | cons member rest ih =>
      obtain ⟨key, value⟩ := member
      rw [filterMembers, Members.get?]
      by_cases own : key = name
      · subst own
        simp [plain, Members.get?]
      · rw [if_neg own]
        split
        · exact ih
        · rw [Members.get?, if_neg own, ih]

end Auxiliary

end SchemaStream
