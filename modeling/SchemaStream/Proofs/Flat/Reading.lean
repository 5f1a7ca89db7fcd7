import SchemaStream.Flat.Unflatten
import Mathlib.Data.List.Nodup
import Mathlib.Data.List.Perm.Subperm

/-!
# Reading along a flat key

The segments of a flat key lead from a value down through the members of objects and the
items of arrays, which go by their indices.  Reading a rebuilt value is going down the
tree that it was rebuilt from: recovering a sequence moves nothing to another path.
-/

namespace SchemaStream

namespace FlatKey

theorem ofIndex_injective : Function.Injective ofIndex := by
  intro first second h
  have digits : Nat.toDigits 10 first = Nat.toDigits 10 second :=
    String.ofList_injective h
  rw [← Nat.ofDigitChars_ten_toDigits (n := first), digits, Nat.ofDigitChars_ten_toDigits]

theorem nodup_map_ofIndex (length : Nat) : ((List.range length).map ofIndex).Nodup :=
  List.nodup_range.map ofIndex_injective

end FlatKey

namespace Json

/-- What stands right below a value, by segment. -/
def parts : Json → Members Json
  | .object members => members
  | .array items => items.zipIdx.map fun item => (FlatKey.ofIndex item.2, item.1)
  | _ => []

def read? (value : Json) (path : List String) : Option Json :=
  match path with
  | [] => some value
  | segment :: rest => (Members.get? value.parts segment).bind fun part => part.read? rest

theorem keys_parts_array (items : List Json) :
    Members.keys (parts (.array items)) = (List.range items.length).map FlatKey.ofIndex := by
  rw [List.range_eq_range', ← List.zipIdx_map_snd 0 items, Members.keys, parts, List.map_map,
    List.map_map]
  rfl

theorem get?_parts_array (items : List Json) (index : Nat) :
    Members.get? (parts (.array items)) (FlatKey.ofIndex index) = items[index]? := by
  have distinct : (Members.keys (parts (.array items))).Nodup := by
    rw [keys_parts_array]
    exact FlatKey.nodup_map_ofIndex _
  cases h : items[index]? with
  | some item =>
      apply Members.get?_eq_some_of_mem distinct
      exact List.mem_map.2 ⟨(item, index), by simpa [List.mem_zipIdx_iff_getElem?] using h, rfl⟩
  | none =>
      rw [Members.get?_eq_none_iff, keys_parts_array]
      intro mem
      obtain ⟨other, inRange, same⟩ := List.mem_map.1 mem
      rw [FlatKey.ofIndex_injective same] at inRange
      simp only [List.mem_range, List.getElem?_eq_none_iff] at inRange h
      omega

end Json

namespace FlatTree

/-- The items of a recovered sequence are what the members held under the indices. -/
theorem map_get?_of_sequence?_eq_some {members : Members Json} {items : List Json}
    (h : sequence? members = some items) :
    ((List.range members.length).map fun index =>
      Members.get? members (FlatKey.ofIndex index)) = items.map some := by
  rw [sequence?] at h
  split at h
  · contradiction
  · generalize List.range members.length = indices at h ⊢
    induction indices generalizing items with
    | nil =>
        cases h
        rfl
    | cons index indices ih =>
        simp only [List.mapM_cons, Option.bind_eq_bind, Option.bind_eq_some_iff,
          Option.pure_def, Option.some.injEq] at h
        obtain ⟨item, first, rest, hrest, rfl⟩ := h
        rw [List.map_cons, List.map_cons, first, ih hrest]

section

variable {members : Members Json} {items : List Json} (recovered : sequence? members = some items)
include recovered

theorem length_of_sequence? : items.length = members.length := by
  simpa using (congrArg List.length (map_get?_of_sequence?_eq_some recovered)).symm

theorem get?_ofIndex_of_sequence? {index : Nat} (inRange : index < members.length) :
    Members.get? members (FlatKey.ofIndex index) = items[index]? := by
  have held := congrArg (·[index]?) (map_get?_of_sequence?_eq_some recovered)
  simpa [inRange, length_of_sequence? recovered] using held

/-- As many distinct indices as there are names, so there is no other name. -/
theorem perm_keys_of_sequence? :
    ((List.range members.length).map FlatKey.ofIndex).Perm (Members.keys members) := by
  have inside : (List.range members.length).map FlatKey.ofIndex ⊆ Members.keys members := by
    intro key mem
    obtain ⟨index, inRange, rfl⟩ := List.mem_map.1 mem
    rw [List.mem_range] at inRange
    rw [← Members.has_iff_mem_keys, Members.has, get?_ofIndex_of_sequence? recovered inRange]
    simpa [length_of_sequence? recovered] using inRange
  exact (List.subperm_of_subset (FlatKey.nodup_map_ofIndex _) inside).perm_of_length_le
    (by simp [Members.keys])

end

/-- A recovered sequence holds under each segment what its members held. -/
theorem get?_parts_ofMembers (members : Members Json) (segment : String) :
    Members.get? (ofMembers members).parts segment = Members.get? members segment := by
  rw [ofMembers]
  split
  · next items recovered =>
      have all := perm_keys_of_sequence? recovered
      by_cases mem : segment ∈ Members.keys members
      · obtain ⟨index, inRange, rfl⟩ := List.mem_map.1 (all.mem_iff.2 mem)
        rw [Json.get?_parts_array,
          get?_ofIndex_of_sequence? recovered (List.mem_range.1 inRange)]
      · rw [Members.get?_eq_none_iff.2 mem, Members.get?_eq_none_iff, Json.keys_parts_array,
          length_of_sequence? recovered]
        exact fun index => mem (all.mem_iff.1 index)
  · rfl

def at? (tree : FlatTree) (path : List String) : Option FlatTree :=
  match path with
  | [] => some tree
  | segment :: rest => (Members.get? tree.children segment).bind fun child => child.at? rest

/-- Going down a tree is reading its value. -/
theorem read?_value {tree found : FlatTree} {path : List String} (h : tree.at? path = some found) :
    tree.value.read? path = some found.value := by
  induction path generalizing tree with
  | nil =>
      cases h
      rfl
  | cons segment rest ih =>
      rw [at?, Option.bind_eq_some_iff] at h
      obtain ⟨child, held, below⟩ := h
      cases tree with
      | leaf value => simp [children, Members.get?] at held
      | branch children =>
          rw [FlatTree.children] at held
          rw [Json.read?, value, childValues_eq_mapValues, get?_parts_ofMembers,
            Members.get?_mapValues, held]
          exact ih below

end FlatTree

end SchemaStream
