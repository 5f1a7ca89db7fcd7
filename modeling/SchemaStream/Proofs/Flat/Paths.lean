import SchemaStream.Proofs.Flat.Writing
import SchemaStream.Proofs.Json.Distinct
import SchemaStream.Proofs.Json.Names

/-!
# Leaves by path

The leaves of a nested value under the segments that lead to them.  Where the names within the
value are non-empty and have no points, the flat key of a leaf spells its path; so the leaves
have different keys, and flattening keeps them all in their order.
-/

namespace SchemaStream

namespace FlatKey

/-- A name that is one segment of a flat key. -/
structure Single (name : String) : Prop where
  nonempty : name ≠ ""
  pointless : separator ∉ name.toList

theorem single_iff {name : String} : Single name ↔ name ≠ "" ∧ separator ∉ name.toList :=
  ⟨fun single => ⟨single.nonempty, single.pointless⟩,
    fun ⟨nonempty, pointless⟩ => ⟨nonempty, pointless⟩⟩

instance : DecidablePred Single := fun _ => decidable_of_iff _ single_iff.symm

/-- A name that is one segment of a flat key, and not an index. -/
structure Plain (name : String) : Prop extends Single name where
  noIndex : index? name = none

theorem plain_iff {name : String} :
    Plain name ↔ name ≠ "" ∧ separator ∉ name.toList ∧ index? name = none :=
  ⟨fun plain => ⟨plain.nonempty, plain.pointless, plain.noIndex⟩,
    fun ⟨nonempty, pointless, noIndex⟩ => ⟨⟨nonempty, pointless⟩, noIndex⟩⟩

instance : DecidablePred Plain := fun _ => decidable_of_iff _ plain_iff.symm

theorem splitChars_eq_singleton {chars : List Char} (pointless : separator ∉ chars) :
    splitChars chars = [chars] := by
  induction chars with
  | nil => rfl
  | cons c rest ih =>
      rw [List.mem_cons, not_or] at pointless
      rw [splitChars, if_neg (Ne.symm pointless.1), ih pointless.2]

theorem splitChars_append_cons (front back : List Char) :
    splitChars (front ++ separator :: back) = splitChars front ++ splitChars back := by
  induction front with
  | nil =>
      rw [List.nil_append, splitChars.eq_2, if_pos rfl]
      rfl
  | cons c rest ih =>
      rw [List.cons_append, splitChars, splitChars, ih]
      split
      · rfl
      · cases h : splitChars rest with
        | nil => exact absurd h (splitChars_ne_nil rest)
        | cons segment segments => rfl

theorem segments_eq_singleton {name : String} (pointless : separator ∉ name.toList) :
    segments name = [name] := by
  rw [segments, splitChars_eq_singleton pointless, List.map_singleton, String.ofList_toList]

theorem single_ofIndex (index : Nat) : Single (ofIndex index) := by
  constructor
  · intro empty
    have chars := congrArg String.toList empty
    rw [ofIndex, String.toList_ofList] at chars
    exact Nat.toDigits_ne_nil chars
  · rw [ofIndex, String.toList_ofList]
    intro mem
    have digit := Nat.isDigit_of_mem_toDigits (by decide) (by decide) mem
    exact absurd digit (by decide)

/-- The segments that a parent key puts before a name. -/
def base (key : String) : List String := if key = "" then [] else segments key

theorem segments_join {key name : String} (pointless : separator ∉ name.toList) :
    segments (join key name) = base key ++ [name] := by
  rw [join, base]
  split
  · exact segments_eq_singleton pointless
  · rw [segments, String.toList_append, String.toList_append, String.toList_singleton,
      List.append_assoc, List.singleton_append, splitChars_append_cons, List.map_append,
      splitChars_eq_singleton pointless, List.map_singleton, String.ofList_toList, segments]

theorem join_ne_empty {key name : String} (named : key ≠ "" ∨ name ≠ "") : join key name ≠ "" := by
  rw [join]
  split
  · next bare => exact named.resolve_left (not_not_intro bare)
  · intro empty
    have chars := congrArg String.toList empty
    simp at chars

end FlatKey

namespace Json

/-- To show something of every value, show it of a value from what stands right below it. -/
theorem inductParts {motive : Json → Prop}
    (step : ∀ value, (∀ part ∈ value.parts, motive part.2) → motive value) (value : Json) :
    motive value := by
  induction value with
  | null | bool | number | string => exact step _ nofun
  | array items ih =>
      refine step _ fun part mem => ?_
      obtain ⟨item, within, rfl⟩ := List.mem_map.1 mem
      exact ih item.1 (List.fst_mem_of_mem_zipIdx within)
  | object members ih => exact step _ ih

/-! ## Leaves under paths -/

/-- Leaves moved below a path. -/
def beneath (front : List String) (leaves : List (List String × Json)) :
    List (List String × Json) :=
  leaves.map fun leaf => (front ++ leaf.1, leaf.2)

mutual

def pathLeaves : Json → List (List String × Json)
  | .array (item :: items) => itemPaths 0 (item :: items)
  | .object (member :: members) => memberPaths (member :: members)
  | leaf => [([], leaf)]

def itemPaths (index : Nat) : List Json → List (List String × Json)
  | [] => []
  | item :: rest => beneath [FlatKey.ofIndex index] (pathLeaves item) ++ itemPaths (index + 1) rest

def memberPaths : List (String × Json) → List (List String × Json)
  | [] => []
  | (name, value) :: rest => beneath [name] (pathLeaves value) ++ memberPaths rest

end

variable {value : Json} {key : String}

theorem itemPaths_eq_memberPaths (index : Nat) (items : List Json) :
    itemPaths index items =
      memberPaths ((items.zipIdx index).map fun item => (FlatKey.ofIndex item.2, item.1)) := by
  induction items generalizing index with
  | nil => rfl
  | cons item rest ih => rw [itemPaths, ih, List.zipIdx_cons, List.map_cons, memberPaths]

theorem memberPaths_eq_flatMap (members : List (String × Json)) :
    memberPaths members = members.flatMap fun member => beneath [member.1] member.2.pathLeaves := by
  induction members with
  | nil => rfl
  | cons member rest ih => rw [memberPaths, ih, List.flatMap_cons]

theorem pathLeaves_of_bare (bare : value.parts = []) : value.pathLeaves = [([], value)] := by
  match value with
  | .null | .bool _ | .number _ | .string _ | .array [] | .object [] => rfl
  | .array (_ :: _) | .object (_ :: _) => exact absurd bare (by simp [parts])

theorem pathLeaves_of_parts (some : value.parts ≠ []) :
    value.pathLeaves = memberPaths value.parts := by
  match value with
  | .null | .bool _ | .number _ | .string _ | .array [] | .object [] => exact absurd rfl some
  | .array (item :: items) => rw [pathLeaves, itemPaths_eq_memberPaths, parts]
  | .object (member :: members) => rfl

theorem pathLeaves_ne_nil (value : Json) : value.pathLeaves ≠ [] := by
  induction value using inductParts with
  | step value ih =>
      cases h : value.parts with
      | nil => simp [pathLeaves_of_bare h]
      | cons part rest =>
          have first : part.2.pathLeaves ≠ [] := ih part (by simp [h])
          rw [pathLeaves_of_parts (by simp [h]), h, memberPaths]
          simp [beneath, first]

/-! ## Names on the way -/

theorem forall_mem_keys_parts {P : String → Prop} (names : ∀ name ∈ value.names, P name)
    (index : ∀ index, P (FlatKey.ofIndex index)) : ∀ part ∈ value.parts, P part.1 := by
  intro part mem
  cases value with
  | null | bool | number | string => exact absurd mem List.not_mem_nil
  | array items =>
      obtain ⟨item, -, rfl⟩ := List.mem_map.1 mem
      exact index item.2
  | object members =>
      exact (forall_mem_names_object_iff.1 names).1 _ (List.mem_map.2 ⟨part, mem, rfl⟩)

theorem names_parts {P : String → Prop} (names : ∀ name ∈ value.names, P name) :
    ∀ part ∈ value.parts, ∀ name ∈ part.2.names, P name := by
  intro part mem
  cases value with
  | null | bool | number | string => exact absurd mem List.not_mem_nil
  | array items =>
      obtain ⟨item, within, rfl⟩ := List.mem_map.1 mem
      exact forall_mem_names_array_iff.1 names item.1 (List.fst_mem_of_mem_zipIdx within)
  | object members => exact (forall_mem_names_object_iff.1 names).2 part mem

theorem distinct_parts (distinct : value.distinct = true) :
    (Members.keys value.parts).Nodup ∧ ∀ part ∈ value.parts, part.2.distinct = true := by
  cases value with
  | null | bool | number | string => exact ⟨List.nodup_nil, nofun⟩
  | array items =>
      rw [keys_parts_array]
      refine ⟨FlatKey.nodup_map_ofIndex _, fun part mem => ?_⟩
      obtain ⟨item, within, rfl⟩ := List.mem_map.1 mem
      exact distinct_array_iff.1 distinct item.1 (List.fst_mem_of_mem_zipIdx within)
  | object members => exact distinct_object_iff.1 distinct

/-! ## Flat keys and paths -/

theorem leaves_of_bare (bare : value.parts = []) (nonempty : key ≠ "") :
    leaves key value = [(key, value)] := by
  match value with
  | .null | .bool _ | .number _ | .string _ => rfl
  | .array [] | .object [] => rw [leaves, if_neg nonempty]
  | .array (_ :: _) | .object (_ :: _) => exact absurd bare (by simp [parts])

theorem leaves_of_parts (some : value.parts ≠ []) :
    leaves key value =
      value.parts.flatMap fun part => leaves (FlatKey.join key part.1) part.2 := by
  match value with
  | .null | .bool _ | .number _ | .string _ | .array [] | .object [] => exact absurd rfl some
  | .array (item :: items) =>
      rw [leaves, itemLeaves_eq_flatMap, parts, List.flatMap_map]
  | .object (member :: members) => rw [leaves, memberLeaves_eq_flatMap, parts]

/-- The flat keys of leaves, taken apart. -/
def routed (flat : List (String × Json)) : List (List String × Json) :=
  flat.map fun entry => (FlatKey.segments entry.1, entry.2)

theorem beneath_beneath (front back : List String) (leaves : List (List String × Json)) :
    beneath front (beneath back leaves) = beneath (front ++ back) leaves := by
  simp [beneath]

/-- A flat key spells the path to its leaf.  Right below the root no name may be empty, as it
would not show in the key. -/
theorem routed_leaves (pointless : ∀ name ∈ value.names, FlatKey.separator ∉ name.toList)
    (placed : key ≠ "" ∨ value.parts ≠ [] ∧ ∀ part ∈ value.parts, part.1 ≠ "") :
    routed (leaves key value) = beneath (FlatKey.base key) value.pathLeaves := by
  induction value using inductParts generalizing key with
  | step value ih =>
      by_cases bare : value.parts = []
      · have nonempty : key ≠ "" := placed.resolve_right fun both => both.1 bare
        rw [leaves_of_bare bare nonempty, pathLeaves_of_bare bare]
        simp [routed, beneath, FlatKey.base, nonempty]
      · rw [leaves_of_parts bare, pathLeaves_of_parts bare, memberPaths_eq_flatMap, routed, beneath,
          List.map_flatMap, List.map_flatMap]
        refine List.flatMap_congr fun part mem => ?_
        have own := forall_mem_keys_parts pointless
          (fun index => (FlatKey.single_ofIndex index).pointless) part mem
        have nonempty : FlatKey.join key part.1 ≠ "" :=
          FlatKey.join_ne_empty (placed.imp_right fun both => both.2 part mem)
        have step := ih part mem (names_parts pointless part mem) (.inl nonempty)
        rw [FlatKey.base, if_neg nonempty, FlatKey.segments_join own, ← beneath_beneath] at step
        exact step

theorem head?_of_mem_beneath {name : String} {leaves : List (List String × Json)}
    {path : List String} (mem : path ∈ (beneath [name] leaves).map Prod.fst) :
    path.head? = some name := by
  rw [beneath, List.map_map, List.mem_map] at mem
  obtain ⟨leaf, -, rfl⟩ := mem
  rfl

/-- No two leaves stand at one path. -/
theorem nodup_pathLeaves (distinct : value.distinct = true) :
    (value.pathLeaves.map Prod.fst).Nodup := by
  induction value using inductParts with
  | step value ih =>
      by_cases bare : value.parts = []
      · rw [pathLeaves_of_bare bare]
        exact List.nodup_singleton _
      · obtain ⟨names, parts⟩ := distinct_parts distinct
        rw [pathLeaves_of_parts bare, memberPaths_eq_flatMap, List.map_flatMap, List.nodup_flatMap]
        refine ⟨fun part mem => ?_, ?_⟩
        · have step := (ih part mem (parts part mem)).map (List.cons_injective (a := part.1))
          simpa [beneath, Function.comp_def] using step
        · refine (List.pairwise_map.1 names).imp fun differ path left right => differ ?_
          have same := (head?_of_mem_beneath left).symm.trans (head?_of_mem_beneath right)
          exact Option.some.inj same

/-- Flattening a container whose names have no points keeps every leaf, in order. -/
theorem routed_flatten_of_pointless
    (pointless : ∀ name ∈ value.names, FlatKey.separator ∉ name.toList)
    (named : ∀ part ∈ value.parts, part.1 ≠ "") (distinct : value.distinct = true)
    (some : value.parts ≠ []) : routed value.flatten = value.pathLeaves := by
  have paths : routed (leaves "" value) = value.pathLeaves := by
    rw [routed_leaves pointless (.inr ⟨some, named⟩), FlatKey.base, if_pos rfl]
    simp [beneath]
  have names : (Members.keys (leaves "" value)).Nodup := by
    have nodup := nodup_pathLeaves distinct
    rw [← paths, routed, List.map_map] at nodup
    refine List.Nodup.of_map FlatKey.segments ?_
    rwa [Members.keys, List.map_map]
  have whole : value.flatten = leaves "" value := Members.ofList_eq_self names
  rw [whole, paths]

theorem part_ne_empty (single : ∀ name ∈ value.names, FlatKey.Single name) :
    ∀ part ∈ value.parts, part.1 ≠ "" :=
  forall_mem_keys_parts (fun name mem => (single name mem).nonempty)
    fun index => (FlatKey.single_ofIndex index).nonempty

theorem routed_flatten (single : ∀ name ∈ value.names, FlatKey.Single name)
    (distinct : value.distinct = true) (some : value.parts ≠ []) :
    routed value.flatten = value.pathLeaves :=
  routed_flatten_of_pointless (fun name mem => (single name mem).pointless)
    (part_ne_empty single) distinct some

end Json

end SchemaStream
