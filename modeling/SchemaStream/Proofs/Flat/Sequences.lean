import SchemaStream.Proofs.Flat.FirstLeaves

/-!
# Objects that read back as arrays

A flat form does not tell an array from an object whose names are the indices below its size.
So rebuilding a value from its flat form turns every such object within it into an array, and
leaves the rest of the value as it was.
-/

namespace SchemaStream

namespace Members

variable {α : Type} {members : Members α}

/-- Members named by the indices below their number, in any order. -/
def Indexed (members : Members α) : Prop :=
  members ≠ [] ∧ (keys members).Perm ((List.range members.length).map FlatKey.ofIndex)

instance (members : Members α) : Decidable members.Indexed := inferInstanceAs (Decidable (_ ∧ _))

/-- The values of members in the order of the indices that name them. -/
def byIndex (members : Members α) : List α :=
  (List.range members.length).filterMap fun index => get? members (FlatKey.ofIndex index)

end Members

namespace Json

mutual

/-- A value with an array in the place of each object named by indices, inner ones first. -/
def sequenced : Json → Json
  | .array items => .array (sequencedItems items)
  | .object members =>
      let members := sequencedMembers members
      if Members.Indexed members then .array (Members.byIndex members) else .object members
  | leaf => leaf

def sequencedItems : List Json → List Json
  | [] => []
  | item :: rest => sequenced item :: sequencedItems rest

def sequencedMembers : List (String × Json) → List (String × Json)
  | [] => []
  | (name, value) :: rest => (name, sequenced value) :: sequencedMembers rest

end

/-- What stands within a value, at any depth, the value itself included. -/
inductive Within : Json → Json → Prop
  | self {value : Json} : Within value value
  | part {value inner : Json} {part : String × Json} (mem : part ∈ value.parts)
      (below : Within part.2 inner) : Within value inner

variable {value : Json} {items : List Json} {members : Members Json}

theorem sequencedItems_eq_map (items : List Json) : sequencedItems items = items.map sequenced := by
  induction items with
  | nil => rfl
  | cons item rest ih => rw [sequencedItems, ih, List.map_cons]

theorem sequencedMembers_eq_mapValues (members : List (String × Json)) :
    sequencedMembers members = Members.mapValues sequenced members := by
  induction members with
  | nil => rfl
  | cons member rest ih => rw [sequencedMembers, ih]; rfl

theorem mapValues_parts_array (f : Json → Json) (items : List Json) :
    Members.mapValues f (array items).parts = (array (items.map f)).parts := by
  rw [parts, parts, Members.mapValues, List.map_map, List.zipIdx_map, List.map_map]
  rfl

end Json

/-! ## The sequences that are recovered -/

namespace FlatTree

variable {members : Members Json} {items : List Json}

theorem map_eq_of_isSome {α β : Type} {f : α → Option β} {list : List α}
    (each : ∀ value ∈ list, (f value).isSome = true) :
    list.map f = (list.filterMap f).map some := by
  induction list with
  | nil => rfl
  | cons value rest ih =>
      rw [List.forall_mem_cons] at each
      obtain ⟨result, found⟩ := Option.isSome_iff_exists.1 each.1
      rw [List.map_cons, List.filterMap_cons_some found, List.map_cons, found, ih each.2]

theorem sequence?_eq_some_iff :
    sequence? members = some items ↔ members.Indexed ∧ members.byIndex = items := by
  constructor
  · intro recovered
    have nonempty : members ≠ [] := by
      rintro rfl
      cases recovered
    refine ⟨⟨nonempty, (perm_keys_of_sequence? recovered).symm⟩, ?_⟩
    have held := congrArg (List.filterMap id) (map_get?_of_sequence?_eq_some recovered)
    simpa [List.filterMap_map, Members.byIndex, Function.comp_def] using held
  · rintro ⟨⟨nonempty, names⟩, rfl⟩
    rw [sequence?, if_neg (by simpa using nonempty)]
    refine mapM_eq_some_of_map_eq (map_eq_of_isSome fun index mem => ?_)
    exact Members.has_iff_mem_keys.2 (names.mem_iff.2 (List.mem_map_of_mem mem))

theorem ofMembers_eq (members : Members Json) :
    ofMembers members =
      if members.Indexed then .array members.byIndex else .object members := by
  rw [ofMembers]
  split
  · next items recovered =>
      obtain ⟨indexed, rfl⟩ := sequence?_eq_some_iff.1 recovered
      rw [if_pos indexed]
  · next none =>
      rw [if_neg]
      intro indexed
      rw [sequence?_eq_some_iff.2 ⟨indexed, rfl⟩] at none
      cases none

end FlatTree

namespace Json

variable {value : Json}

theorem sequenced_of_bare (bare : value.parts = []) : value.sequenced = value := by
  match value with
  | .null | .bool _ | .number _ | .string _ | .array [] | .object [] => rfl
  | .array (_ :: _) | .object (_ :: _) => exact absurd bare (by simp [parts])

theorem sequenced_of_parts (some : value.parts ≠ []) :
    value.sequenced = FlatTree.ofMembers (Members.mapValues sequenced value.parts) := by
  cases value with
  | null | bool | number | string => exact absurd rfl some
  | array items =>
      have nonempty : items.map sequenced ≠ [] := by
        rw [ne_eq, List.map_eq_nil_iff]
        rintro rfl
        exact some rfl
      rw [sequenced, sequencedItems_eq_map, mapValues_parts_array,
        FlatTree.ofMembers_parts_array nonempty]
  | object members =>
      rw [sequenced, sequencedMembers_eq_mapValues, parts, FlatTree.ofMembers_eq]

end Json

/-! ## Writing all leaves -/

namespace FlatTree

variable {members : Members Json} {children : Members FlatTree} {value : Json}

/-- The leaves of some members make one new child for each member. -/
theorem writeLeaves_memberPaths
    (names : (Members.keys children ++ Members.keys members).Nodup) :
    (branch children).writeLeaves (Json.memberPaths members) =
      branch (children ++
        Members.mapValues (fun value => (branch []).writeLeaves value.pathLeaves) members) := by
  induction members generalizing children with
  | nil => simp [Json.memberPaths, writeLeaves, Members.mapValues]
  | cons member rest ih =>
      obtain ⟨name, value⟩ := member
      have fresh : name ∉ Members.keys children := by
        intro mem
        exact (List.nodup_append.1 names).2.2 _ mem _ List.mem_cons_self rfl
      rw [Json.memberPaths, writeLeaves_append,
        writeLeaves_fresh fresh (Json.pathLeaves_ne_nil value), ih (by simpa [Members.keys] using
          names)]
      simp [Members.mapValues]

/-- The tree of all leaves of a value has the value with its sequences recovered. -/
theorem value_writeLeaves_pathLeaves (distinct : value.distinct = true) :
    ((branch []).writeLeaves value.pathLeaves).value = value.sequenced := by
  induction value using Json.inductParts with
  | step value ih =>
      by_cases bare : value.parts = []
      · rw [Json.pathLeaves_of_bare bare, Json.sequenced_of_bare bare]
        rfl
      · obtain ⟨names, inside⟩ := Json.distinct_parts distinct
        have values : Members.mapValues FlatTree.value (Members.mapValues
            (fun value => (branch []).writeLeaves value.pathLeaves) value.parts) =
              Members.mapValues Json.sequenced value.parts := by
          rw [Members.mapValues, Members.mapValues, List.map_map]
          refine List.map_congr_left fun part mem => ?_
          exact congrArg (Prod.mk part.1) (ih part mem (inside part mem))
        rw [Json.pathLeaves_of_parts bare,
          writeLeaves_memberPaths (by simpa [Members.keys] using names),
          List.nil_append, FlatTree.value, childValues_eq_mapValues, values,
          Json.sequenced_of_parts bare]

end FlatTree

namespace Json

variable {value : Json}

/-! ## What stays as it is -/

theorem eq_of_mapValues_eq {f : Json → Json} {members : Members Json}
    (same : Members.mapValues f members = members) : ∀ member ∈ members, f member.2 = member.2 := by
  intro member mem
  have each := List.map_inj_left.1 (same.trans (List.map_id members).symm) member mem
  exact congrArg Prod.snd each

/-- A value that keeps its sequences keeps those of its parts. -/
theorem sequenced_part (same : value.sequenced = value) :
    ∀ part ∈ value.parts, part.2.sequenced = part.2 := by
  cases value with
  | null | bool | number | string => exact nofun
  | array items =>
      rw [sequenced, sequencedItems_eq_map, Json.array.injEq] at same
      refine eq_of_mapValues_eq ?_
      rw [mapValues_parts_array, same]
  | object members =>
      rw [sequenced, sequencedMembers_eq_mapValues] at same
      split at same
      · cases same
      · exact eq_of_mapValues_eq (Json.object.inj same)

theorem sequenced_object_ne {members : Members Json} (indexed : members.Indexed) :
    (object members).sequenced ≠ object members := by
  intro same
  have inside : Members.mapValues sequenced members = members := by
    refine (List.map_congr_left fun member mem => ?_).trans (List.map_id members)
    exact congrArg (Prod.mk member.1) (sequenced_part same member mem)
  rw [sequenced, sequencedMembers_eq_mapValues, inside, if_pos indexed] at same
  cases same

/-- Only objects named by indices are changed. -/
theorem sequenced_eq_self_iff :
    value.sequenced = value ↔
      ∀ members, value.Within (.object members) → ¬ Members.Indexed members := by
  constructor
  · intro same members within indexed
    generalize h : object members = inner at within
    induction within with
    | self => exact sequenced_object_ne indexed (h ▸ same)
    | part mem below ih => exact ih (sequenced_part same _ mem) h
  · intro none
    induction value using inductParts with
    | step value ih =>
        by_cases bare : value.parts = []
        · exact sequenced_of_bare bare
        · have inside : Members.mapValues sequenced value.parts = value.parts := by
            refine (List.map_congr_left fun part mem => ?_).trans (List.map_id value.parts)
            exact congrArg (Prod.mk part.1)
              (ih part mem fun members below => none members (.part mem below))
          rw [sequenced_of_parts bare, inside]
          cases value with
          | null | bool | number | string => exact absurd rfl bare
          | array items =>
              refine FlatTree.ofMembers_parts_array ?_
              rintro rfl
              exact bare rfl
          | object members =>
              rw [parts, FlatTree.ofMembers_eq, if_neg (none members .self)]

/-! ## Flattening and rebuilding -/

theorem unflatten_flatten_of_bare (bare : value.parts = []) (filled : value ≠ .array []) :
    unflatten value.flatten = value := by
  match value with
  | .null | .bool _ | .number _ | .string _ | .object [] => rfl
  | .array [] => exact absurd rfl filled
  | .array (_ :: _) | .object (_ :: _) => exact absurd bare (by simp [parts])

theorem unflatten_flatten_eq_sequenced (distinct : value.distinct = true)
    (single : ∀ name ∈ value.names, FlatKey.Single name) (filled : value ≠ .array []) :
    unflatten value.flatten = value.sequenced := by
  by_cases bare : value.parts = []
  · rw [unflatten_flatten_of_bare bare filled, sequenced_of_bare bare]
  · have paths : routed value.flatten = value.pathLeaves := routed_flatten single distinct bare
    have named : ∀ path ∈ (routed value.flatten).map Prod.fst, path.head? ≠ some "" := by
      intro path mem empty
      rw [paths, pathLeaves_of_parts bare] at mem
      obtain ⟨name, own, head⟩ := exists_head?_of_mem_memberPaths mem
      obtain ⟨part, within, rfl⟩ := List.mem_map.1 own
      rw [empty, Option.some.injEq] at head
      exact part_ne_empty single part within head.symm
    rw [unflatten_eq_value_of_routed named, FlatTree.ofFlat_eq_writeLeaves, paths,
      FlatTree.value_writeLeaves_pathLeaves distinct]

/-- Rebuilding a value from its flat form turns the objects named by indices into arrays, inner
ones first, and changes nothing else: it gives the value back exactly when there are none. -/
theorem unflatten_flatten (distinct : value.distinct = true)
    (single : ∀ name ∈ value.names, FlatKey.Single name) (filled : value ≠ .array []) :
    unflatten value.flatten = value.sequenced ∧
      (unflatten value.flatten = value ↔
        ∀ members, value.Within (.object members) → ¬ Members.Indexed members) := by
  have rebuilt : unflatten value.flatten = value.sequenced :=
    unflatten_flatten_eq_sequenced distinct single filled
  refine ⟨rebuilt, ?_⟩
  rw [rebuilt]
  exact sequenced_eq_self_iff

/-- Rows under their numbers, out of order, beside names that only look like numbers. -/
def numberedRows : Json :=
  .object [
    ("rows", .object [("1", .object []), ("0", .object [("0", .array [])])]),
    ("01", .object [("2", .bool true), ("0", .null)])]

theorem unflatten_flatten_numberedRows :
    unflatten numberedRows.flatten =
        .object [("rows", .array [.array [.array []], .object []]),
          ("01", .object [("2", .bool true), ("0", .null)])] ∧
      unflatten numberedRows.flatten ≠ numberedRows := by
  have single : ∀ name ∈ numberedRows.names, FlatKey.Single name := by decide
  obtain ⟨rebuilt, same⟩ := @unflatten_flatten numberedRows (by decide) single nofun
  have rows : numberedRows.Within
      (.object [("1", .object []), ("0", .object [("0", .array [])])]) :=
    .part List.mem_cons_self .self
  refine ⟨rebuilt.trans (by decide), fun kept => same.1 kept _ rows (by decide)⟩

end Json

end SchemaStream
