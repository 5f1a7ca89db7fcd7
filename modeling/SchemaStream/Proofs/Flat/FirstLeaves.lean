import SchemaStream.Proofs.Flat.Paths

/-!
# The first leaves of a value

A value cut after some of its leaves holds what these leaves make known of it.  Its flat form
is a beginning of the flat form of the whole, so rebuilding a value from the beginnings of its
flat form runs through its cuts, and ends with the value itself.
-/

namespace SchemaStream

namespace Json

mutual

/-- A value without what comes after its first leaves. -/
def firstLeaves (count : Nat) : Json → Json
  | .array items => .array (firstItems count items)
  | .object members => .object (firstMembers count members)
  | leaf => leaf

def firstItems (count : Nat) : List Json → List Json
  | [] => []
  | item :: rest =>
      if count = 0 then []
      else firstLeaves count item :: firstItems (count - item.pathLeaves.length) rest

def firstMembers (count : Nat) : List (String × Json) → List (String × Json)
  | [] => []
  | (name, value) :: rest =>
      if count = 0 then []
      else (name, firstLeaves count value) :: firstMembers (count - value.pathLeaves.length) rest

end

variable {value item : Json} {items : List Json} {members : Members Json} {count : Nat}

/-! ## What is inside a cut -/

theorem mem_firstItems (mem : item ∈ firstItems count items) :
    ∃ left whole, whole ∈ items ∧ item = whole.firstLeaves left := by
  induction items generalizing count with
  | nil => exact absurd mem List.not_mem_nil
  | cons first rest ih =>
      rw [firstItems] at mem
      split at mem
      · exact absurd mem List.not_mem_nil
      · rcases List.mem_cons.1 mem with rfl | mem
        · exact ⟨count, first, List.mem_cons_self, rfl⟩
        · obtain ⟨left, whole, below, same⟩ := ih mem
          exact ⟨left, whole, List.mem_cons_of_mem _ below, same⟩

theorem get?_firstMembers {name : String} {part : Json}
    (found : Members.get? (firstMembers count members) name = some part) :
    ∃ left whole, Members.get? members name = some whole ∧ part = whole.firstLeaves left := by
  induction members generalizing count with
  | nil => cases found
  | cons member rest ih =>
      obtain ⟨key, value⟩ := member
      rw [firstMembers] at found
      split at found
      · cases found
      · rw [Members.get?] at found ⊢
        split at found
        · cases found
          exact ⟨count, value, by simp_all, rfl⟩
        · next other =>
            rw [if_neg other]
            exact ih found

theorem keys_firstMembers : Members.keys (firstMembers count members) <+: Members.keys members := by
  induction members generalizing count with
  | nil => exact List.prefix_rfl
  | cons member rest ih =>
      obtain ⟨name, value⟩ := member
      rw [firstMembers]
      split
      · exact List.nil_prefix
      · exact List.cons_prefix_cons.2 ⟨rfl, ih⟩

theorem firstItems_eq_firstMembers (index : Nat) (items : List Json) :
    ((firstItems count items).zipIdx index).map (fun item => (FlatKey.ofIndex item.2, item.1)) =
      firstMembers count
        ((items.zipIdx index).map fun item => (FlatKey.ofIndex item.2, item.1)) := by
  induction items generalizing index count with
  | nil => rfl
  | cons item rest ih =>
      rw [firstItems, List.zipIdx_cons, List.map_cons, firstMembers]
      split
      · rfl
      · rw [List.zipIdx_cons, List.map_cons, ih]

theorem parts_firstLeaves (count : Nat) (value : Json) :
    (value.firstLeaves count).parts = firstMembers count value.parts := by
  cases value with
  | null | bool | number | string => rfl
  | array items => exact firstItems_eq_firstMembers 0 items
  | object members => rfl

theorem firstLeaves_of_bare (bare : value.parts = []) : value.firstLeaves count = value := by
  match value with
  | .null | .bool _ | .number _ | .string _ | .array [] | .object [] => rfl
  | .array (_ :: _) | .object (_ :: _) => exact absurd bare (by simp [parts])

theorem firstMembers_eq_nil_iff (some : 0 < count) :
    firstMembers count members = [] ↔ members = [] := by
  cases members with
  | nil => simp [firstMembers]
  | cons member rest => simp [firstMembers, Nat.ne_of_gt some]

theorem firstLeaves_eq_self_of_parts (same : firstMembers count value.parts = value.parts) :
    value.firstLeaves count = value := by
  rw [← parts_firstLeaves] at same
  cases value with
  | null | bool | number | string => rfl
  | array items =>
      have values := congrArg (List.map Prod.snd) same
      simp only [firstLeaves, parts, List.map_map, Function.comp_def, List.zipIdx_map_fst] at values
      rw [firstLeaves, values]
  | object members => exact congrArg object same

theorem firstMembers_of_le
    (each : ∀ member ∈ members, ∀ count, member.2.pathLeaves.length ≤ count →
      member.2.firstLeaves count = member.2)
    (enough : (memberPaths members).length ≤ count) : firstMembers count members = members := by
  induction members generalizing count with
  | nil => rfl
  | cons member rest ih =>
      obtain ⟨name, value⟩ := member
      rw [List.forall_mem_cons] at each
      rw [memberPaths, List.length_append, beneath, List.length_map] at enough
      have some : 0 < value.pathLeaves.length := List.length_pos_iff.2 (pathLeaves_ne_nil value)
      rw [firstMembers, if_neg (by omega), each.1 count (by dsimp only; omega),
        ih each.2 (by omega)]

/-- Nothing is cut off after as many leaves as there are. -/
theorem firstLeaves_of_le (enough : value.pathLeaves.length ≤ count) :
    value.firstLeaves count = value := by
  induction value using inductParts generalizing count with
  | step value ih =>
      by_cases bare : value.parts = []
      · exact firstLeaves_of_bare bare
      · rw [pathLeaves_of_parts bare] at enough
        exact firstLeaves_eq_self_of_parts
          (firstMembers_of_le (fun part mem count => ih part mem) enough)

end Json

namespace FlatTree

variable {members : Members Json} {children : Members FlatTree} {tree : FlatTree}
  {leaves : List (List String × Json)} {count : Nat} {segment : String}

/-! ## Recovering sequences -/

theorem ofMembers_object (noIndex : ∀ name ∈ Members.keys members, FlatKey.index? name = none) :
    ofMembers members = .object members := by
  have first : FlatKey.ofIndex 0 ∉ Members.keys members := by
    intro mem
    have index : FlatKey.index? (FlatKey.ofIndex 0) = some 0 := by decide
    rw [noIndex _ mem] at index
    cases index
  have unordered : sequence? members = none := by
    cases members with
    | nil => rfl
    | cons member rest =>
        rw [sequence?, List.isEmpty_cons, if_neg Bool.false_ne_true, List.length_cons,
          List.range_succ_eq_map, List.mapM_cons, Members.get?_eq_none_iff.2 first]
        rfl
  rw [ofMembers, unordered]

theorem mapM_eq_some_of_map_eq {α β : Type} {f : α → Option β} {list : List α} {results : List β}
    (each : list.map f = results.map some) : list.mapM f = some results := by
  induction list generalizing results with
  | nil =>
      rw [List.map_nil, eq_comm, List.map_eq_nil_iff] at each
      rw [each]
      rfl
  | cons value rest ih =>
      cases results with
      | nil => cases each
      | cons result more =>
          rw [List.map_cons, List.map_cons, List.cons.injEq] at each
          rw [List.mapM_cons, each.1, ih each.2]
          rfl

theorem ofMembers_parts_array {items : List Json} (nonempty : items ≠ []) :
    ofMembers (Json.array items).parts = .array items := by
  have length : (Json.array items).parts.length = items.length := by simp [Json.parts]
  have ordered : sequence? (Json.array items).parts = some items := by
    rw [sequence?, if_neg (by simpa [Json.parts] using nonempty), length]
    refine mapM_eq_some_of_map_eq (List.ext_getElem (by simp) fun index inRange _ => ?_)
    rw [List.length_map, List.length_range] at inRange
    simp [Json.get?_parts_array, inRange]
  rw [ofMembers, ordered]

/-- A container is recovered from its parts, unless an index is among the names of an object. -/
theorem ofMembers_parts {value : Json} (nonempty : value.parts ≠ [])
    (noIndex : ∀ members, value = .object members →
      ∀ name ∈ Members.keys members, FlatKey.index? name = none) :
    ofMembers value.parts = value := by
  cases value with
  | null | bool | number | string => exact absurd rfl nonempty
  | array items =>
      refine ofMembers_parts_array ?_
      rintro rfl
      exact nonempty rfl
  | object members => exact ofMembers_object (noIndex members rfl)

theorem ofMembers_firstMembers {value : Json} (nonempty : value.parts ≠ [])
    (noIndex : ∀ name ∈ value.names, FlatKey.index? name = none) (some : 0 < count) :
    ofMembers (Json.firstMembers count value.parts) = value.firstLeaves count := by
  rw [← Json.parts_firstLeaves]
  refine ofMembers_parts ?_ fun members same name mem => ?_
  · rw [Json.parts_firstLeaves]
    exact (Json.firstMembers_eq_nil_iff some).not.2 nonempty
  · cases value with
    | null | bool | number | string | array => cases same
    | object whole =>
        cases same
        have own := (Json.forall_mem_names_object_iff.1 noIndex).1
        exact own name (Json.keys_firstMembers.subset mem)

/-! ## Writing leaf after leaf -/

def writeLeaves (tree : FlatTree) (leaves : List (List String × Json)) : FlatTree :=
  leaves.foldl (fun tree leaf => tree.write leaf.1 leaf.2) tree

theorem ofFlat_eq_writeLeaves (flat : FlatMap) :
    ofFlat flat = (branch []).writeLeaves (Json.routed flat) := by
  rw [ofFlat, writeLeaves, Json.routed, List.foldl_map]

theorem writeLeaves_append (tree : FlatTree) (first second : List (List String × Json)) :
    tree.writeLeaves (first ++ second) = (tree.writeLeaves first).writeLeaves second :=
  List.foldl_append

section

variable (fresh : segment ∉ Members.keys children)
include fresh

theorem write_last (rest : List String) (value : Json) :
    (branch (children ++ [(segment, tree)])).write (segment :: rest) value =
      branch (children ++ [(segment, tree.write rest value)]) := by
  rw [write_cons, children_branch, Members.insert_append_cons_self _ fresh, Members.get?_append,
    Members.get?_eq_none_iff.2 fresh]
  simp [Members.get?]

theorem write_fresh (rest : List String) (value : Json) :
    (branch children).write (segment :: rest) value =
      branch (children ++ [(segment, (branch []).write rest value)]) := by
  rw [write_cons, children_branch, Members.insert_of_not_mem _ fresh,
    Members.get?_eq_none_iff.2 fresh]
  rfl

theorem writeLeaves_last :
    (branch (children ++ [(segment, tree)])).writeLeaves (Json.beneath [segment] leaves) =
      branch (children ++ [(segment, tree.writeLeaves leaves)]) := by
  induction leaves generalizing tree with
  | nil => rfl
  | cons leaf rest ih =>
      rw [writeLeaves, Json.beneath, List.map_cons, List.foldl_cons, List.singleton_append,
        write_last fresh]
      exact ih

/-- The leaves below a new segment make one new child. -/
theorem writeLeaves_fresh (some : leaves ≠ []) :
    (branch children).writeLeaves (Json.beneath [segment] leaves) =
      branch (children ++ [(segment, (branch []).writeLeaves leaves)]) := by
  cases leaves with
  | nil => exact absurd rfl some
  | cons leaf rest =>
      rw [writeLeaves, Json.beneath, List.map_cons, List.foldl_cons, List.singleton_append,
        write_fresh fresh]
      exact writeLeaves_last fresh

end

/-- The first leaves of some members make one new child for each member they reach. -/
theorem exists_writeLeaves_members
    (names : (Members.keys children ++ Members.keys members).Nodup)
    (each : ∀ member ∈ members, ∀ count, 0 < count →
      ((branch []).writeLeaves (member.2.pathLeaves.take count)).value =
        member.2.firstLeaves count) :
    ∃ added, (branch children).writeLeaves ((Json.memberPaths members).take count) =
        branch (children ++ added) ∧ childValues added = Json.firstMembers count members := by
  induction members generalizing children count with
  | nil => exact ⟨[], by simp [Json.memberPaths, writeLeaves], rfl⟩
  | cons member rest ih =>
      obtain ⟨name, value⟩ := member
      rw [Json.firstMembers]
      split
      · next zero => exact ⟨[], by simp [zero, writeLeaves], rfl⟩
      · next positive =>
          rw [List.forall_mem_cons] at each
          have fresh : name ∉ Members.keys children := by
            intro mem
            exact (List.nodup_append.1 names).2.2 _ mem _ List.mem_cons_self rfl
          have reached : value.pathLeaves.take count ≠ [] := by
            simp [positive, Json.pathLeaves_ne_nil]
          have names' : (Members.keys (children ++
              [(name, (branch []).writeLeaves (value.pathLeaves.take count))]) ++
                Members.keys rest).Nodup := by
            simpa [Members.keys] using names
          -- The later members are written beside the child made by this one.
          obtain ⟨added, written, values⟩ := ih names' each.2
          refine ⟨(name, (branch []).writeLeaves (value.pathLeaves.take count)) :: added, ?_, ?_⟩
          · rw [Json.memberPaths, List.take_append, writeLeaves_append, Json.beneath,
              ← List.map_take, ← Json.beneath, writeLeaves_fresh fresh reached, List.length_map,
              written]
            simp
          · rw [childValues, values, each.1 count (Nat.pos_of_ne_zero positive)]

/-- The tree of the first leaves of a value has the value cut after them. -/
theorem value_writeLeaves {value : Json} (distinct : value.distinct = true)
    (noIndex : ∀ name ∈ value.names, FlatKey.index? name = none) (some : 0 < count) :
    ((branch []).writeLeaves (value.pathLeaves.take count)).value = value.firstLeaves count := by
  induction value using Json.inductParts generalizing count with
  | step value ih =>
      by_cases bare : value.parts = []
      · rw [Json.pathLeaves_of_bare bare, Json.firstLeaves_of_bare bare,
          List.take_of_length_le (Nat.succ_le_of_lt some)]
        rfl
      · obtain ⟨names, parts⟩ := Json.distinct_parts distinct
        obtain ⟨added, written, values⟩ : ∃ added,
            (branch []).writeLeaves ((Json.memberPaths value.parts).take count) =
                branch ([] ++ added) ∧
              childValues added = Json.firstMembers count value.parts :=
          exists_writeLeaves_members names fun part mem count =>
            ih part mem (parts part mem) (Json.names_parts noIndex part mem)
        rw [Json.pathLeaves_of_parts bare, written, List.nil_append, FlatTree.value, values,
          ofMembers_firstMembers bare noIndex some]

end FlatTree

namespace Json

variable {members : Members Json} {flat : FlatMap} {count : Nat}

theorem exists_head?_of_mem_memberPaths {path : List String}
    (mem : path ∈ (memberPaths members).map Prod.fst) :
    ∃ name ∈ Members.keys members, path.head? = some name := by
  rw [memberPaths_eq_flatMap, List.map_flatMap, List.mem_flatMap] at mem
  obtain ⟨member, below, mem⟩ := mem
  exact ⟨member.1, List.mem_map.2 ⟨member, below, rfl⟩, head?_of_mem_beneath mem⟩

/-- A flat form in which no path starts with the empty name is that of a container. -/
theorem unflatten_eq_value_of_routed
    (named : ∀ path ∈ (routed flat).map Prod.fst, path.head? ≠ some "") :
    unflatten flat = (FlatTree.ofFlat flat).value := by
  rw [unflatten]
  rintro value rfl
  exact named (FlatKey.segments "") (by simp [routed]) (by decide)

/-- The first entries of the flat form of an object rebuild the object cut after them. -/
theorem unflatten_take_flatten (distinct : (object members).distinct = true)
    (plain : ∀ name ∈ (object members).names, FlatKey.Plain name) (count : Nat) :
    unflatten ((object members).flatten.take count) = (object members).firstLeaves count := by
  by_cases bare : members = []
  · subst bare
    rw [firstLeaves_of_bare rfl]
    cases count <;> rfl
  · have leaves : (object members).pathLeaves = memberPaths members := pathLeaves_of_parts bare
    have paths : routed ((object members).flatten.take count) =
        (memberPaths members).take count := by
      have whole := routed_flatten (fun name mem => (plain name mem).toSingle) distinct bare
      rw [routed, List.map_take, ← routed, whole, leaves]
    have named : ∀ path ∈ (routed ((object members).flatten.take count)).map Prod.fst,
        path.head? ≠ some "" := by
      intro path mem empty
      rw [paths, List.map_take] at mem
      obtain ⟨name, own, head⟩ := exists_head?_of_mem_memberPaths (List.mem_of_mem_take mem)
      rw [empty, Option.some.injEq] at head
      exact (plain name ((forall_mem_names_object_iff.1 fun _ => id).1 name own)).nonempty head.symm
    rw [unflatten_eq_value_of_routed named, FlatTree.ofFlat_eq_writeLeaves, paths]
    cases count with
    | zero => cases members <;> rfl
    | succ count =>
        have cut := FlatTree.value_writeLeaves distinct (fun name mem => (plain name mem).noIndex)
          (Nat.succ_pos count)
        rwa [leaves] at cut

theorem firstLeaves_of_length_flatten_le (distinct : (object members).distinct = true)
    (plain : ∀ name ∈ (object members).names, FlatKey.Plain name)
    (enough : (object members).flatten.length ≤ count) :
    (object members).firstLeaves count = object members := by
  by_cases bare : members = []
  · exact firstLeaves_of_bare bare
  · have whole := routed_flatten (fun name mem => (plain name mem).toSingle) distinct bare
    rw [← List.length_map, ← routed, whole] at enough
    exact firstLeaves_of_le enough

end Json

end SchemaStream
