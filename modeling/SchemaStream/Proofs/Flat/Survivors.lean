import SchemaStream.Proofs.Flat.Sequences
import SchemaStream.Proofs.Json.Reordering

/-!
# The entries that survive

Rebuilding a flat map and flattening what came out keeps the entries that no entry behind them
conflicts with, under the keys they had, and adds nothing.  What it keeps are the leaves of the
tree that the entries are written into, and recovering sequences moves no leaf to another path.
-/

namespace SchemaStream

namespace FlatKey

/-- A key with a first segment that is not empty. -/
structure Rooted (key : String) : Prop where
  nonempty : key ≠ ""
  named : key.toList.head? ≠ some separator

theorem rooted_iff {key : String} :
    Rooted key ↔ key ≠ "" ∧ key.toList.head? ≠ some separator :=
  ⟨fun rooted => ⟨rooted.nonempty, rooted.named⟩, fun ⟨nonempty, named⟩ => ⟨nonempty, named⟩⟩

instance : DecidablePred Rooted := fun _ => decidable_of_iff _ rooted_iff.symm

theorem segments_ne_nil (key : String) : segments key ≠ [] := by
  simp [segments, splitChars_ne_nil]

theorem splitChars_pointless {chars segment : List Char} (mem : segment ∈ splitChars chars) :
    separator ∉ segment := by
  induction chars generalizing segment with
  | nil => simp_all [splitChars]
  | cons c rest ih =>
      rw [splitChars] at mem
      split at mem
      · rcases List.mem_cons.1 mem with rfl | mem
        · exact List.not_mem_nil
        · exact ih mem
      · next other =>
          split at mem
          · next none => exact absurd none (splitChars_ne_nil rest)
          · next first more found =>
              rw [found] at ih
              rcases List.mem_cons.1 mem with rfl | mem
              · rw [List.mem_cons, not_or]
                exact ⟨Ne.symm other, ih List.mem_cons_self⟩
              · exact ih (List.mem_cons_of_mem _ mem)

theorem segments_pointless {key segment : String} (mem : segment ∈ segments key) :
    separator ∉ segment.toList := by
  obtain ⟨chars, part, rfl⟩ := List.mem_map.1 mem
  rw [String.toList_ofList]
  exact splitChars_pointless part

theorem Rooted.head?_segments {key : String} (rooted : Rooted key) :
    (segments key).head? ≠ some "" := by
  rw [segments]
  cases chars : key.toList with
  | nil => exact absurd (String.toList_eq_nil_iff.1 chars) rooted.nonempty
  | cons c rest =>
      have other : c ≠ separator := by
        rintro rfl
        exact rooted.named (by rw [chars]; rfl)
      rw [splitChars, if_neg other]
      split <;> simp

end FlatKey

theorem Members.insert_ne_nil {α : Type} (members : Members α) (name : String) (value : α) :
    insert members name value ≠ [] := by
  cases members with
  | nil => simp [insert]
  | cons member rest =>
      rw [insert]
      split <;> simp

/-! ## Leaves and reading -/

namespace Json

variable {value leaf : Json} {path : List String}

/-- The leaves of a value are the bare values that can be read in it. -/
theorem mem_pathLeaves_iff (distinct : value.distinct = true) :
    (path, leaf) ∈ value.pathLeaves ↔ value.read? path = some leaf ∧ leaf.parts = [] := by
  induction value using inductParts generalizing path with
  | step value ih =>
      by_cases bare : value.parts = []
      · rw [pathLeaves_of_bare bare, List.mem_singleton, Prod.mk.injEq]
        cases path with
        | nil =>
            rw [read?, Option.some.injEq]
            constructor
            · rintro ⟨-, rfl⟩
              exact ⟨rfl, bare⟩
            · rintro ⟨rfl, -⟩
              exact ⟨rfl, rfl⟩
        | cons segment rest => simp [read?, bare, Members.get?]
      · obtain ⟨names, inside⟩ := distinct_parts distinct
        rw [pathLeaves_of_parts bare, memberPaths_eq_flatMap, List.mem_flatMap]
        cases path with
        | nil =>
            rw [read?, Option.some.injEq]
            constructor
            · rintro ⟨part, -, below⟩
              simp [beneath] at below
            · rintro ⟨rfl, last⟩
              exact absurd last bare
        | cons segment rest =>
            rw [read?, Option.bind_eq_some_iff]
            constructor
            · rintro ⟨part, mem, below⟩
              obtain ⟨found, within, same⟩ := List.mem_map.1 below
              cases same
              obtain ⟨reads, last⟩ := (ih part mem (inside part mem)).1 within
              exact ⟨⟨part.2, Members.get?_eq_some_of_mem names mem, reads⟩, last⟩
            · rintro ⟨⟨part, held, reads⟩, last⟩
              have mem : (segment, part) ∈ value.parts := Members.mem_of_get?_eq_some held
              refine ⟨(segment, part), mem, List.mem_map.2 ⟨(rest, leaf), ?_, rfl⟩⟩
              exact (ih (segment, part) mem (inside _ mem)).2 ⟨reads, last⟩

theorem exists_part_of_mem {items : List Json} {item : Json} (mem : item ∈ items) :
    ∃ name, (name, item) ∈ (array items).parts := by
  obtain ⟨index, position⟩ := List.mem_iff_getElem?.1 mem
  have indexed : (item, index) ∈ items.zipIdx := List.mem_zipIdx_iff_getElem?.2 position
  exact ⟨FlatKey.ofIndex index, List.mem_map_of_mem indexed⟩

theorem distinct_of_parts (names : (Members.keys value.parts).Nodup)
    (inside : ∀ part ∈ value.parts, part.2.distinct = true) : value.distinct = true := by
  cases value with
  | null | bool | number | string => rfl
  | array items =>
      refine distinct_array_iff.2 fun item mem => ?_
      obtain ⟨name, part⟩ := exists_part_of_mem mem
      exact inside (name, item) part
  | object members => exact distinct_object_iff.2 ⟨names, inside⟩

theorem forall_names_of_parts {P : String → Prop} (own : ∀ part ∈ value.parts, P part.1)
    (inside : ∀ part ∈ value.parts, ∀ name ∈ part.2.names, P name) :
    ∀ name ∈ value.names, P name := by
  cases value with
  | null | bool | number | string => exact nofun
  | array items =>
      refine forall_mem_names_array_iff.2 fun item mem => ?_
      obtain ⟨name, part⟩ := exists_part_of_mem mem
      exact inside (name, item) part
  | object members =>
      refine forall_mem_names_object_iff.2 ⟨fun name mem => ?_, inside⟩
      obtain ⟨member, within, rfl⟩ := List.mem_map.1 mem
      exact own member within

end Json

namespace FlatTree

variable {tree found : FlatTree} {children : Members FlatTree} {members : Members Json}
  {path other : List String} {value : Json}

/-- Recovering a sequence may change the order of the members, but nothing else. -/
theorem reordered_parts_ofMembers (names : (Members.keys members).Nodup) :
    Members.Reordered (ofMembers members).parts members := by
  refine Members.Reordered.of_get?_eq ?_ names (get?_parts_ofMembers members)
  rw [ofMembers]
  split
  · rw [Json.keys_parts_array]
    exact FlatKey.nodup_map_ofIndex _
  · exact names

/-! ## Grown trees -/

/-- A tree as writing makes it: bare values at its leaves, and at each branch some children under
different segments. -/
inductive Grown : FlatTree → Prop
  | leaf {value : Json} (bare : value.parts = []) : Grown (.leaf value)
  | branch {children : Members FlatTree} (some : children ≠ [])
      (names : (Members.keys children).Nodup)
      (pointless : ∀ child ∈ children, FlatKey.separator ∉ child.1.toList)
      (each : ∀ child ∈ children, Grown child.2) : Grown (.branch children)

/-- What the children of a tree need for a write below it. -/
structure Sound (children : Members FlatTree) : Prop where
  names : (Members.keys children).Nodup
  pointless : ∀ child ∈ children, FlatKey.separator ∉ child.1.toList
  each : ∀ child ∈ children, Grown child.2

theorem sound_nil : Sound [] := ⟨List.nodup_nil, nofun, nofun⟩

theorem Grown.sound (grown : Grown tree) : Sound tree.children := by
  cases grown with
  | leaf => exact sound_nil
  | branch _ names pointless each => exact ⟨names, pointless, each⟩

theorem Sound.insert {segment : String} (sound : Sound children)
    (pointless : FlatKey.separator ∉ segment.toList) (grown : Grown tree) :
    Sound (Members.insert children segment tree) := by
  refine ⟨Members.nodup_keys_insert _ _ sound.names, fun child mem => ?_, fun child mem => ?_⟩
  · rcases Members.mem_insert mem with mem | rfl
    · exact sound.pointless child mem
    · exact pointless
  · rcases Members.mem_insert mem with mem | rfl
    · exact sound.each child mem
    · exact grown

theorem grown_write (sound : Sound tree.children)
    (pointless : ∀ segment ∈ path, FlatKey.separator ∉ segment.toList) (bare : value.parts = []) :
    Grown (tree.write path value) := by
  induction path generalizing tree with
  | nil => exact .leaf bare
  | cons segment rest ih =>
      rw [List.forall_mem_cons] at pointless
      have below : Sound
          ((Members.get? tree.children segment).getD (.branch [])).children := by
        cases held : Members.get? tree.children segment with
        | none => exact sound_nil
        | some child => exact (sound.each _ (Members.mem_of_get?_eq_some held)).sound
      obtain ⟨names, pointless, each⟩ := sound.insert pointless.1 (ih below pointless.2)
      exact .branch (Members.insert_ne_nil _ _ _) names pointless each

theorem grown_ofFlat {flat : FlatMap} (some : flat ≠ [])
    (bare : ∀ entry ∈ flat, entry.2.parts = []) : Grown (ofFlat flat) := by
  induction flat using List.reverseRecOn with
  | nil => exact absurd rfl some
  | append_singleton front entry ih =>
      rw [List.forall_mem_append, List.forall_mem_singleton] at bare
      have before : Sound (ofFlat front).children := by
        cases front with
        | nil => exact sound_nil
        | cons first rest => exact (ih (List.cons_ne_nil _ _) bare.1).sound
      rw [ofFlat_append_cons]
      exact grown_write before (fun _ => FlatKey.segments_pointless) bare.2

/-- To show something of every tree, show it of a tree from its children. -/
theorem inductChildren {motive : FlatTree → Prop}
    (step : ∀ tree, (∀ child ∈ tree.children, motive child.2) → motive tree) (tree : FlatTree) :
    motive tree := by
  induction tree with
  | leaf value => exact step _ nofun
  | branch children ih => exact step _ ih

/-! ## The value of a grown tree -/

section

variable (grown : Grown tree)
include grown

theorem Grown.reordered_parts :
    Members.Reordered tree.value.parts (Members.mapValues FlatTree.value tree.children) := by
  cases grown with
  | leaf bare =>
      rw [FlatTree.value, bare]
      exact .refl List.nodup_nil
  | branch _ names =>
      rw [FlatTree.value, childValues_eq_mapValues]
      exact reordered_parts_ofMembers (by rwa [Members.keys_mapValues])

theorem Grown.exists_child {part : String × Json} (mem : part ∈ tree.value.parts) :
    ∃ child ∈ tree.children, part = (child.1, child.2.value) := by
  obtain ⟨child, within, same⟩ := List.mem_map.1 (grown.reordered_parts.perm.mem_iff.1 mem)
  exact ⟨child, within, same.symm⟩

theorem Grown.distinct_value : tree.value.distinct = true := by
  induction tree using inductChildren with
  | step tree ih =>
      refine Json.distinct_of_parts grown.reordered_parts.distinct fun part mem => ?_
      obtain ⟨child, within, rfl⟩ := grown.exists_child mem
      exact ih child within (grown.sound.each child within)

theorem Grown.names_pointless : ∀ name ∈ tree.value.names, FlatKey.separator ∉ name.toList := by
  induction tree using inductChildren with
  | step tree ih =>
      refine Json.forall_names_of_parts (fun part mem => ?_) fun part mem => ?_
      · obtain ⟨child, within, rfl⟩ := grown.exists_child mem
        exact grown.sound.pointless child within
      · obtain ⟨child, within, rfl⟩ := grown.exists_child mem
        exact ih child within (grown.sound.each child within)

theorem Grown.read?_value_eq : tree.value.read? path = (tree.at? path).map FlatTree.value := by
  induction path generalizing tree with
  | nil => rfl
  | cons segment rest ih =>
      rw [Json.read?, grown.reordered_parts.get?_eq, Members.get?_mapValues, at?_cons]
      cases held : Members.get? tree.children segment with
      | none => rfl
      | some child => exact ih (grown.sound.each _ (Members.mem_of_get?_eq_some held))

theorem Grown.at? (h : tree.at? path = some found) : Grown found := by
  induction path generalizing tree with
  | nil =>
      cases h
      exact grown
  | cons segment rest ih =>
      rw [at?_cons, Option.bind_eq_some_iff] at h
      obtain ⟨child, held, below⟩ := h
      exact ih (grown.sound.each _ (Members.mem_of_get?_eq_some held)) below

/-- A grown tree is a leaf when its value is bare. -/
theorem Grown.eq_leaf (bare : tree.value.parts = []) : tree = .leaf tree.value := by
  cases grown with
  | leaf => rfl
  | branch some names pointless each =>
      have none := (Grown.branch some names pointless each).reordered_parts.perm
      rw [bare] at none
      exact absurd (List.map_eq_nil_iff.1 none.nil_eq.symm) some

/-- Recovering sequences moves no leaf to another path. -/
theorem Grown.mem_pathLeaves_iff :
    (path, value) ∈ tree.value.pathLeaves ↔ tree.at? path = some (.leaf value) := by
  rw [Json.mem_pathLeaves_iff grown.distinct_value, grown.read?_value_eq, Option.map_eq_some_iff]
  constructor
  · rintro ⟨⟨found, here, rfl⟩, bare⟩
    rw [here, ← (grown.at? here).eq_leaf bare]
  · intro here
    refine ⟨⟨_, here, rfl⟩, ?_⟩
    cases grown.at? here with
    | leaf bare => exact bare

end

/-! ## What a write leaves -/

theorem at?_append (tree : FlatTree) (front back : List String) :
    tree.at? (front ++ back) = (tree.at? front).bind fun found => found.at? back := by
  induction front generalizing tree with
  | nil => rfl
  | cons segment rest ih =>
      rw [List.cons_append, at?_cons, at?_cons, Option.bind_assoc]
      exact congrArg _ (funext ih)

theorem at?_write_above (tree : FlatTree) (path rest : List String) (segment : String)
    (value : Json) : ∃ children,
      (tree.write (path ++ segment :: rest) value).at? path = some (.branch children) := by
  induction path generalizing tree with
  | nil => exact ⟨_, rfl⟩
  | cons first path ih =>
      obtain ⟨children, found⟩ := ih ((Members.get? tree.children first).getD (.branch []))
      exact ⟨children, by simp [write_cons, at?_cons, Members.get?_insert, found]⟩

/-- After a write there is the leaf written, and what leaves there were apart from its path. -/
theorem at?_write_eq_leaf_iff {written : Json} :
    (tree.write other written).at? path = some (.leaf value) ↔
      path = other ∧ value = written ∨
        (¬ path <+: other ∧ ¬ other <+: path) ∧ tree.at? path = some (.leaf value) := by
  by_cases above : path <+: other
  · obtain ⟨rest, rfl⟩ := above
    cases rest with
    | nil => simp [at?_write_self, eq_comm]
    | cons segment rest =>
        obtain ⟨children, found⟩ := at?_write_above tree path rest segment written
        simp [found]
  · by_cases below : other <+: path
    · obtain ⟨rest, rfl⟩ := below
      cases rest with
      | nil => simp at above
      | cons segment rest =>
          simp [at?_append, at?_write_self, at?_cons, FlatTree.children, Members.get?]
    · have apart : path ≠ other := by
        rintro rfl
        exact above List.prefix_rfl
      simp [at?_write_of_unrelated tree written above below, above, below, apart]

end FlatTree

/-! ## The survivors -/

/-- The entries of a flat map that no entry behind them conflicts with. -/
def survivors (flat : FlatMap) : FlatMap :=
  flat.filter fun entry =>
    ∀ other ∈ Members.behind (Members.keys flat) entry.1, ¬ FlatKey.Conflicts entry.1 other

variable {flat front : FlatMap} {entry : String × Json} {key : String} {path : List String}
  {value : Json}

theorem mem_survivors_iff :
    entry ∈ survivors flat ↔ entry ∈ flat ∧
      ∀ other ∈ Members.behind (Members.keys flat) entry.1, ¬ FlatKey.Conflicts entry.1 other := by
  rw [survivors, List.mem_filter, decide_eq_true_iff]

/-- A new entry survives, and ends those that it conflicts with. -/
theorem mem_survivors_append_singleton (fresh : key ∉ Members.keys front) :
    entry ∈ survivors (front ++ [(key, value)]) ↔
      entry = (key, value) ∨ ¬ FlatKey.Conflicts entry.1 key ∧ entry ∈ survivors front := by
  have names : Members.keys (front ++ [(key, value)]) = Members.keys front ++ [key] := by
    simp [Members.keys]
  rw [mem_survivors_iff, mem_survivors_iff, List.mem_append, List.mem_singleton, names]
  by_cases mem : entry ∈ front
  · have own : entry.1 ∈ Members.keys front := List.mem_map_of_mem mem
    have other : entry ≠ (key, value) := by
      rintro rfl
      exact fresh own
    rw [Members.behind_append_of_mem _ own, List.forall_mem_append, List.forall_mem_singleton]
    simp [mem, other, and_comm]
  · have last : entry = (key, value) →
        ∀ other ∈ Members.behind (Members.keys front ++ [key]) entry.1,
          ¬ FlatKey.Conflicts entry.1 other := by
      rintro rfl
      rw [Members.behind_append_of_not_mem _ fresh]
      simp [Members.behind]
    simp only [mem, false_or, false_and, and_false, or_false]
    exact ⟨And.left, fun same => ⟨same, last same⟩⟩

/-- The leaves of the tree of a flat map are its survivors. -/
theorem FlatTree.at?_ofFlat_eq_leaf_iff (distinct : (Members.keys flat).Nodup) :
    (FlatTree.ofFlat flat).at? path = some (.leaf value) ↔
      ∃ key, (key, value) ∈ survivors flat ∧ FlatKey.segments key = path := by
  induction flat using List.reverseRecOn with
  | nil => cases path <;> simp [FlatTree.ofFlat, FlatTree.at?, survivors, Members.get?, children]
  | append_singleton front entry ih =>
      obtain ⟨last, written⟩ := entry
      have apart : (Members.keys front).Nodup ∧ last ∉ Members.keys front := by
        rw [Members.keys, List.map_append, List.map_singleton, ← List.concat_eq_append,
          List.nodup_concat] at distinct
        exact distinct.symm
      have written : (FlatTree.ofFlat (front ++ [(last, written)])) =
          (FlatTree.ofFlat front).write (FlatKey.segments last) written :=
        FlatTree.ofFlat_append_cons front [] last written
      rw [written, FlatTree.at?_write_eq_leaf_iff, ih apart.1]
      simp only [mem_survivors_append_singleton apart.2, Prod.mk.injEq]
      constructor
      · rintro (⟨rfl, rfl⟩ | ⟨unrelated, key, mem, rfl⟩)
        · exact ⟨last, .inl ⟨rfl, rfl⟩, rfl⟩
        · exact ⟨key, .inr ⟨fun conflict => conflict.2.elim unrelated.1 unrelated.2, mem⟩, rfl⟩
      · rintro ⟨key, ⟨rfl, rfl⟩ | ⟨free, mem⟩, rfl⟩
        · exact .inl ⟨rfl, rfl⟩
        · have own : key ∈ Members.keys front :=
            List.mem_map_of_mem (mem_survivors_iff.1 mem).1
          have ne : key ≠ last := by
            rintro rfl
            exact apart.2 own
          exact .inr ⟨FlatKey.unrelated_of_not_conflicts ne free, key, mem, rfl⟩

/-! ## Rebuilding and flattening -/

namespace Json

theorem mem_pathLeaves_ofFlat_iff (distinct : (Members.keys flat).Nodup) (some : flat ≠ [])
    (bare : ∀ entry ∈ flat, entry.2.parts = []) :
    (path, value) ∈ (FlatTree.ofFlat flat).value.pathLeaves ↔
      ∃ key, (key, value) ∈ survivors flat ∧ FlatKey.segments key = path := by
  rw [(FlatTree.grown_ofFlat some bare).mem_pathLeaves_iff,
    FlatTree.at?_ofFlat_eq_leaf_iff distinct]

theorem mem_routed_iff :
    (FlatKey.segments key, value) ∈ routed flat ↔ (key, value) ∈ flat := by
  have injective : Function.Injective fun entry : String × Json =>
      (FlatKey.segments entry.1, entry.2) := by
    rintro ⟨first, value⟩ ⟨second, other⟩ same
    rw [Prod.mk.injEq] at same ⊢
    exact ⟨FlatKey.segments_injective same.1, same.2⟩
  exact List.mem_map_of_injective injective (a := (key, value))

/-- The flat form of the value rebuilt from a flat map, its keys taken apart. -/
theorem routed_flatten_unflatten (distinct : (Members.keys flat).Nodup) (some : flat ≠ [])
    (rooted : ∀ key ∈ Members.keys flat, FlatKey.Rooted key)
    (bare : ∀ entry ∈ flat, entry.2.parts = []) :
    routed (unflatten flat).flatten = (FlatTree.ofFlat flat).value.pathLeaves := by
  have grown := FlatTree.grown_ofFlat some bare
  have leaf {path : List String} {value : Json}
      (mem : (path, value) ∈ (FlatTree.ofFlat flat).value.pathLeaves) :
      ∃ key ∈ Members.keys flat, FlatKey.segments key = path := by
    obtain ⟨key, survives, spelled⟩ := (mem_pathLeaves_ofFlat_iff distinct some bare).1 mem
    exact ⟨key, List.mem_map_of_mem (mem_survivors_iff.1 survives).1, spelled⟩
  obtain ⟨entry, mem⟩ := List.exists_mem_of_ne_nil flat some
  have own : entry.1 ∈ Members.keys flat := List.mem_map_of_mem mem
  rw [unflatten_eq_value own (rooted _ own).nonempty]
  -- A root that were a leaf, or a part of it without a name, would be the end of a key.
  refine routed_flatten_of_pointless grown.names_pointless ?_ grown.distinct_value ?_
  · intro part mem empty
    obtain ⟨below, found⟩ := List.exists_mem_of_ne_nil _ (pathLeaves_ne_nil part.2)
    have whole : ("" :: below.1, below.2) ∈ (FlatTree.ofFlat flat).value.pathLeaves := by
      rw [pathLeaves_of_parts (List.ne_nil_of_mem mem), memberPaths_eq_flatMap]
      exact List.mem_flatMap.2 ⟨part, mem, List.mem_map.2 ⟨below, found, by rw [empty]; rfl⟩⟩
    obtain ⟨key, own, spelled⟩ := leaf whole
    exact (rooted key own).head?_segments (by rw [spelled]; rfl)
  · intro none
    have root : ([], (FlatTree.ofFlat flat).value) ∈ (FlatTree.ofFlat flat).value.pathLeaves := by
      rw [pathLeaves_of_bare none]
      exact List.mem_singleton_self _
    obtain ⟨key, -, spelled⟩ := leaf root
    exact FlatKey.segments_ne_nil key spelled

/-- Flattening the value rebuilt from a flat map gives the survivors of the map, up to order. -/
theorem flatten_unflatten (distinct : (Members.keys flat).Nodup)
    (rooted : ∀ key ∈ Members.keys flat, FlatKey.Rooted key)
    (bare : ∀ entry ∈ flat, entry.2.parts = []) :
    Members.Reordered (unflatten flat).flatten (survivors flat) ∧
      ((∀ key ∈ Members.keys flat, ∀ other ∈ Members.keys flat, ¬ FlatKey.Conflicts key other) →
        Members.Reordered (unflatten flat).flatten flat) := by
  by_cases some : flat = []
  · subst some
    exact ⟨.refl List.nodup_nil, fun _ => .refl List.nodup_nil⟩
  · have names : (Members.keys (unflatten flat).flatten).Nodup := Members.nodup_keys_ofList _
    have kept : (Members.keys (survivors flat)).Nodup :=
      distinct.sublist (List.filter_sublist.map Prod.fst)
    have all : Members.Reordered (unflatten flat).flatten (survivors flat) := by
      refine ⟨names, (List.perm_ext_iff_of_nodup names.of_map kept.of_map).2 ?_⟩
      rintro ⟨key, value⟩
      rw [← mem_routed_iff, routed_flatten_unflatten distinct some rooted bare,
        mem_pathLeaves_ofFlat_iff distinct some bare]
      constructor
      · rintro ⟨other, survives, same⟩
        rwa [← FlatKey.segments_injective same]
      · exact fun survives => ⟨key, survives, rfl⟩
    refine ⟨all, fun free => ?_⟩
    have whole : survivors flat = flat := by
      refine List.filter_eq_self.2 fun entry mem => decide_eq_true fun other later => ?_
      exact free entry.1 (List.mem_map_of_mem mem) other (Members.behind_subset _ _ later)
    rwa [whole] at all

/-- Leaves, then keys above and below them, out of order and beside indices. -/
def contested : FlatMap :=
  [("a.b", .bool true), ("1", .array []), ("a", .null), ("a.c", .object []), ("0", .bool false),
    ("a.c.", .string "x")]

theorem flatten_unflatten_contested :
    survivors contested = [("1", .array []), ("0", .bool false), ("a.c.", .string "x")] ∧
      Members.Reordered (unflatten contested).flatten (survivors contested) := by
  have rooted : ∀ key ∈ Members.keys contested, FlatKey.Rooted key := by decide
  have bare : ∀ entry ∈ contested, entry.2.parts = [] := by decide
  exact ⟨by decide, (flatten_unflatten (by decide) rooted bare).1⟩

end Json

end SchemaStream
