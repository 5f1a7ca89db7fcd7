import SchemaStream.Proofs.Schema.Growth
import SchemaStream.Proofs.Stability
import Mathlib.Logic.Relation

/-!
# Sound documents

The properties of a node are named once, and so are the definitions of a document.  A root that
stands beside a node of a definition has the children that it has in common with it, and refers to
nothing, as it was expanded with a definition that leads into no cycle.  This holds of documents
that are read, each operation on documents keeps it, and so it holds whatever is done to them.
-/

namespace SchemaStream

namespace Schema

variable {schema other : Schema} {slot : Slot}

instance : DecidablePred Named := fun schema =>
  inferInstanceAs (Decidable (Members.keys schema.properties).Nodup)

/-- Properties are named once whatever is done to a document whose members were. -/
theorem lasting_named : Lasting Named fun value => value.distinct = true where
  reads := preserved_named
  keeps := Expansion.keeps_named
  augmentable :=
    { stays := id
      added := fun _ => List.nodup_nil
      augmented := fun {schema} slot named => by
        rw [Named, properties_augmentNode]
        exact nodup_keys_augmentedProperties named slot
      withoutMarker := id }
  modified := by
    intro schema slot change named
    rw [Named, keys_modifyChild]
    exact named
  described := fun _ named => named

theorem isSome_child?_of_mem_slots (mem : slot ∈ schema.slots) :
    (schema.child? slot).isSome = true := by
  simp only [slots, List.mem_append, List.mem_map, List.mem_range] at mem
  rcases mem with (((⟨property, own, rfl⟩ | ⟨item, own, rfl⟩) | ⟨index, bound, rfl⟩) |
    ⟨index, bound, rfl⟩) | ⟨index, bound, rfl⟩
  · exact Members.has_iff_mem_keys.2 (List.mem_map_of_mem own)
  · exact Option.isSome_of_mem (Option.mem_toList.1 own)
  · simpa [child?] using bound
  · simpa [child?] using bound
  · simpa [child?] using bound

theorem isSome_child?_augmentNode (own : (schema.child? slot).isSome = true)
    (handed : Option String) : ((schema.augmentNode handed).child? slot).isSome = true := by
  obtain ⟨child, found⟩ := Option.isSome_iff_exists.1 own
  obtain ⟨result, there, -⟩ := exists_child?_augmentNode found handed
  exact Option.isSome_of_eq_some there

theorem isSome_child?_withChildrenOf (schema source : Schema) (slots : List Slot) (slot : Slot) :
    ((schema.withChildrenOf source slots).child? slot).isSome = (schema.child? slot).isSome := by
  rw [child?_withChildrenOf]
  split
  · rw [Option.isSome_map]
  · rfl

theorem isSome_child?_of_rel {R : Schema → Schema → Prop}
    (parts : (Expansion.Parts.ofNode schema).Rel R (Expansion.Parts.ofNode other)) (slot : Slot) :
    (other.child? slot).isSome = (schema.child? slot).isSome := by
  have list {children others : List Schema} (each : List.Forall₂ R children others)
      (index : Nat) : others[index]?.isSome = children[index]?.isSome := by
    rw [Bool.eq_iff_iff]
    simp [each.length_eq]
  cases slot with
  | property name =>
      have names : Members.keys schema.properties = Members.keys other.properties :=
        (Members.forall₂_iff.1 parts.properties).1
      exact Bool.eq_iff_iff.2
        (Members.has_iff_mem_keys.trans (names ▸ Members.has_iff_mem_keys.symm))
  | items =>
      have same : schema.items.toList.length = other.items.toList.length := parts.items.length_eq
      rw [child?, child?]
      cases hs : schema.items <;> cases ho : other.items <;> simp [hs, ho] at same ⊢
  | anyOf index => exact list parts.anyOf index
  | oneOf index => exact list parts.oneOf index
  | allOf index => exact list parts.allOf index

/-- A node that expansion neither replaces nor folds another one into. -/
structure Stands (schema : Schema) : Prop where
  reference : schema.reference = none
  allOf : schema.allOf = []

theorem Stands.of_hollow (stands : schema.Stands) (same : other.hollow = schema.hollow) :
    other.Stands where
  reference := (congrArg (fun node => node.reference) same).trans stands.reference
  allOf := by
    have members : other.hollow.allOf = schema.hollow.allOf :=
      congrArg (fun node => node.allOf) same
    simpa [hollow, stands.allOf] using members

theorem Stands.augmentNode (stands : schema.Stands) (slot : Option String) :
    (schema.augmentNode slot).Stands := by
  rw [augmentNode_eq]
  exact ⟨stands.reference, stands.allOf⟩

end Schema

namespace Expansion

variable {expansion : Expansion} {schema result : Schema} {path place shared : List Slot}

theorem stands_of_expand (stands : schema.Stands) (expands : expansion.expand schema = .ok result) :
    result.Stands ∧ ∀ slot, (result.child? slot).isSome = (schema.child? slot).isSome := by
  have node (below : Schema → Except SchemaError Schema)
      (expands : expandNode expansion below schema = .ok result) :
      result.Stands ∧ ∀ slot, (result.child? slot).isSome = (schema.child? slot).isSome := by
    rcases expandNode_eq_ok_iff.1 expands with ⟨definition, found, -⟩ | ⟨-, parts, hp, rfl⟩
    · rw [inlined?_of_no_reference stands.reference] at found
      cases found
    · obtain ⟨-, placed⟩ := expandParts_eq_ok_iff.1 hp
      have none : parts.allOf = [] := by
        have members : List.Forall₂ _ schema.allOf parts.allOf := placed.allOf
        rw [stands.allOf] at members
        exact List.forall₂_nil_left_iff.1 members
      have same : Parts.ofNode (parts.under schema) = parts := by
        obtain ⟨⟩ := parts
        cases none
        rw [Parts.under, Parts.ofNode, stands.allOf]
      refine ⟨⟨?_, allOf_under hp⟩, Schema.isSome_child?_of_rel (same.symm ▸ placed)⟩
      rw [reference_under, stands.reference]
  rw [expand] at expands
  cases count : expansion.definitions.length with
  | zero => exact node _ (by rwa [count] at expands)
  | succ depth => exact node _ (by rwa [count] at expands)

theorem eq_nil_of_fate_eq_placed (placed : fate expansion schema path = .placed []) :
    path = [] := by
  cases path with
  | nil => rfl
  | cons slot path =>
      rw [fate] at placed
      split at placed
      · cases placed
      · split at placed
        · cases placed
        · unfold Fate.below at placed
          split at placed <;> first | cases placed | (split at placed <;> cases placed)

/-- What a folded node leaves to the node above it are children of its own. -/
theorem exists_of_fate_eq_folded (folded : fate expansion schema path = .folded place shared) :
    ∃ node, schema.at? path = some node ∧ shared ⊆ node.slots := by
  induction path generalizing schema place shared with
  | nil => cases folded
  | cons slot path ih =>
      rw [fate] at folded
      split at folded
      · cases folded
      · split at folded
        · cases folded
        · next child found =>
            have below {node : Schema} (there : child.at? path = some node) :
                schema.at? (slot :: path) = some node := by rw [Schema.at?, found]; exact there
            unfold Fate.below at folded
            split at folded
            · next placed =>
                cases folded
                cases eq_nil_of_fate_eq_placed placed
                exact ⟨child, below rfl, List.filter_subset_self _⟩
            · next within =>
                cases folded
                obtain ⟨node, there, more⟩ := ih within
                exact ⟨node, below there, List.Subset.trans (List.filter_subset_self _) more⟩
            · split at folded <;> cases folded
            · next within =>
                split at folded <;> cases folded
                obtain ⟨node, there, more⟩ := ih within
                exact ⟨node, below there, more⟩
            · cases folded
            · next within =>
                cases folded
                obtain ⟨node, there, more⟩ := ih within
                exact ⟨node, below there, more⟩
            · cases folded

end Expansion

/-- A root beside a node of a definition stands for itself, and has the children that the two have
in common. -/
def Root.OwnsShared : Root → Prop
  | .beside schema _ _ slots => schema.Stands ∧ ∀ slot ∈ slots, (schema.child? slot).isSome = true
  | .apart _ | .within _ _ => True

namespace Document

variable {document result : Document} {change : Schema → Schema}

structure Sound (document : Document) : Prop where
  named : document.Holds Schema.Named
  distinct : (Members.keys document.definitions).Nodup
  shared : document.root.OwnsShared

theorem keys_modifyDefinition (document : Document) (name : String) (change : Schema → Schema) :
    Members.keys (document.modifyDefinition name change).definitions =
      Members.keys document.definitions := by
  rw [modifyDefinition, Members.keys, List.map_map]
  refine List.map_congr_left fun entry _ => ?_
  rw [Function.comp_apply]
  split <;> rfl

theorem keys_modifySchema (document : Document) (change : Schema → Schema) :
    Members.keys (document.modifySchema change).definitions =
      Members.keys document.definitions := by
  cases root : document.root <;> simp only [modifySchema, root, keys_modifyDefinition]

theorem ownsShared_modifySchema (shared : document.root.OwnsShared)
    (keeps : document.schema.Stands → (change document.schema).Stands ∧
      ∀ slot, (document.schema.child? slot).isSome = true →
        ((change document.schema).child? slot).isSome = true) :
    (document.modifySchema change).root.OwnsShared := by
  cases root : document.root with
  | apart own =>
      simp only [modifySchema, root]
      trivial
  | within name path =>
      simp only [modifySchema, modifyDefinition, root]
      trivial
  | beside own name path slots =>
      rw [root] at shared
      obtain ⟨stands, has⟩ := shared
      have same : document.schema = own.withChildrenOf (document.node name path) slots := by
        rw [schema, root]
      obtain ⟨after, below⟩ := keeps (same ▸ stands.of_hollow (Schema.hollow_withChildrenOf ..))
      simp only [modifySchema, root]
      refine ⟨after, fun slot mem => below slot ?_⟩
      rw [same]
      exact (Schema.isSome_child?_withChildrenOf ..).trans (has slot mem)

theorem node_eq {name : String} {path : List Slot} {body node : Schema}
    (defined : Members.get? document.definitions name = some body)
    (found : body.at? path = some node) : document.node name path = node := by
  rw [Document.node, defined, Option.bind_some, found, Option.getD_some]

theorem bind_at?_modifyDefinition (document : Document) (name : String) (path : List Slot)
    (change : Schema → Schema) :
    ((Members.get? (document.modifyDefinition name fun body =>
      body.modify path change).definitions name).bind fun body => body.at? path) =
        ((Members.get? document.definitions name).bind fun body => body.at? path).map change := by
  have changed : Members.get? (document.modifyDefinition name fun body =>
      body.modify path change).definitions name =
        (Members.get? document.definitions name).map fun body => body.modify path change :=
    (Members.get?_map_at document.definitions name name fun body =>
      body.modify path change).trans (if_pos rfl)
  rw [changed, Option.bind_map, Option.map_bind]
  exact congrArg _ (funext fun body => Schema.at?_modify body path change)

/-! ## Expansion of the root -/

/-- What a node of a definition that leads into no cycle expands to refers to nothing. -/
theorem stands_of_expand_within (distinct : (Members.keys document.definitions).Nodup)
    {name : String} {path : List Slot} (root : document.root = .within name path)
    (absent : name ∉ document.cyclicDefinitions) {schema : Schema}
    (expands : document.expansion.expand document.schema = .ok schema) : schema.Stands := by
  have avoids {definition : String × Schema} (mem : definition ∈ document.definitions)
      (absent : definition.1 ∉ document.cyclicDefinitions) :
      definition.2.Everywhere (Schema.Avoids document.cyclicDefinitions) :=
    Schema.everywhere_avoids (avoids_of_not_mem_cyclicDefinitions distinct mem absent)
  have start : document.schema.Everywhere (Schema.Avoids document.cyclicDefinitions) := by
    rw [Document.schema, root]
    change (document.node name path).Everywhere _
    rw [node]
    cases found : (Members.get? document.definitions name).bind fun body => body.at? path with
    | none =>
        refine Schema.everywhere_iff.2 ⟨fun reference name refers => ?_, fun child mem => ?_⟩
        · cases refers
        · cases mem
    | some node =>
        obtain ⟨body, defined, below⟩ := Option.bind_eq_some_iff.1 found
        exact (avoids (Members.mem_of_get?_eq_some defined) absent).at? below
  have result := (Expansion.keeps_avoids document.cyclicDefinitions).expand
    (fun definition mem absent => avoids mem absent) start expands
  obtain ⟨expanded, -⟩ :=
    Schema.everywhere_iff.1 ((grounded_expansion distinct).everywhere_expanded expands)
  refine ⟨?_, expanded.allOf⟩
  cases refers : schema.reference with
  | none => rfl
  | some reference =>
      obtain ⟨name, mem, named⟩ := expanded.reference reference refers
      exact absurd mem ((Schema.everywhere_iff.1 result).1 reference name refers named)

theorem stands_setSchema {name : String} {path : List Slot} {schema : Schema}
    (root : document.root = .within name path) (stands : schema.Stands) :
    (document.setSchema schema).schema.Stands := by
  have changed := bind_at?_modifyDefinition document name path fun _ => schema
  simp only [setSchema, modifySchema, root, Document.schema, modifyDefinition, node] at changed ⊢
  rw [changed]
  cases (Members.get? document.definitions name).bind fun body => body.at? path with
  | none => exact ⟨rfl, rfl⟩
  | some _ => exact stands

/-- A root that is folded into a node of a definition shares only children that it has. -/
theorem ownsShared_movedRoot (shared : document.root.OwnsShared) {kept : List String}
    (stands : ∀ name path, document.root = .within name path → name ∉ kept →
      document.schema.Stands) : (document.movedRoot kept).OwnsShared := by
  cases root : document.root with
  | apart own =>
      simp only [movedRoot, root]
      trivial
  | beside own name path slots =>
      rw [root] at shared
      simp only [movedRoot, root]
      exact shared
  | within name path =>
      simp only [movedRoot, root]
      split
      · trivial
      · next absent =>
          split
          · trivial
          · next body found =>
              split
              · trivial
              · next folded =>
                  refine ⟨stands name path root (mt List.contains_iff_mem.2 absent), ?_⟩
                  intro slot mem
                  obtain ⟨node, there, below⟩ := Expansion.exists_of_fate_eq_folded folded
                  rw [schema, root]
                  change (Schema.child? (document.node name path) slot).isSome = true
                  rw [node_eq found there]
                  exact Schema.isSome_child?_of_mem_slots (below mem)
              · trivial

theorem Holds.named (holds : document.Holds Schema.Named) : document.schema.Named :=
  (Schema.everywhere_iff.1 (holds.schema Schema.lasting_named)).1

theorem sound_of_ofJson {value : Json} (distinct : value.distinct = true)
    (read : ofJson value = .ok document) : document.Sound where
  named := holds_of_ofJson Schema.lasting_named distinct read
  distinct := nodup_keys_definitions read
  shared := by
    rw [root_eq_apart read]
    trivial

namespace Sound

variable (sound : document.Sound)
include sound

theorem augment : document.augment.Sound where
  named := sound.named.augment Schema.lasting_named
  distinct := by
    rw [Document.augment, keys_modifySchema]
    exact sound.distinct
  shared := ownsShared_modifySchema sound.shared fun stands =>
    ⟨stands.augmentNode _, fun _ own => Schema.isSome_child?_augmentNode own _⟩

theorem describe (site : Site) (text : String) :
    (document.modifyAt site fun node => { node with description := some text }).Sound := by
  have named := sound.named.describe Schema.lasting_named site text
  rw [modifyAt] at named ⊢
  split at named
  · refine ⟨named, ?_, ownsShared_modifySchema sound.shared fun stands => ?_⟩
    · rw [keys_modifySchema]
      exact sound.distinct
    · cases site.path with
      | nil =>
          refine ⟨⟨stands.reference, stands.allOf⟩, fun slot own => ?_⟩
          cases slot <;> exact own
      | cons step path =>
          refine ⟨stands.of_hollow (Schema.hollow_modifyChild ..), fun slot own => ?_⟩
          rw [Schema.modify, Schema.child?_modifyChild]
          split
          · rwa [Option.isSome_map]
          · exact own
  · refine ⟨named, ?_, sound.shared⟩
    rw [keys_modifyDefinition]
    exact sound.distinct

theorem reroot? {site : Site} (found : document.reroot? site = some result) : result.Sound := by
  have named := sound.named.reroot? Schema.lasting_named found
  obtain ⟨schema, -, rfl⟩ := Option.map_eq_some_iff.1 found
  refine ⟨named, ?_, ?_⟩
  · split <;> exact sound.distinct
  · split
    · trivial
    · dsimp only [rootBelow]
      split
      · trivial
      · trivial
      · next root _ =>
          have shared := sound.shared
          rw [root] at shared
          exact shared
      · split <;> trivial

theorem rerootCopy? {site : Site} (found : document.rerootCopy? site = some result) :
    result.Sound := by
  have named := sound.named.rerootCopy? Schema.lasting_named found
  obtain ⟨schema, -, rfl⟩ := Option.map_eq_some_iff.1 found
  exact ⟨named, sound.distinct, trivial⟩

theorem expand (expands : document.expand = .ok result) : result.Sound := by
  have named := sound.named.expand Schema.lasting_named expands
  simp only [Document.expand, Outcome.bind_eq_ok_iff] at expands
  obtain ⟨schema, first, expands⟩ := expands
  split at expands
  · cases expands
    exact ⟨named, List.nodup_nil, trivial⟩
  · obtain ⟨definitions, second, expands⟩ := Outcome.bind_eq_ok_iff.1 expands
    cases expands
    have set : (document.setSchema schema).root.OwnsShared :=
      ownsShared_modifySchema sound.shared fun stands =>
        (Expansion.stands_of_expand stands first).imp_right fun below slot own =>
          (below slot).trans own
    refine ⟨named, ?_, ownsShared_movedRoot set fun name path moved absent => ?_⟩
    · rw [keys_expandDefinitions second, setSchema, keys_modifySchema]
      exact sound.distinct
    · have root : document.root = .within name path := by
        cases before : document.root <;>
          simp only [setSchema, modifySchema, modifyDefinition, before, reduceCtorEq] at moved
        exact moved
      exact stands_setSchema root (stands_of_expand_within sound.distinct root absent first)

end Sound

/-- What one operation makes of a document. -/
inductive Becomes (document : Document) : Document → Prop
  | expanded {result : Document} (expands : document.expand = .ok result) :
      Becomes document result
  | augmented : Becomes document document.augment
  | described (site : Site) (text : String) :
      Becomes document (document.modifyAt site fun node => { node with description := some text })
  | rerooted {site : Site} {result : Document} (found : document.reroot? site = some result) :
      Becomes document result
  | rerootedCopy {site : Site} {result : Document}
      (found : document.rerootCopy? site = some result) : Becomes document result

theorem Sound.step (sound : document.Sound) (becomes : document.Becomes result) :
    result.Sound := by
  cases becomes with
  | expanded expands => exact sound.expand expands
  | augmented => exact sound.augment
  | described site text => exact sound.describe site text
  | rerooted found => exact sound.reroot? found
  | rerootedCopy found => exact sound.rerootCopy? found

/-- A document that is read is sound, and stays so under any operations in any order. -/
theorem sound_of_steps {value : Json} (distinct : value.distinct = true)
    (read : ofJson value = .ok document)
    (steps : Relation.ReflTransGen Becomes document result) : result.Sound := by
  induction steps with
  | refl => exact sound_of_ofJson distinct read
  | tail _ becomes ih => exact ih.step becomes

end Document

end SchemaStream
