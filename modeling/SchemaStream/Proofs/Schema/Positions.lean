import SchemaStream.Proofs.Schema.Respelling
import SchemaStream.Schema.Document

/-!
# Schemas and documents changed at one position

Only the nodes above a position have it below them.  So two changes at a position that give
respelled nodes give respelled schemas, and documents with respelled tables.
-/

namespace SchemaStream

open Schema (Alike AlikeAt Respelled)

namespace Schema

variable {R : Schema → Schema → Prop} {live : String → Prop} {schema : Schema}

/-! ## Changing one node in two ways -/

theorem forall₂_modify {first second : Schema → Schema} {children : List Schema}
    (same : ∀ child ∈ children, R child child)
    (changed : ∀ child ∈ children, R (first child) (second child)) (index : Nat) :
    List.Forall₂ R (children.modify index first) (children.modify index second) := by
  induction children generalizing index with
  | nil => simp
  | cons child rest ih =>
      rw [List.forall_mem_cons] at same changed
      cases index with
      | zero =>
          rw [List.modify_zero_cons, List.modify_zero_cons]
          exact .cons changed.1 (List.forall₂_same.2 same.2)
      | succ index =>
          rw [List.modify_succ_cons, List.modify_succ_cons]
          exact .cons same.1 (ih same.2 changed.2 index)

/-- A node whose child at a slot is changed in two ways. -/
theorem alikeAt_modifyChild {first second : Schema → Schema} (tidy : schema.Tidy)
    (named : schema.Named) (same : ∀ child ∈ schema.children, R child child)
    (changed : ∀ child ∈ schema.children, R (first child) (second child)) (slot : Slot) :
    AlikeAt R (schema.modifyChild slot first) (schema.modifyChild slot second) := by
  have parts : (Expansion.Parts.ofNode schema).Rel R (Expansion.Parts.ofNode schema) :=
    .refl_of_mem same
  have extensions := Members.Reordered.refl tidy.extensions.distinct
  have keywords := Members.Reordered.refl tidy.keywords.distinct
  have list {children : List Schema} (mem : ∀ child ∈ children, child ∈ schema.children)
      (index : Nat) :
      List.Forall₂ R (children.modify index first) (children.modify index second) :=
    forall₂_modify (fun child h => same child (mem child h))
      (fun child h => changed child (mem child h)) index
  cases slot with
  | property name =>
      have names (change : Schema → Schema) : Members.keys (schema.properties.map fun property =>
          if property.1 = name then (property.1, change property.2) else property) =
            Members.keys schema.properties := by
        rw [Members.keys, List.map_map]
        refine List.map_congr_left fun property _ => ?_
        rw [Function.comp_apply]
        split <;> rfl
      refine ⟨rfl, ⟨parts.allOf, ?_, parts.items, parts.anyOf, parts.oneOf⟩, extensions, keywords,
        ⟨tidy.required, tidy.extensions, tidy.keywords⟩, ?_⟩
      · rw [modifyChild, modifyChild, Expansion.Parts.ofNode, Expansion.Parts.ofNode]
        dsimp only
        rw [List.forall₂_map_left_iff, List.forall₂_map_right_iff, List.forall₂_same]
        intro property mem
        have child : property.2 ∈ schema.children :=
          mem_children_of_properties mem
        split
        · exact ⟨rfl, changed _ child⟩
        · exact ⟨rfl, same _ child⟩
      · rw [Named, modifyChild, names]
        exact named
  | items =>
      refine ⟨rfl, ⟨parts.allOf, parts.properties, ?_, parts.anyOf, parts.oneOf⟩, extensions,
        keywords, ⟨tidy.required, tidy.extensions, tidy.keywords⟩, named⟩
      rw [modifyChild, modifyChild, Expansion.Parts.ofNode, Expansion.Parts.ofNode]
      cases h : schema.items with
      | none => exact .nil
      | some item =>
          exact .cons (changed item (mem_children_of_items h)) .nil
  | anyOf index =>
      refine ⟨rfl, ⟨parts.allOf, parts.properties, parts.items, list ?_ index, parts.oneOf⟩,
        extensions, keywords, ⟨tidy.required, tidy.extensions, tidy.keywords⟩, named⟩
      exact fun child mem => mem_children_of_anyOf mem
  | oneOf index =>
      refine ⟨rfl, ⟨parts.allOf, parts.properties, parts.items, parts.anyOf, list ?_ index⟩,
        extensions, keywords, ⟨tidy.required, tidy.extensions, tidy.keywords⟩, named⟩
      exact fun child mem => mem_children_of_oneOf mem
  | allOf index =>
      refine ⟨rfl, ⟨list ?_ index, parts.properties, parts.items, parts.anyOf, parts.oneOf⟩,
        extensions, keywords, ⟨tidy.required, tidy.extensions, tidy.keywords⟩, named⟩
      exact fun child mem => mem_children_of_allOf mem

variable {site : SiteMetadata} {reference : String}

theorem respelled_modify (wellFormed : schema.WellFormed) (named : schema.Everywhere Named)
    (alive : live reference) (path : List Slot) :
    Respelled live (schema.modify path fun _ => site.wrapping reference)
      (schema.modify path fun _ => site.referring reference) := by
  induction path generalizing schema with
  | nil => exact .sole site alive
  | cons slot path ih =>
      obtain ⟨tidy, below⟩ := everywhere_iff.1 wellFormed
      obtain ⟨name, names⟩ := everywhere_iff.1 named
      exact .of_alikeAt (alikeAt_modifyChild tidy name
        (fun child mem => .refl (below child mem) (names child mem))
        (fun child mem => ih (below child mem) (names child mem)) slot)

/-- Below a node itself, the position does not change the node. -/
theorem alikeAt_modify (wellFormed : schema.WellFormed) (named : schema.Everywhere Named)
    (alive : live reference) {path : List Slot} (below : path ≠ []) :
    AlikeAt (Respelled live) (schema.modify path fun _ => site.wrapping reference)
      (schema.modify path fun _ => site.referring reference) := by
  cases path with
  | nil => exact absurd rfl below
  | cons slot path =>
      obtain ⟨tidy, children⟩ := everywhere_iff.1 wellFormed
      obtain ⟨name, names⟩ := everywhere_iff.1 named
      exact alikeAt_modifyChild tidy name
        (fun child mem => .refl (children child mem) (names child mem))
        (fun child mem => respelled_modify (children child mem) (names child mem) alive path) slot

end Schema

namespace Document

variable {document : Document} {first second : Schema → Schema} {schema : Schema}
  {position : Site}

theorem forall₂_definitions_modifyAt {R : String → Schema → Schema → Prop}
    (root : document.root = .apart schema)
    (same : ∀ definition ∈ document.definitions, position.definition ≠ some definition.1 →
      R definition.1 definition.2 definition.2)
    (changed : ∀ definition ∈ document.definitions, position.definition = some definition.1 →
      R definition.1 (definition.2.modify position.path first)
        (definition.2.modify position.path second)) :
    List.Forall₂ (fun definition other => definition.1 = other.1 ∧
        R definition.1 definition.2 other.2)
      (document.modifyAt position first).definitions
      (document.modifyAt position second).definitions := by
  obtain ⟨definition, path⟩ := position
  cases definition with
  | none =>
      simp only [modifyAt, modifySchema, root]
      exact List.forall₂_same.2 fun definition mem =>
        ⟨rfl, same definition mem (Option.some_ne_none _).symm⟩
  | some changedName =>
      simp only [modifyAt, modifyDefinition]
      rw [List.forall₂_map_left_iff, List.forall₂_map_right_iff, List.forall₂_same]
      intro definition mem
      split
      · next here => exact ⟨rfl, changed definition mem (congrArg some here.symm)⟩
      · next elsewhere =>
          exact ⟨rfl, same definition mem fun here => elsewhere (Option.some.inj here).symm⟩

theorem root_modifyAt (root : document.root = .apart schema) (change : Schema → Schema) :
    (document.modifyAt position change).root =
      .apart (if position.definition = none then schema.modify position.path change
        else schema) := by
  obtain ⟨definition, path⟩ := position
  cases definition with
  | none => simp [modifyAt, modifySchema, root]
  | some changed => simp [modifyAt, modifyDefinition, root]

theorem keys_modifyAt (root : document.root = .apart schema) (change : Schema → Schema) :
    Members.keys (document.modifyAt position change).definitions =
      Members.keys document.definitions := by
  obtain ⟨definition, path⟩ := position
  cases definition with
  | none => simp [modifyAt, modifySchema, root]
  | some changed =>
      simp only [modifyAt, modifyDefinition, Members.keys, List.map_map]
      refine List.map_congr_left fun entry _ => ?_
      rw [Function.comp_apply]
      split <;> rfl

end Document

end SchemaStream
