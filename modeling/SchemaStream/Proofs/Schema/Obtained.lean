import SchemaStream.Proofs.Schema.Augmented
import SchemaStream.Schema.Place

/-!
# Documents that are obtained

Documents are read or built, and then expanded, augmented, described and given other roots, in
any order.  A property of nodes that the operations on nodes keep holds of all nodes of every
document that is obtained so, wherever its root stands.
-/

namespace SchemaStream

namespace Schema

variable {P : Schema → Prop} {accepts : Json → Prop} {schema source child : Schema}
  {change : Schema → Schema} {slot : Slot} {path : List Slot}

theorem mem_children_of_child? (found : schema.child? slot = some child) :
    child ∈ schema.children := by
  cases slot with
  | property name => exact mem_children_of_properties (Members.mem_of_get?_eq_some found)
  | items => exact mem_children_of_items found
  | anyOf index => exact mem_children_of_anyOf (List.mem_of_getElem? found)
  | oneOf index => exact mem_children_of_oneOf (List.mem_of_getElem? found)
  | allOf index => exact mem_children_of_allOf (List.mem_of_getElem? found)

theorem Everywhere.at? (everywhere : schema.Everywhere P) (found : schema.at? path = some child) :
    child.Everywhere P := by
  induction path generalizing schema with
  | nil =>
      cases found
      exact everywhere
  | cons slot path ih =>
      obtain ⟨next, step, rest⟩ := Option.bind_eq_some_iff.1 found
      exact ih ((everywhere_iff.1 everywhere).2 next (mem_children_of_child? step)) rest

theorem exists_of_mem_modify {children : List Schema} {index : Nat}
    (mem : child ∈ children.modify index change) :
    child ∈ children ∨ ∃ own ∈ children, child = change own := by
  obtain ⟨position, found⟩ := List.mem_iff_getElem?.1 mem
  rw [List.getElem?_modify] at found
  obtain ⟨own, there, same⟩ := Option.map_eq_some_iff.1 found
  have below := List.mem_of_getElem? there
  split at same
  · exact .inr ⟨own, below, same.symm⟩
  · exact .inl (same ▸ below)

/-- A child of a node changed at a slot is a child that it had, or such a child changed. -/
theorem exists_of_mem_children_modifyChild
    (mem : child ∈ (schema.modifyChild slot change).children) :
    child ∈ schema.children ∨ ∃ own ∈ schema.children, child = change own := by
  have list {children : List Schema} {index : Nat} (below : ∀ own ∈ children, own ∈ schema.children)
      (mem : child ∈ children.modify index change) :
      child ∈ schema.children ∨ ∃ own ∈ schema.children, child = change own := by
    rcases exists_of_mem_modify mem with mem | ⟨own, mem, same⟩
    · exact .inl (below child mem)
    · exact .inr ⟨own, below own mem, same⟩
  cases slot with
  | property name =>
      rcases mem_children_iff.1 mem with mem | mem
      · obtain ⟨property, changed, rfl⟩ := List.mem_map.1 mem
        obtain ⟨own, there, rfl⟩ := List.mem_map.1 changed
        have below := mem_children_of_properties there
        split
        · exact .inr ⟨own.2, below, rfl⟩
        · exact .inl below
      · exact .inl (mem_children_iff.2 (.inr mem))
  | items =>
      rcases mem_children_iff.1 mem with mem | mem | mem
      · exact .inl (mem_children_iff.2 (.inl mem))
      · obtain ⟨own, found, same⟩ := Option.map_eq_some_iff.1 mem
        exact .inr ⟨own, mem_children_of_items found, same.symm⟩
      · exact .inl (mem_children_iff.2 (.inr (.inr mem)))
  | anyOf index =>
      rcases mem_children_iff.1 mem with mem | mem | mem | mem
      · exact .inl (mem_children_iff.2 (.inl mem))
      · exact .inl (mem_children_iff.2 (.inr (.inl mem)))
      · exact list (fun _ => mem_children_of_anyOf) mem
      · exact .inl (mem_children_iff.2 (.inr (.inr (.inr mem))))
  | oneOf index =>
      rcases mem_children_iff.1 mem with mem | mem | mem | mem | mem
      · exact .inl (mem_children_iff.2 (.inl mem))
      · exact .inl (mem_children_iff.2 (.inr (.inl mem)))
      · exact .inl (mem_children_iff.2 (.inr (.inr (.inl mem))))
      · exact list (fun _ => mem_children_of_oneOf) mem
      · exact .inl (mem_children_of_allOf mem)
  | allOf index =>
      rcases mem_children_iff.1 mem with mem | mem | mem | mem | mem
      · exact .inl (mem_children_iff.2 (.inl mem))
      · exact .inl (mem_children_iff.2 (.inr (.inl mem)))
      · exact .inl (mem_children_iff.2 (.inr (.inr (.inl mem))))
      · exact .inl (mem_children_of_oneOf mem)
      · exact list (fun _ => mem_children_of_allOf) mem

/-- A property of nodes that no operation on documents can destroy, and that the nodes have which
are read from accepted values. -/
structure Lasting (P : Schema → Prop) (accepts : Json → Prop) : Prop where
  reads : Preserved P accepts
  keeps : Expansion.Keeps P
  augmentable : Augmentable P P
  modified : ∀ {schema : Schema} (slot : Slot) (change : Schema → Schema), P schema →
    P (schema.modifyChild slot change)
  described : ∀ {schema : Schema} (text : String), P schema →
    P { schema with description := some text }

namespace Lasting

variable (lasting : Lasting P accepts)
include lasting

theorem modifyChild (start : schema.Everywhere P)
    (changed : ∀ own ∈ schema.children, (change own).Everywhere P) (slot : Slot) :
    (schema.modifyChild slot change).Everywhere P := by
  obtain ⟨own, children⟩ := everywhere_iff.1 start
  refine everywhere_iff.2 ⟨lasting.modified slot change own, fun child mem => ?_⟩
  rcases exists_of_mem_children_modifyChild mem with mem | ⟨before, below, rfl⟩
  · exact children child mem
  · exact changed before below

theorem modify (start : schema.Everywhere P)
    (changed : ∀ node : Schema, node.Everywhere P → (change node).Everywhere P)
    (path : List Slot) : (schema.modify path change).Everywhere P := by
  induction path generalizing schema with
  | nil => exact changed schema start
  | cons slot path ih =>
      exact lasting.modifyChild start
        (fun own mem => ih ((everywhere_iff.1 start).2 own mem)) slot

theorem withChildrenOf (start : schema.Everywhere P) (other : source.Everywhere P)
    (slots : List Slot) : (schema.withChildrenOf source slots).Everywhere P := by
  rw [Schema.withChildrenOf]
  induction slots generalizing schema with
  | nil => exact start
  | cons slot slots ih =>
      rw [List.foldl_cons]
      refine ih ?_
      split
      · next child found =>
          have below := (everywhere_iff.1 other).2 child (mem_children_of_child? found)
          exact lasting.modifyChild start (fun _ _ => below) slot
      · exact start

end Lasting

/-- Keywords that are carried along are only ever added, moved or taken out by name. -/
theorem lasting_carrying : Lasting Carrying fun _ => True where
  reads := preserved_carrying
  keeps :=
    { overlaid := fun own above =>
        ⟨own.extensions.insertAll above.extensions, own.keywords.insertAll above.keywords⟩
      placed := fun _ own _ => ⟨own.extensions, own.keywords⟩
      folded := fun own member =>
        ⟨own.extensions.insertAllNew member.extensions,
          own.keywords.insertAllNew member.keywords⟩ }
  augmentable :=
    { stays := id
      added := fun _ => ⟨.nil, .nil⟩
      augmented := fun {schema} slot own => by
        rw [augmentNode_eq]
        exact ⟨own.extensions, own.keywords⟩
      withoutMarker := fun own => ⟨own.extensions.erase _, own.keywords⟩ }
  modified := by
    intro schema slot change own
    cases slot <;> exact ⟨own.extensions, own.keywords⟩
  described := fun _ own => ⟨own.extensions, own.keywords⟩

end Schema

namespace Root

/-- The schema that a root holds itself. -/
def own? : Root → Option Schema
  | .apart schema => some schema
  | .within _ _ => none
  | .beside schema _ _ _ => some schema

end Root

namespace Document

open Schema (Lasting)

variable {P : Schema → Prop} {accepts : Json → Prop} {document result : Document}
  {change : Schema → Schema}

/-- A property of all nodes that a document holds, be it in its root or in its definitions. -/
structure Holds (P : Schema → Prop) (document : Document) : Prop where
  root : ∀ schema, document.root.own? = some schema → schema.Everywhere P
  definitions : ∀ definition ∈ document.definitions, definition.2.Everywhere P

/-- What is obtained by reading a document, or building one whose nodes carry along no keywords
with a meaning, and working on it. -/
inductive Obtained : Document → Prop
  | read {value : Json} {document : Document} (read : ofJson value = .ok document) :
      Obtained document
  | built {document : Document} (carrying : document.Holds Schema.Carrying) : Obtained document
  | expanded {document result : Document} (obtained : Obtained document)
      (expands : document.expand = .ok result) : Obtained result
  | augmented {document : Document} (obtained : Obtained document) : Obtained document.augment
  | described {document : Document} (obtained : Obtained document) (site : Site) (text : String) :
      Obtained (document.modifyAt site fun node => { node with description := some text })
  | rerooted {document result : Document} (obtained : Obtained document) (site : Site)
      (found : document.reroot? site = some result) : Obtained result
  | rerootedCopy {document result : Document} (obtained : Obtained document) (site : Site)
      (found : document.rerootCopy? site = some result) : Obtained result

namespace Holds

variable (lasting : Lasting P accepts) (holds : document.Holds P)
include lasting holds

theorem node (definition : String) (path : List Slot) :
    (document.node definition path).Everywhere P := by
  rw [Document.node]
  cases found : (Members.get? document.definitions definition).bind fun body => body.at? path with
  | none => exact lasting.reads.everywhere_empty
  | some node =>
      obtain ⟨body, defined, below⟩ := Option.bind_eq_some_iff.1 found
      exact (holds.definitions _ (Members.mem_of_get?_eq_some defined)).at? below

theorem schema : document.schema.Everywhere P := by
  rw [Document.schema]
  cases h : document.root with
  | apart schema => exact holds.root schema (by rw [h, Root.own?])
  | within definition path => exact holds.node lasting definition path
  | beside schema definition path shared =>
      exact lasting.withChildrenOf (holds.root schema (by rw [h, Root.own?]))
        (holds.node lasting definition path) shared

theorem everywhere : document.Everywhere P :=
  ⟨holds.schema lasting, holds.definitions⟩

theorem at? {site : Site} {node : Schema} (found : document.at? site = some node) :
    node.Everywhere P := by
  rw [Document.at?, Option.bind_eq_some_iff] at found
  obtain ⟨start, first, below⟩ := found
  rw [start?] at first
  split at first
  · cases first
    exact (holds.schema lasting).at? below
  · exact (holds.definitions _ (Members.mem_of_get?_eq_some first)).at? below

omit lasting in
theorem modifyDefinition
    (changed : ∀ body : Schema, body.Everywhere P → (change body).Everywhere P) (name : String) :
    (document.modifyDefinition name change).Holds P := by
  refine ⟨holds.root, fun definition mem => ?_⟩
  obtain ⟨entry, own, rfl⟩ := List.mem_map.1 mem
  have start := holds.definitions entry own
  split
  · exact changed entry.2 start
  · exact start

theorem modifySchema
    (changed : ∀ schema : Schema, schema.Everywhere P → (change schema).Everywhere P) :
    (document.modifySchema change).Holds P := by
  have after := changed document.schema (holds.schema lasting)
  cases h : document.root with
  | apart schema =>
      have same : document.schema = schema := by rw [Document.schema, h]
      simp only [Document.modifySchema, h]
      refine ⟨?_, holds.definitions⟩
      rintro _ ⟨⟩
      exact same ▸ after
  | within definition path =>
      simp only [Document.modifySchema, h]
      exact holds.modifyDefinition (fun body start => lasting.modify start changed path) definition
  | beside schema definition path shared =>
      simp only [Document.modifySchema, h]
      refine ⟨?_, ?_⟩
      · rintro _ ⟨⟩
        exact after
      · have changed (body : Schema) (start : body.Everywhere P) :=
          lasting.modify start (fun _ node => lasting.withChildrenOf node after shared) path
        exact (holds.modifyDefinition changed definition).definitions

theorem modifyAt (changed : ∀ node : Schema, node.Everywhere P → (change node).Everywhere P)
    (site : Site) : (document.modifyAt site change).Holds P := by
  have below (schema : Schema) (start : schema.Everywhere P) :
      (schema.modify site.path change).Everywhere P :=
    lasting.modify start changed site.path
  rw [Document.modifyAt]
  split
  · exact holds.modifySchema lasting below
  · exact holds.modifyDefinition below _

theorem augment : document.augment.Holds P :=
  holds.modifySchema lasting fun _ start => lasting.augmentable.augmentNode start _

theorem describe (site : Site) (text : String) :
    (document.modifyAt site fun node => { node with description := some text }).Holds P := by
  refine holds.modifyAt lasting (fun node start => ?_) site
  obtain ⟨own, children⟩ := Schema.everywhere_iff.1 start
  exact Schema.everywhere_iff.2 ⟨lasting.described text own, children⟩

theorem movedRoot (kept : List String) (schema : Schema)
    (own : (document.movedRoot kept).own? = some schema) : schema.Everywhere P := by
  have root := holds.schema lasting
  rw [Document.movedRoot] at own
  repeat' split at own
  · cases own
  · cases own
    exact root
  · cases own
  · cases own
    exact root
  · cases own
    exact root
  · exact holds.root schema own

theorem expand (expands : document.expand = .ok result) : result.Holds P := by
  simp only [Document.expand, Outcome.bind_eq_ok_iff] at expands
  obtain ⟨schema, first, expands⟩ := expands
  have root : schema.Everywhere P :=
    lasting.keeps.expand (fun definition mem _ => holds.definitions definition mem)
      (holds.schema lasting) first
  split at expands
  · cases expands
    refine ⟨?_, List.forall_mem_nil _⟩
    rintro _ ⟨⟩
    exact root
  · obtain ⟨definitions, second, expands⟩ := Outcome.bind_eq_ok_iff.1 expands
    cases expands
    have set : (document.setSchema schema).Holds P :=
      holds.modifySchema lasting fun _ _ => root
    refine ⟨set.movedRoot lasting _, fun definition mem => ?_⟩
    exact lasting.keeps.expandDefinitions (fun _ _ => trivial)
      (fun definition mem _ => set.definitions definition mem) second definition mem trivial

theorem reroot? {site : Site} (found : document.reroot? site = some result) : result.Holds P := by
  obtain ⟨schema, at_, rfl⟩ := Option.map_eq_some_iff.1 found
  have node := holds.at? lasting at_
  split
  · exact ⟨nofun, holds.definitions⟩
  · refine ⟨fun own same => ?_, holds.definitions⟩
    dsimp only [rootBelow] at same
    split at same
    · cases same
      exact node
    · cases same
    · next h _ =>
        refine holds.root own ?_
        rw [h]
        exact same
    · split at same
      · cases same
      · cases same
        exact node

theorem rerootCopy? {site : Site} (found : document.rerootCopy? site = some result) :
    result.Holds P := by
  obtain ⟨schema, at_, rfl⟩ := Option.map_eq_some_iff.1 found
  refine ⟨?_, holds.definitions⟩
  rintro _ ⟨⟩
  exact holds.at? lasting at_

end Holds

theorem holds_of_ofJson (lasting : Lasting P accepts) {value : Json} (accepted : accepts value)
    (read : ofJson value = .ok document) : document.Holds P := by
  have everywhere := everywhere_of_ofJson lasting.reads accepted read
  refine ⟨fun schema own => ?_, everywhere.definitions⟩
  rw [root_eq_apart read] at own
  cases own
  exact everywhere.schema

/-- Whatever is done to a document, its nodes carry along what they carried along. -/
theorem Obtained.holds_carrying (obtained : document.Obtained) :
    document.Holds Schema.Carrying := by
  have lasting := Schema.lasting_carrying
  induction obtained with
  | read read => exact holds_of_ofJson lasting trivial read
  | built carrying => exact carrying
  | expanded _ expands ih => exact ih.expand lasting expands
  | augmented _ ih => exact ih.augment lasting
  | described _ site text ih => exact ih.describe lasting site text
  | rerooted _ site found ih => exact ih.reroot? lasting found
  | rerootedCopy _ site found ih => exact ih.rerootCopy? lasting found

/-- No node of a document that is obtained carries along a keyword with a meaning. -/
theorem Obtained.carrying (obtained : document.Obtained) : document.Everywhere Schema.Carrying :=
  obtained.holds_carrying.everywhere Schema.lasting_carrying

end Document

end SchemaStream
