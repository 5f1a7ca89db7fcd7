import SchemaStream.Proofs.Schema.Edits

/-!
# Augmentation in an arena

Augmenting the node at a place comes to what augmenting its schema does.  The invariant is again
that no place comes twice: an added field is a node of its own, and a property whose quote marker
is used up before it is visited is changed at its one place.
-/

namespace SchemaStream

open Outcome (Settles)

variable {nodes mid nodes' : Nodes} {tree : Placed} {place : Nat} {shape : Shape Placed}

namespace Nodes

/-! ## Visits -/

/-- Wherever the tree stands, it is augmented there. -/
def Augments (tree : Placed) : Prop :=
  ∀ slot, Turns (fun depth => augment depth slot tree.place) [tree] [tree.schema.augmentNode slot]

/-- With its quote marker or without, the tree is augmented where it stands. -/
def Visitable (tree : Placed) : Prop :=
  Augments tree ∧ Augments (tree.withoutMarker .sourceQuote)

theorem Visitable.withoutMarker (visitable : Visitable tree) :
    Visitable (tree.withoutMarker .sourceQuote) := by
  refine ⟨visitable.2, ?_⟩
  rw [Placed.withoutMarker_withoutMarker]
  exact visitable.2

theorem Visitable.item (visitable : Visitable tree) :
    Turns (fun depth => augmentItem (augment depth) tree.place) [tree]
      [let item := tree.schema.augmentNode (some Schema.itemSlot)
        if tree.schema.isLeaf then item.withoutMarker .sourceQuote else item] := by
  have leaf : tree.schema.outlined.isLeaf = tree.schema.isLeaf :=
    (Schema.sameTraits_outlined tree.schema).isLeaf
  have read (nodes : Nodes) (laid : Laid nodes [tree]) (depth : Nat) :
      (augmentItem (augment depth) tree.place).run nodes =
        (do
          (if tree.schema.isLeaf then removeMarker tree.place else pure ())
          augment depth (some Schema.itemSlot) tree.place : NodeEditor Unit).run nodes := by
    rw [augmentItem, StateT.run_bind, run_outlineAt (laid.stored tree List.mem_cons_self)]
    simp only [Option.bind_eq_bind, Option.bind_some, leaf]
  cases bare : tree.schema.isLeaf with
  | false =>
      refine (visitable.1 (some Schema.itemSlot)).congr fun nodes laid depth => ?_
      rw [read nodes laid depth, bare]
      rfl
  | true =>
      intro nodes laid
      obtain ⟨mid, removes, first⟩ := exists_removeMarker laid
      obtain ⟨trees, nodes', settles, there, same, second⟩ :=
        visitable.2 (some Schema.itemSlot) mid first.laid
      rw [tree.place_withoutMarker] at settles
      refine ⟨trees, nodes', ?_, ?_, ?_, first.trans second⟩
      · simp only [read nodes laid, bare, if_true]
        exact (Settles.of_eq fun _ => removes).run_bind settles
      · rw [there, List.map_singleton, tree.place_withoutMarker, List.map_singleton]
      · rw [same, tree.schema_withoutMarker, Schema.augmentNode_withoutMarker]
        rfl

section

variable {edit : Nat → NodeEditor Unit} {f : Schema → Schema}
  (below : ∀ child ∈ shape.children, Visitable child)
  (properties : Turns edit (shape.properties.map Prod.snd)
    ((shape.properties.map Prod.snd).map fun child => f child.schema))
include below properties

/-- The children of a node, its properties by themselves, the items and the members of unions
visited, those of an `allOf` left alone. -/
theorem turns_children (slot : Option String) :
    Turns (fun depth => do
        edit depth
        (shape.items.toList.map Placed.place).forM (augmentItem (augment depth))
        ((shape.anyOf ++ shape.oneOf).map Placed.place).forM (augment depth slot))
      shape.children
      ((shape.properties.map Prod.snd).map (fun child => f child.schema) ++
        ((Schema.augmentItems (shape.items.map Placed.schema)).toList ++
        ((shape.anyOf.map fun child => child.schema.augmentNode slot) ++
        ((shape.oneOf.map fun child => child.schema.augmentNode slot) ++
          shape.allOf.map Placed.schema)))) := by
  rw [Shape.children_eq, Shape.otherChildren] at below ⊢
  simp only [List.forall_mem_append] at below
  obtain ⟨-, item, anyOf, oneOf, -⟩ := below
  have items := Turns.forM (fun depth => augmentItem (augment depth))
    fun child mem => (item child mem).item
  have members := Turns.forM (fun depth => augment depth slot) (List.forall_mem_append.2
    ⟨fun child mem => (anyOf child mem).1 slot, fun child mem => (oneOf child mem).1 slot⟩)
  have all := properties.append (items.append (members.append (.skip shape.allOf)))
  rw [Schema.augmentItems_eq_map, Option.map_map, Option.toList_map]
  simpa only [List.map_append, List.append_assoc, bind_pure_unit, Function.comp_def] using all

theorem turns_node (place : Nat) (slot : Option String) :
    Turns (fun depth => do
        edit depth
        (shape.items.toList.map Placed.place).forM (augmentItem (augment depth))
        ((shape.anyOf ++ shape.oneOf).map Placed.place).forM (augment depth slot))
      [.node place shape]
      [{ (Placed.node place shape).schema with
        properties := Members.mapValues f (Placed.node place shape).schema.properties
        items := Schema.augmentItems (Placed.node place shape).schema.items
        anyOf := (Placed.node place shape).schema.anyOf.map (Schema.augmentNode slot)
        oneOf := (Placed.node place shape).schema.oneOf.map (Schema.augmentNode slot) }] := by
  have turned := (turns_children below properties slot).node place
  have item : shape.items.toList.length =
      (Schema.augmentItems (shape.items.map Placed.schema)).toList.length := by
    rw [Schema.augmentItems_eq_map]
    cases shape.items <;> rfl
  have zip := Members.zip_keys_append (fun child : Placed => f child.schema) shape.properties []
  rw [List.append_nil] at zip
  rw [Shape.withChildren_append (List.length_map _).symm item (List.length_map _).symm
    (List.length_map _).symm, zip] at turned
  rw [Placed.schema_node]
  simpa only [Shape.schema, Shape.map, List.map_map, Members.mapValues, Function.comp_def]
    using turned

end

theorem run_augment (stored : Stored nodes (.node place shape)) (slot : Option String)
    (depth : Nat) : (augment (depth + 1) slot place).run nodes =
      (do
        (if (Placed.node place shape).schema.describesObject then
          augmentObject (augment depth) slot place else pure ())
        (shape.items.toList.map Placed.place).forM (augmentItem (augment depth))
        ((shape.anyOf ++ shape.oneOf).map Placed.place).forM
          (augment depth ((Placed.node place shape).schema.memberSlot slot)) :
        NodeEditor Unit).run nodes := by
  have own := (Stored.node_iff.1 stored).1
  have read := run_outlineAt stored
  rw [Placed.place] at read
  have describes := (Schema.sameTraits_outlined (Placed.node place shape).schema).describesObject
  have memberSlot := Schema.memberSlot_outlined slot (Placed.node place shape).schema
  rw [Schema.memberSlot, describes] at memberSlot
  rw [augment, StateT.run_bind, read]
  simp only [Option.bind_eq_bind, Option.bind_some, StateT.run_bind, run_nodeAt own, describes,
    memberSlot]
  simp only [Shape.map, ← Option.toList_map, ← List.map_append]

/-! ## Nodes that describe no object -/

theorem augments_of_plain (plain : (Placed.node place shape).schema.describesObject = false)
    (below : ∀ child ∈ shape.children, Visitable child) :
    Augments (.node place shape) := by
  intro slot nodes laid
  have stay : Turns (fun _ => pure ()) (shape.properties.map Prod.snd)
      ((shape.properties.map Prod.snd).map fun child => id child.schema) := .skip _
  obtain ⟨trees, nodes', settles, there, same, changed⟩ :=
    turns_node below stay place ((Placed.node place shape).schema.memberSlot slot) nodes laid
  refine ⟨trees, nodes', settles.succ fun depth => ?_, there, ?_, changed⟩
  · rw [Placed.place, run_augment (laid.stored _ List.mem_cons_self), plain]
    rfl
  · rw [same, Schema.augmentNode_eq, Schema.augmentedProperties, Schema.augmentedRequired, plain]
    simp [Members.mapValues]

theorem visitable_field (place : Nat) (description : String) :
    Visitable (.field place (Schema.textField description)) := by
  have bare (shape : Shape Placed) (none : shape.children = []) :
      ∀ child ∈ shape.children, Visitable child := by
    rw [none]
    exact List.forall_mem_nil _
  have childless : ((Schema.textField description).shape.withChildren
      ([] : List Placed)).children = [] :=
    Shape.children_withChildren _ _
  constructor
  · exact augments_of_plain (by rw [Placed.schema_node]; rfl) (bare _ childless)
  · exact augments_of_plain (by rw [Placed.schema_node]; rfl) (bare _ childless)

/-! ## What is put into an object -/

theorem exists_addFieldIfAny (field : Option (String × Schema))
    (added : ∀ sibling, field = some sibling → Schema.Added sibling) (nodes : Nodes) :
    ∃ siblings nodes', (addFieldIfAny field).run nodes =
        some (Members.mapValues Placed.place siblings, nodes') ∧
      Members.mapValues Placed.schema siblings = field.toList ∧
      Changed nodes nodes' [] (siblings.map Prod.snd) ∧
      ∀ sibling ∈ siblings, Visitable sibling.2 := by
  cases field with
  | none => exact ⟨[], nodes, rfl, rfl, .refl (.nil nodes), nofun⟩
  | some sibling =>
      obtain ⟨name, schema⟩ := sibling
      obtain ⟨description, rfl⟩ := (added _ rfl).text
      have schema := Placed.schema_field nodes.size description
      refine ⟨[(name, .field nodes.size (Schema.textField description))], _, rfl, ?_, ?_, ?_⟩
      · rw [Members.mapValues, List.map_singleton, schema]
        rfl
      · exact .push_field nodes (Schema.textField description)
      · exact List.forall_mem_singleton.2 (visitable_field _ _)

theorem exists_placeProperty (visitable : Visitable tree)
    (laid : Laid nodes [tree]) (existing : List String) (name : String) : ∃ block nodes',
      (placeProperty existing name tree.place).run nodes =
        some (Members.mapValues Placed.place block, nodes') ∧
      Members.mapValues Placed.schema block = Schema.accompanied existing (name, tree.schema) ∧
      Changed nodes nodes' [tree] (block.map Prod.snd) ∧
      ∀ property ∈ block, Visitable property.2 := by
  rw [placeProperty, Schema.accompanied]
  split
  · exact ⟨[(name, tree)], nodes, rfl, rfl, .refl laid, List.forall_mem_singleton.2 visitable⟩
  · have alone {α : Type} (f : Placed → α) : Members.mapValues f
        [(name, tree.withoutMarker .sourceQuote)] =
          [(name, f (tree.withoutMarker .sourceQuote))] := rfl
    have read := run_outlineAt (laid.stored tree List.mem_cons_self)
    obtain ⟨reasoning, mid, leads, before, first, holds⟩ := exists_addFieldIfAny
      (Schema.reasoningSibling? existing name tree.schema)
      (fun _ => Schema.added_of_reasoningSibling?) nodes
    obtain ⟨last, removes, second⟩ := exists_removeMarker (first.keeps laid)
    obtain ⟨quote, nodes', trails, after, third, holds'⟩ := exists_addFieldIfAny
      (Schema.sourceSibling? existing name tree.schema)
      (fun _ => Schema.added_of_sourceSibling?) last
    refine ⟨reasoning ++ [(name, tree.withoutMarker .sourceQuote)] ++ quote, nodes', ?_, ?_, ?_, ?_⟩
    · rw [StateT.run_bind, read]
      simp only [Option.bind_eq_bind, Option.bind_some, Schema.reasoningSibling?_outlined,
        Schema.sourceSibling?_outlined, StateT.run_bind, leads, removes, trails]
      rw [Members.mapValues_append, Members.mapValues_append, alone, tree.place_withoutMarker]
      rfl
    · rw [Members.mapValues_append, Members.mapValues_append, before, after, alone,
        tree.schema_withoutMarker]
    · rw [List.map_append, List.map_append]
      have all := (first.append second laid).append third (by rwa [List.append_nil])
      rwa [List.append_nil] at all
    · simp only [List.forall_mem_append, List.forall_mem_singleton]
      exact ⟨⟨holds, visitable.withoutMarker⟩, holds'⟩

theorem exists_placeProperties {properties : List (String × Placed)}
    (each : ∀ property ∈ properties, Visitable property.2)
    (laid : Laid nodes (properties.map Prod.snd)) (existing required : List String) :
    ∃ all nodes', (placeProperties existing required
        (Members.mapValues Placed.place properties)).run nodes =
        some ((Members.mapValues Placed.place all,
          (Members.mapValues Placed.schema properties).foldl
            (Schema.requireSiblings existing) required), nodes') ∧
      Members.mapValues Placed.schema all =
        (Members.mapValues Placed.schema properties).flatMap (Schema.accompanied existing) ∧
      Changed nodes nodes' (properties.map Prod.snd) (all.map Prod.snd) ∧
      ∀ property ∈ all, Visitable property.2 := by
  induction properties generalizing nodes required with
  | nil => exact ⟨[], nodes, rfl, rfl, .refl (.nil nodes), nofun⟩
  | cons property rest ih =>
      obtain ⟨name, tree⟩ := property
      rw [List.forall_mem_cons] at each
      have apart : Laid nodes ([tree] ++ rest.map Prod.snd) := laid
      have read := run_outlineAt (apart.stored tree List.mem_cons_self)
      obtain ⟨block, mid, first, same, changed, holds⟩ :=
        exists_placeProperty each.1 apart.append_left existing name
      obtain ⟨others, nodes', second, same', changed', holds'⟩ := ih each.2 (changed.keeps apart)
        (Schema.requireSiblings existing required (name, tree.schema))
      refine ⟨block ++ others, nodes', ?_, ?_, ?_, ?_⟩
      · rw [Members.mapValues, List.map_cons, placeProperties, StateT.run_bind, read]
        simp only [Option.bind_eq_bind, Option.bind_some, Schema.requireSiblings_outlined,
          StateT.run_bind, first]
        rw [← Members.mapValues, second, Members.mapValues_append]
        rfl
      · rw [Members.mapValues_append, same, same']
        rfl
      · rw [List.map_append]
        exact changed.append changed' apart
      · exact List.forall_mem_append.2 ⟨holds, holds'⟩

/-- The reasoning field of an object comes before its properties. -/
theorem exists_insertSelf (laid : Laid nodes [.node place shape]) (slot : Option String) :
    ∃ self nodes', (insertSelf slot place).run nodes = some ((), nodes') ∧
      Members.mapValues Placed.schema self =
        ((Placed.node place shape).schema.selfReasoning? slot).toList ∧
      Changed nodes nodes' [.node place shape]
        [.node place (shape.withProperties (self ++ shape.properties)
          (Members.keys self ++ shape.required))] ∧
      ∀ property ∈ self, Visitable property.2 := by
  obtain ⟨own, -, below⟩ := Laid.singleton_iff.1 laid
  have low : place < nodes.size := (Array.getElem?_eq_some_iff.1 own).1
  have read := run_outlineAt (laid.stored _ List.mem_cons_self)
  rw [Placed.place] at read
  obtain ⟨self, mid, adds, same, changed, holds⟩ := exists_addFieldIfAny
    ((Placed.node place shape).schema.selfReasoning? slot)
    (fun _ => Schema.added_of_selfReasoning?) nodes
  have there := (changed.elsewhere place low List.not_mem_nil).trans own
  have after : Changed nodes mid shape.children (shape.withProperties (self ++ shape.properties)
      (Members.keys self ++ shape.required)).children := by
    rw [Shape.children_withProperties, List.map_append, List.append_assoc, ← Shape.children_eq]
    exact changed.beside (by exact below)
  refine ⟨self, _, ?_, same, after.put laid, holds⟩
  rw [insertSelf, StateT.run_bind, read]
  simp only [Option.bind_eq_bind, Option.bind_some, Schema.selfReasoning?_outlined,
    StateT.run_bind, adds, run_nodeAt there]
  rw [Shape.map_withProperties, Members.mapValues_append, Members.keys_mapValues]
  rfl

/-- The properties of an object stand between their siblings. -/
theorem exists_augmentProperties (laid : Laid nodes [.node place shape])
    (each : ∀ property ∈ shape.properties, Visitable property.2) :
    ∃ properties nodes', (augmentProperties place).run nodes = some ((), nodes') ∧
      Members.mapValues Placed.schema properties =
        (Members.mapValues Placed.schema shape.properties).flatMap
          (Schema.accompanied (Members.keys shape.properties)) ∧
      Changed nodes nodes' [.node place shape]
        [.node place (shape.withProperties properties
          ((Members.mapValues Placed.schema shape.properties).foldl
            (Schema.requireSiblings (Members.keys shape.properties)) shape.required))] ∧
      ∀ property ∈ properties, Visitable property.2 := by
  obtain ⟨own, outside, below⟩ := Laid.singleton_iff.1 laid
  have low : place < nodes.size := (Array.getElem?_eq_some_iff.1 own).1
  rw [Shape.children_eq] at outside below
  obtain ⟨properties, mid, places, same, changed, holds⟩ := exists_placeProperties each
    below.append_left (Members.keys shape.properties) shape.required
  have there := (changed.elsewhere place low fun mem => outside (by
    rw [List.flatMap_append]
    exact List.mem_append_left _ mem)).trans own
  have after (required : List String) : Changed nodes mid shape.children
      (shape.withProperties properties required).children := by
    rw [Shape.children_withProperties, Shape.children_eq]
    exact changed.beside below
  refine ⟨properties, _, ?_, same, (after _).put laid, holds⟩
  have names : Members.keys (shape.map Placed.place).properties = Members.keys shape.properties :=
    Members.keys_mapValues Placed.place shape.properties
  have places : (placeProperties (Members.keys shape.properties) (shape.map Placed.place).required
      (shape.map Placed.place).properties).run nodes = _ := places
  rw [augmentProperties, StateT.run_bind, run_nodeAt own]
  simp only [Option.bind_eq_bind, Option.bind_some, names, StateT.run_bind, places,
    run_nodeAt there]
  rw [Shape.map_withProperties]
  rfl

/-! ## Objects -/

/-- Before its properties are visited, an object holds them with all fields that are added. -/
theorem exists_placed (describes : (Placed.node place shape).schema.describesObject = true)
    (laid : Laid nodes [.node place shape])
    (each : ∀ property ∈ shape.properties, Visitable property.2) (slot : Option String) :
    ∃ properties nodes',
      (do insertSelf slot place; augmentProperties place : NodeEditor Unit).run nodes =
        some ((), nodes') ∧
      Members.mapValues (Schema.augmentNode none) (Members.mapValues Placed.schema properties) =
        (Placed.node place shape).schema.augmentedProperties slot ∧
      Changed nodes nodes' [.node place shape] [.node place (shape.withProperties properties
        ((Placed.node place shape).schema.augmentedRequired slot))] ∧
      ∀ property ∈ properties, Visitable property.2 := by
  obtain ⟨self, mid, inserts, reasons, changed, holds⟩ := exists_insertSelf laid slot
  obtain ⟨properties, nodes', places, accompanied, changed', holds'⟩ :=
    exists_augmentProperties changed.laid (List.forall_mem_append.2 ⟨holds, each⟩)
  have own : Members.mapValues Placed.schema shape.properties =
      (Placed.node place shape).schema.properties := by
    rw [Placed.schema_node]
    rfl
  have taken : Members.keys (self ++ shape.properties) =
      (Placed.node place shape).schema.takenNames slot := by
    rw [Schema.takenNames, ← reasons, ← own, ← Members.mapValues_append, Members.keys_mapValues]
  have first : Members.keys self =
      Members.keys ((Placed.node place shape).schema.selfReasoning? slot).toList := by
    rw [← reasons, Members.keys_mapValues]
  have required : shape.required = (Placed.node place shape).schema.required := by
    rw [Placed.schema_node]
    rfl
  simp only [Shape.withProperties, taken, Members.mapValues_append, reasons, own, first,
    required] at accompanied changed'
  rw [Schema.foldl_requireSiblings_self slot describes] at changed'
  rw [first, required] at changed
  refine ⟨properties, nodes', ?_, ?_, changed.trans changed', holds'⟩
  · rw [StateT.run_bind, inserts]
    exact places
  · rw [accompanied, Schema.mapValues_flatMap_accompanied slot describes]

theorem run_augmentObject {visit : Option String → Nat → NodeEditor Unit} {slot : Option String}
    {node : Shape Nat}
    (prepares : (do insertSelf slot place; augmentProperties place : NodeEditor Unit).run nodes =
      some ((), mid)) (own : mid[place]? = some node) :
    (augmentObject visit slot place).run nodes =
      ((node.properties.map Prod.snd).forM (visit none)).run mid := by
  rw [augmentObject, ← bind_assoc, StateT.run_bind, prepares, Option.bind_eq_bind, Option.bind_some,
    StateT.run_bind, run_nodeAt own]
  rfl

theorem augments_of_describes (describes : (Placed.node place shape).schema.describesObject = true)
    (below : ∀ child ∈ shape.children, Visitable child) : Augments (.node place shape) := by
  intro slot nodes laid
  rw [Shape.children_eq, List.forall_mem_append, List.forall_mem_map] at below
  obtain ⟨properties, mid, prepares, augmented, changed, holds⟩ :=
    exists_placed describes laid below.1 slot
  have below : ∀ child ∈ (shape.withProperties properties
      ((Placed.node place shape).schema.augmentedRequired slot)).children, Visitable child := by
    rw [Shape.children_withProperties, List.forall_mem_append, List.forall_mem_map]
    exact ⟨holds, below.2⟩
  have each : ∀ child ∈ properties.map Prod.snd, Turns (fun depth => augment depth none child.place)
      [child] [child.schema.augmentNode none] :=
    List.forall_mem_map.2 fun property mem => (holds property mem).1 none
  obtain ⟨trees, nodes', settles, there, same, changed'⟩ := turns_node below (.forM _ each) place
    ((Placed.node place shape).schema.memberSlot slot) mid changed.laid
  refine ⟨trees, nodes', settles.succ fun depth => ?_, there, ?_, changed.trans changed'⟩
  · have own := (Laid.singleton_iff.1 changed.laid).1
    rw [Placed.place, run_augment (laid.stored _ List.mem_cons_self), describes, if_pos rfl]
    rw [StateT.run_bind, run_augmentObject prepares own, Shape.map_withProperties]
    simp only [Shape.withProperties, Members.map_snd_mapValues]
    rfl
  · rw [same, Schema.augmentNode_eq, ← augmented, Placed.schema_node, Placed.schema_node]
    rfl

/-! ## Trees -/

theorem visitable (tree : Placed) : Visitable tree := by
  have augments (place : Nat) (shape : Shape Placed)
      (below : ∀ child ∈ shape.children, Visitable child) : Augments (.node place shape) := by
    cases describes : (Placed.node place shape).schema.describesObject with
    | false => exact augments_of_plain describes below
    | true => exact augments_of_describes describes below
  induction tree using Placed.induct with
  | node place shape ih =>
      exact ⟨augments place shape ih, augments place (shape.withoutMarker .sourceQuote) ih⟩

/-- A tree becomes its augmented schema where it stands, and nothing else changes. -/
theorem exists_augment (laid : Laid nodes [tree]) (slot : Option String) : ∃ tree' nodes',
    Settles (fun depth => (augment depth slot tree.place).run nodes) ((), nodes') ∧
      tree'.place = tree.place ∧ tree'.schema = tree.schema.augmentNode slot ∧
      Changed nodes nodes' [tree] [tree'] := by
  obtain ⟨trees, nodes', settles, there, same, changed⟩ := (visitable tree).1 slot nodes laid
  obtain ⟨tree', rfl, stays⟩ := List.map_eq_singleton_iff.1 there
  exact ⟨tree', nodes', settles, stays, List.singleton_inj.1 same, changed⟩

end Nodes

end SchemaStream
