import SchemaStream.Proofs.Schema.AddedFields
import SchemaStream.Proofs.Schema.AugmentedAgain
import SchemaStream.Proofs.Schema.Placement
import SchemaStream.Schema.ArenaOperations

/-!
# Nodes with their children

Augmentation looks at a node and at the nodes of its children.  So what it puts beside the
properties of an object, and what it requires, is the same for the node with nothing else below.
-/

namespace SchemaStream

namespace Schema

variable {schema : Schema}

/-- The node, its children without anything below them. -/
def outlined (schema : Schema) : Schema :=
  (schema.shape.map fun child => child.shape.blank).schema

theorem unionMembers_outlined (schema : Schema) :
    schema.outlined.unionMembers = schema.unionMembers.map fun child => child.shape.blank :=
  (List.map_append).symm

theorem kind_outlined (schema : Schema) : schema.outlined.kind = schema.kind := by
  rw [outlined, ← Shape.kind_blank, Shape.blank_map, Shape.kind_blank, Shape.schema_shape]

theorem sameTraits_outlined (schema : Schema) : SameTraits schema.outlined schema where
  describesObject := by
    rw [describesObject, describesObject, isObject, isObject, kind_outlined]
    rfl
  isLeaf := by simp [isLeaf, outlined, Shape.schema, Shape.map, Schema.shape, Members.mapValues]
  prompt? := rfl
  reasoningPrompt? := by
    rw [reasoningPrompt?, reasoningPrompt?, unionMembers_outlined, List.findSome?_map]
    rfl

theorem memberSlot_outlined (slot : Option String) (schema : Schema) :
    schema.outlined.memberSlot slot = schema.memberSlot slot := by
  have objects (child : Schema) : child.shape.blank.describesObject = child.describesObject := by
    rw [Shape.describesObject_blank, Shape.schema_shape]
  rw [memberSlot, memberSlot, (sameTraits_outlined schema).describesObject, unionMembers_outlined,
    List.countP_map]
  simp only [Function.comp_def, objects]

theorem selfReasoning?_outlined (slot : Option String) (schema : Schema) :
    schema.outlined.selfReasoning? slot = schema.selfReasoning? slot := by
  have names (field : String) :
      Members.has schema.outlined.properties field = Members.has schema.properties field :=
    Members.has_mapValues (fun child : Schema => child.shape.blank) schema.properties field
  simp only [selfReasoning?, names]
  rfl

theorem reasoningSibling?_outlined (existing : List String) (name : String) (schema : Schema) :
    reasoningSibling? existing name schema.outlined = reasoningSibling? existing name schema :=
  (sameTraits_outlined schema).reasoningSibling?_eq

theorem sourceSibling?_outlined (existing : List String) (name : String) (schema : Schema) :
    sourceSibling? existing name schema.outlined = sourceSibling? existing name schema := by
  rw [sourceSibling?, sourceSibling?, (sameTraits_outlined schema).isLeaf]
  rfl

theorem requireSiblings_outlined (existing required : List String) (name : String)
    (schema : Schema) : requireSiblings existing required (name, schema.outlined) =
      requireSiblings existing required (name, schema) := by
  simp only [requireSiblings, reasoningSibling?_outlined, sourceSibling?_outlined]

/-! ## Properties before they are visited -/

/-- A property between its siblings, its quote marker used up, but not itself augmented. -/
def accompanied (existing : List String) (property : String × Schema) : List (String × Schema) :=
  if Auxiliary.isAuxiliary property.1 then [property]
  else
    (reasoningSibling? existing property.1 property.2).toList ++
      [(property.1, property.2.withoutMarker .sourceQuote)] ++
      (sourceSibling? existing property.1 property.2).toList

theorem augmentNode_textField (description : String) :
    (textField description).augmentNode none = textField description := by
  rw [augmentNode_eq]
  rfl

theorem Added.augmentNode {field : String × Schema} (added : Added field) :
    field.2.augmentNode none = field.2 := by
  obtain ⟨description, text⟩ := added.text
  rw [text, augmentNode_textField]

/-- To visit a property and its siblings is to visit the property: an added field stays. -/
theorem mapValues_accompanied (existing : List String) (property : String × Schema) :
    Members.mapValues (augmentNode none) (accompanied existing property) =
      placed existing property := by
  have stays {field : Option (String × Schema)} (added : ∀ sibling, field = some sibling →
      Added sibling) : Members.mapValues (augmentNode none) field.toList = field.toList := by
    cases field with
    | none => rfl
    | some sibling =>
        rw [Option.toList_some, Members.mapValues, List.map_singleton,
          (added sibling rfl).augmentNode]
  obtain ⟨name, schema⟩ := property
  rw [accompanied, placed, leading?, trailing?, augmentedProperty]
  split
  · rfl
  · rw [Members.mapValues_append, Members.mapValues_append]
    refine congrArg₂ _ (congrArg₂ _ (stays fun _ => added_of_reasoningSibling?) ?_)
      (stays fun _ => added_of_sourceSibling?)
    rw [Members.mapValues, List.map_singleton, augmentNode_withoutMarker]

/-- Visiting what stands in an object then gives its augmented properties. -/
theorem mapValues_flatMap_accompanied (slot : Option String)
    (describes : schema.describesObject = true) :
    Members.mapValues (augmentNode none)
        (((schema.selfReasoning? slot).toList ++ schema.properties).flatMap
          (accompanied (schema.takenNames slot))) = schema.augmentedProperties slot := by
  have visited (properties : List (String × Schema)) :
      Members.mapValues (augmentNode none)
          (properties.flatMap (accompanied (schema.takenNames slot))) =
        augmentProperties (schema.takenNames slot) properties := by
    rw [augmentProperties_eq_flatMap_placed, Members.mapValues, List.map_flatMap]
    exact List.flatMap_congr fun property _ => mapValues_accompanied _ property
  rw [visited, augmentedProperties_of_describes slot describes,
    augmentProperties_eq_flatMap_placed, augmentProperties_eq_flatMap_placed, List.flatMap_append]
  cases found : schema.selfReasoning? slot with
  | none => rfl
  | some self =>
      have added := added_of_selfReasoning? found
      have alone : placed (schema.takenNames slot) self = [self] := by
        obtain ⟨stays, leading, trailing⟩ := added.steady (schema.takenNames slot)
        rw [placed, stays, leading, trailing]
        rfl
      rw [Option.toList_some, List.flatMap_singleton, alone]

theorem foldl_requireSiblings_self (slot : Option String)
    (describes : schema.describesObject = true) :
    ((schema.selfReasoning? slot).toList ++ schema.properties).foldl
        (requireSiblings (schema.takenNames slot))
        (Members.keys (schema.selfReasoning? slot).toList ++ schema.required) =
      schema.augmentedRequired slot := by
  rw [List.foldl_append, augmentedRequired, if_pos describes, takenNames]
  congr 1
  refine foldl_requireSiblings_of_steady fun field mem => ?_
  exact (added_of_selfReasoning? (Option.mem_toList.1 mem)).steady _

end Schema

/-! ## Outlines in an arena -/

variable {nodes : Nodes} {tree : Placed}

theorem Stored.blank (stored : Stored nodes tree) :
    nodes[tree.place]?.map Shape.blank = some tree.schema.shape.blank := by
  obtain ⟨place, shape⟩ := tree
  rw [Placed.place, (Stored.node_iff.1 stored).1, Option.map_some, Placed.schema_node,
    Shape.shape_schema, Shape.blank_map, Shape.blank_map]

theorem Stored.outline? (stored : Stored nodes tree) :
    nodes.outline? tree.place = some tree.schema.outlined := by
  obtain ⟨place, shape⟩ := tree
  obtain ⟨own, below⟩ := Stored.node_iff.1 stored
  have children : (shape.map Placed.place).children.mapM
      (fun child => nodes[child]?.map Shape.blank) =
        some (shape.children.map fun child => child.schema.shape.blank) := by
    rw [Shape.children_map, List.mapM_map]
    exact Outcome.mapM_eq_some_map fun child mem => (below child mem).blank
  rw [Nodes.outline?, Placed.place, own, Option.bind_eq_bind, Option.bind_some, children,
    Option.bind_eq_bind, Option.bind_some, Shape.withChildren_map, Schema.outlined,
    Placed.schema_node, Shape.shape_schema, ← Shape.withChildren_children (shape.map Placed.schema),
    Shape.withChildren_map, Shape.children_map, List.map_map]
  rfl

end SchemaStream
