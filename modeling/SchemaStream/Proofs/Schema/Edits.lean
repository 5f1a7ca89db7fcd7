import SchemaStream.Proofs.Schema.Changes
import SchemaStream.Proofs.Schema.Outlines

/-!
# Changing nodes where they stand

An edit may change a node, or put a new one at the end of the arena.  Edits of trees that stand
apart compose, and what an edit makes of the children of a node it makes of the node.
-/

namespace SchemaStream

open Outcome (Settles)

variable {nodes mid nodes' : Nodes} {old new trees others : List Placed} {tree : Placed}
  {place : Nat} {shape : Shape Placed}

namespace Shape

variable {α β : Type}

theorem map_withProperties (shape : Shape α) (f : α → β) (properties : List (String × α))
    (required : List String) : (shape.withProperties properties required).map f =
      (shape.map f).withProperties (Members.mapValues f properties) required := rfl

def otherChildren (shape : Shape α) : List α :=
  shape.items.toList ++ (shape.anyOf ++ (shape.oneOf ++ shape.allOf))

theorem children_eq (shape : Shape α) :
    shape.children = shape.properties.map Prod.snd ++ shape.otherChildren := by
  simp only [children, otherChildren, List.append_assoc]

theorem children_withProperties (shape : Shape α) (properties : List (String × α))
    (required : List String) : (shape.withProperties properties required).children =
      properties.map Prod.snd ++ shape.otherChildren :=
  children_eq _

end Shape

namespace Placed

def withoutMarker : Placed → Marker → Placed
  | node place shape, marker => node place (shape.withoutMarker marker)

/-- A schema at a place, without its children. -/
def field (place : Nat) (schema : Schema) : Placed :=
  node place (schema.shape.withChildren [])

theorem place_withoutMarker (tree : Placed) (marker : Marker) :
    (tree.withoutMarker marker).place = tree.place := by
  cases tree
  rfl

theorem schema_withoutMarker (tree : Placed) (marker : Marker) :
    (tree.withoutMarker marker).schema = tree.schema.withoutMarker marker := by
  cases tree
  rw [withoutMarker, schema_node, schema_node]
  rfl

theorem withoutMarker_withoutMarker (tree : Placed) (marker : Marker) :
    (tree.withoutMarker marker).withoutMarker marker = tree.withoutMarker marker := by
  cases tree
  simp [withoutMarker, Shape.withoutMarker, Members.erase]

theorem schema_field (place : Nat) (description : String) :
    (field place (Schema.textField description)).schema = Schema.textField description := by
  rw [field, schema_node]
  rfl

end Placed

theorem Changed.push_field (nodes : Nodes) (schema : Schema) :
    Changed nodes (nodes.push (schema.shape.withChildren [])) [] [.field nodes.size schema] := by
  have below : Changed nodes nodes [] (schema.shape.withChildren ([] : List Placed)).children := by
    rw [Shape.children_withChildren]
    exact .refl (.nil nodes)
  have pushed := below.push
  rwa [Shape.map_withChildren] at pushed

namespace Nodes

/-! ## What edits read and write -/

theorem run_nodeAt {node : Shape Nat} (own : nodes[place]? = some node) :
    (nodeAt place).run nodes = some (node, nodes) := by
  rw [nodeAt, StateT.run_bind, StateT.run_get, pure_bind, own]
  rfl

theorem run_outlineAt (stored : Stored nodes tree) :
    (outlineAt tree.place).run nodes = some (tree.schema.outlined, nodes) := by
  rw [outlineAt, StateT.run_bind, StateT.run_get, pure_bind, stored.outline?]
  rfl

theorem exists_removeMarker (laid : Laid nodes [tree]) : ∃ nodes',
    (removeMarker tree.place).run nodes = some ((), nodes') ∧
      Changed nodes nodes' [tree] [tree.withoutMarker .sourceQuote] := by
  obtain ⟨place, shape⟩ := tree
  obtain ⟨own, -, below⟩ := Laid.singleton_iff.1 laid
  have changed : Changed nodes nodes shape.children (shape.withoutMarker .sourceQuote).children :=
    .refl below
  refine ⟨_, ?_, changed.put laid⟩
  rw [removeMarker, Placed.place, StateT.run_bind, run_nodeAt own]
  rfl

/-! ## Edits of trees -/

/-- The edit turns the trees, where they stand, into trees of the schemas. -/
def Turns (edit : Nat → NodeEditor Unit) (trees : List Placed) (schemas : List Schema) : Prop :=
  ∀ nodes, Laid nodes trees → ∃ trees' nodes',
    Settles (fun depth => (edit depth).run nodes) ((), nodes') ∧
    trees'.map Placed.place = trees.map Placed.place ∧
    trees'.map Placed.schema = schemas ∧ Changed nodes nodes' trees trees'

namespace Turns

variable {edit edit' : Nat → NodeEditor Unit} {schemas schemas' : List Schema}

theorem skip (trees : List Placed) : Turns (fun _ => pure ()) trees (trees.map Placed.schema) :=
  fun nodes laid => ⟨trees, nodes, .pure _, rfl, rfl, .refl laid⟩

theorem append (first : Turns edit trees schemas) (second : Turns edit' others schemas') :
    Turns (fun depth => do edit depth; edit' depth) (trees ++ others) (schemas ++ schemas') := by
  intro nodes laid
  obtain ⟨trees', mid, settles, there, same, changed⟩ := first nodes laid.append_left
  obtain ⟨others', nodes', settles', there', same', changed'⟩ := second mid (changed.keeps laid)
  refine ⟨trees' ++ others', nodes', settles.run_bind settles', ?_, ?_,
    changed.append changed' laid⟩
  · rw [List.map_append, List.map_append, there, there']
  · rw [List.map_append, same, same']

theorem forM (edit : Nat → Nat → NodeEditor Unit) {result : Placed → Schema}
    (each : ∀ tree ∈ trees, Turns (fun depth => edit depth tree.place) [tree] [result tree]) :
    Turns (fun depth => (trees.map Placed.place).forM (edit depth)) trees (trees.map result) := by
  induction trees with
  | nil => exact skip []
  | cons tree rest ih =>
      rw [List.forall_mem_cons] at each
      exact each.1.append (ih each.2)

/-- What changes the children of a node where they stand changes nothing else in the node. -/
theorem node (below : Turns edit shape.children schemas) (place : Nat) :
    Turns edit [.node place shape] [(shape.withChildren schemas).schema] := by
  intro nodes laid
  obtain ⟨own, -, children⟩ := Laid.singleton_iff.1 laid
  obtain ⟨trees, nodes', settles, there, rfl, changed⟩ := below nodes children
  refine ⟨[.node place (shape.withChildren trees)], nodes', settles, rfl, ?_, ?_⟩
  · rw [List.map_singleton, Placed.schema_node, Shape.map_withChildren]
  · refine Changed.below ?_ laid ?_
    · rwa [Shape.children_withChildren]
    · rw [Shape.map_withChildren, there, Shape.withChildren_children]

theorem congr (turns : Turns edit' trees schemas)
    (same : ∀ nodes, Laid nodes trees → ∀ depth, (edit depth).run nodes = (edit' depth).run nodes) :
    Turns edit trees schemas := by
  intro nodes laid
  obtain ⟨trees', nodes', settles, rest⟩ := turns nodes laid
  refine ⟨trees', nodes', ?_, rest⟩
  simpa only [same nodes laid] using settles

end Turns

end Nodes

end SchemaStream
