import SchemaStream.Proofs.Schema.Shapes

/-!
# Schemas laid out in an arena

A placed schema is a tree whose nodes know the places where they stand.  An arena stores it if
each of these places holds the node with the places of its children.  As long as no place comes
twice in a tree, a change at one place changes one node of it, and what is stored elsewhere
stays.
-/

namespace SchemaStream

theorem Shape.sizeOf_lt_of_mem_children {α : Type} [SizeOf α] {shape : Shape α} {child : α}
    (mem : child ∈ shape.children) : sizeOf child < sizeOf shape := by
  obtain ⟨⟩ := shape
  simp only [Shape.children, List.mem_append, List.mem_map, Option.mem_toList] at mem
  simp only [Shape.mk.sizeOf_spec]
  rcases mem with (((⟨⟨name, child⟩, mem, rfl⟩ | item) | mem) | mem) | mem
  · have := List.sizeOf_lt_of_mem mem
    simp only [Prod.mk.sizeOf_spec] at this ⊢
    omega
  · cases item
    simp only [Option.some.sizeOf_spec]
    omega
  all_goals
    have := List.sizeOf_lt_of_mem mem
    omega

/-- A schema with a place for each of its nodes. -/
inductive Placed where
  | node (place : Nat) (shape : Shape Placed)

namespace Placed

def place : Placed → Nat
  | node place _ => place

theorem sizeOf_lt_of_mem_children {place : Nat} {shape : Shape Placed} {child : Placed}
    (mem : child ∈ shape.children) : sizeOf child < sizeOf (node place shape) := by
  have := Shape.sizeOf_lt_of_mem_children mem
  simp only [node.sizeOf_spec]
  omega

/-- To show something of every placed schema, show it of a node from its children. -/
@[elab_as_elim]
theorem induct {motive : Placed → Prop}
    (node : ∀ place shape, (∀ child ∈ shape.children, motive child) → motive (.node place shape)) :
    ∀ tree, motive tree
  | .node place shape => node place shape fun child _ => induct node child
termination_by tree => tree
decreasing_by exact sizeOf_lt_of_mem_children ‹_›

/-- The places of all nodes, each before those below it. -/
def places : Placed → List Nat
  | node place shape => place :: shape.children.attach.flatMap fun child => places child.1
termination_by tree => tree
decreasing_by exact sizeOf_lt_of_mem_children child.2

/-- The schema that is laid out. -/
def schema : Placed → Schema
  | node _ shape =>
      (shape.withChildren (shape.children.attach.map fun child => schema child.1)).schema
termination_by tree => tree
decreasing_by exact sizeOf_lt_of_mem_children child.2

theorem places_node (place : Nat) (shape : Shape Placed) :
    (node place shape).places = place :: shape.children.flatMap places := by
  rw [places, ← List.flatMap_map, List.attach_map_subtype_val]

theorem schema_node (place : Nat) (shape : Shape Placed) :
    (node place shape).schema = (shape.map schema).schema := by
  rw [schema, List.attach_map_val, Shape.withChildren_children]

theorem reference_schema (place : Nat) (shape : Shape Placed) :
    (node place shape).schema.reference = shape.reference := by
  rw [schema_node]
  rfl

theorem allOf_schema (place : Nat) (shape : Shape Placed) :
    (node place shape).schema.allOf = shape.allOf.map schema := by
  rw [schema_node]
  rfl

theorem children_schema (place : Nat) (shape : Shape Placed) :
    (node place shape).schema.children = shape.children.map schema := by
  rw [schema_node, ← Shape.children_shape, Shape.shape_schema, Shape.children_map]

theorem schema_mem_children {shape : Shape Placed} {child : Placed} (place : Nat)
    (mem : child ∈ shape.children) : child.schema ∈ (node place shape).schema.children := by
  rw [children_schema]
  exact List.mem_map_of_mem mem

end Placed

open Placed (places)

/-! ## What an arena stores -/

/-- At each place of the tree stands its node, with the places of the children. -/
inductive Stored (nodes : Nodes) : Placed → Prop
  | node {place : Nat} {shape : Shape Placed} (own : nodes[place]? = some (shape.map Placed.place))
      (below : ∀ child ∈ shape.children, Stored nodes child) : Stored nodes (.node place shape)

namespace Stored

variable {nodes nodes' : Nodes} {tree : Placed} {place : Nat} {shape : Shape Placed}

theorem node_iff : Stored nodes (.node place shape) ↔
    nodes[place]? = some (shape.map Placed.place) ∧ ∀ child ∈ shape.children, Stored nodes child :=
  ⟨fun | node own below => ⟨own, below⟩, fun h => .node h.1 h.2⟩

theorem lt_size (stored : Stored nodes tree) : ∀ place ∈ tree.places, place < nodes.size := by
  induction stored with
  | node own below ih =>
      intro place mem
      rw [Placed.places_node, List.mem_cons, List.mem_flatMap] at mem
      rcases mem with rfl | ⟨child, under, mem⟩
      · exact (Array.getElem?_eq_some_iff.1 own).1
      · exact ih child under place mem

/-- Only what stands at the places of a tree matters for it. -/
theorem congr (stored : Stored nodes tree)
    (same : ∀ place ∈ tree.places, nodes'[place]? = nodes[place]?) : Stored nodes' tree := by
  induction stored with
  | @node place shape own below ih =>
      simp only [Placed.places_node, List.forall_mem_cons, List.forall_mem_flatMap] at same
      exact .node (same.1.trans own) fun child mem => ih child mem (same.2 child mem)

end Stored

end SchemaStream
