import SchemaStream.Proofs.Schema.Changes

/-!
# Copies in an arena

A copy takes new places only, shares none with anything else, and is the same schema.
-/

namespace SchemaStream

open Outcome (Settles)

variable {nodes : Nodes} {tree : Placed} {trees : List Placed}

namespace Placed

theorem schema_withChildren {place : Nat} {children : List Placed} (shape : Shape Placed)
    (same : children.map schema = shape.children.map schema) (other : Nat) :
    (node other (shape.withChildren children)).schema = (node place shape).schema := by
  rw [schema_node, schema_node, Shape.map_withChildren, same, Shape.withChildren_children]

end Placed

/-- Copies of some trees made one after another, given how each is made. -/
theorem Nodes.mapM_deepCopy
    (each : ∀ tree ∈ trees, ∀ nodes, Stored nodes tree → ∃ copy nodes',
      Settles (fun depth => (deepCopy depth tree.place).run nodes) (copy.place, nodes') ∧
      copy.schema = tree.schema ∧ Changed nodes nodes' [] [copy])
    (stored : ∀ tree ∈ trees, Stored nodes tree) : ∃ copies nodes',
      Settles (fun depth => ((trees.map Placed.place).mapM (deepCopy depth)).run nodes)
        (copies.map Placed.place, nodes') ∧
      copies.map Placed.schema = trees.map Placed.schema ∧ Changed nodes nodes' [] copies := by
  induction trees generalizing nodes with
  | nil => exact ⟨[], nodes, .pure _, rfl, .refl (.nil nodes)⟩
  | cons tree rest ih =>
      rw [List.forall_mem_cons] at each stored
      obtain ⟨copy, mid, made, same, changed⟩ := each.1 nodes stored.1
      obtain ⟨copies, nodes', more, others, after⟩ := ih each.2 fun tree mem =>
        changed.stored (stored.2 tree mem) fun _ _ => List.not_mem_nil
      refine ⟨copy :: copies, nodes', ?_, ?_, changed.append after (.nil nodes)⟩
      · simp only [List.map_cons, List.mapM_cons]
        exact made.run_bind (more.run_bind (.pure _))
      · rw [List.map_cons, List.map_cons, same, others]

/-- A node is copied once its children are. -/
theorem Nodes.run_deepCopy {place : Nat} {node : Shape Nat} (own : nodes[place]? = some node)
    (depth : Nat) :
    (deepCopy (depth + 1) place).run nodes = (do
      let children ← node.children.mapM (deepCopy depth)
      modifyGet fun nodes => (nodes.size, nodes.push (node.withChildren children)) :
        StateT Nodes Option Nat).run nodes := by
  rw [deepCopy, StateT.run_bind, StateT.run_get]
  simp only [pure_bind, own]

/-- What stands at a place is copied to new places. -/
theorem Nodes.exists_deepCopy (stored : Stored nodes tree) : ∃ copy nodes',
    Settles (fun depth => (deepCopy depth tree.place).run nodes) (copy.place, nodes') ∧
    copy.schema = tree.schema ∧ Changed nodes nodes' [] [copy] := by
  induction tree using Placed.induct generalizing nodes with
  | node place shape ih =>
      obtain ⟨own, below⟩ := Stored.node_iff.1 stored
      obtain ⟨copies, mid, made, same, changed⟩ := mapM_deepCopy ih below
      have cell : (shape.map Placed.place).withChildren (copies.map Placed.place) =
          (shape.withChildren copies).map Placed.place := by
        rw [Shape.withChildren_map, Shape.map_withChildren]
      refine ⟨.node mid.size (shape.withChildren copies), _,
        .succ (fun depth => run_deepCopy own depth) ?_,
        Placed.schema_withChildren shape same _, .push ?_⟩
      · rw [Shape.children_map, Placed.place, ← cell]
        exact made.run_bind (.pure _)
      · rwa [Shape.children_withChildren]

theorem Nodes.changed_of_mapM_deepCopy {depth : Nat} {list copies : List Nat} {nodes' : Nodes}
    (each : ∀ place nodes copy nodes', (deepCopy depth place).run nodes = some (copy, nodes') →
      ∃ tree, copy = tree.place ∧ Changed nodes nodes' [] [tree])
    (copied : (list.mapM (deepCopy depth)).run nodes = some (copies, nodes')) :
    ∃ trees, copies = trees.map Placed.place ∧ Changed nodes nodes' [] trees := by
  induction list generalizing nodes copies with
  | nil =>
      cases copied
      exact ⟨[], rfl, .refl (.nil _)⟩
  | cons place rest ih =>
      rw [List.mapM_cons, StateT.run_bind] at copied
      obtain ⟨⟨copy, mid⟩, first, copied⟩ := Option.bind_eq_some_iff.1 copied
      rw [StateT.run_bind] at copied
      obtain ⟨⟨others, last⟩, second, copied⟩ := Option.bind_eq_some_iff.1 copied
      cases copied
      obtain ⟨tree, rfl, changed⟩ := each place nodes copy mid first
      obtain ⟨trees, rfl, after⟩ := ih second
      exact ⟨tree :: trees, rfl, changed.append after (.nil _)⟩

/-- Whatever stands at a place, and whoever else leads there, a copy of it is a tree of new
nodes. -/
theorem Nodes.changed_of_deepCopy {depth place copy : Nat} {nodes' : Nodes}
    (copied : (deepCopy depth place).run nodes = some (copy, nodes')) :
    ∃ tree, copy = tree.place ∧ Changed nodes nodes' [] [tree] := by
  induction depth generalizing place nodes copy nodes' with
  | zero => cases copied
  | succ depth ih =>
      cases own : nodes[place]? with
      | none =>
          rw [deepCopy, StateT.run_bind, StateT.run_get] at copied
          simp only [pure_bind, own] at copied
          cases copied
      | some node =>
          rw [run_deepCopy own, StateT.run_bind] at copied
          obtain ⟨⟨children, mid⟩, first, copied⟩ := Option.bind_eq_some_iff.1 copied
          cases copied
          obtain ⟨trees, rfl, changed⟩ :=
            changed_of_mapM_deepCopy (fun place nodes copy nodes' => ih) first
          refine ⟨.node mid.size (node.withChildren trees), rfl, ?_⟩
          have below : Changed nodes mid [] (node.withChildren trees).children := by
            rwa [Shape.children_withChildren]
          have pushed := below.push
          rwa [Shape.map_withChildren] at pushed

end SchemaStream
