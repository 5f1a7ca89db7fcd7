import SchemaStream.Proofs.Schema.ArenaObtained
import SchemaStream.Proofs.Schema.Ways
import Mathlib.Data.List.Nodup

/-!
# The arena is a forest

The edges of a document that is laid out in an arena lead to its places, each to one of them.  As
no place comes twice, no place is entered twice.  So a document stays a forest whatever is done to
it: its nodes can be rendered and copied, and an edit is seen at one site.
-/

namespace SchemaStream

open Outcome (Ends Settles)
open Placed (places)

variable {nodes : Nodes} {tree : Placed}

/-! ## The edges of a layout -/

namespace Placed

/-- The edges below the root of a tree, with the places to which they lead. -/
def edges : Placed → List (Edge × Nat)
  | node place shape => shape.children.attach.zipIdx.flatMap fun child =>
      (.child place child.2, child.1.1.place) :: edges child.1.1
termination_by tree => tree
decreasing_by exact sizeOf_lt_of_mem_children child.1.2

theorem edges_node (place : Nat) (shape : Shape Placed) :
    (node place shape).edges = shape.children.zipIdx.flatMap fun child =>
      (.child place child.2, child.1.place) :: child.1.edges := by
  rw [edges]
  conv_rhs => rw [← List.attach_map_subtype_val shape.children, List.zipIdx_map, List.flatMap_map]
  rfl

/-- An edge leads to each place of a tree but the first, in the order of the places. -/
theorem places_eq_cons (tree : Placed) : tree.places = tree.place :: tree.edges.map Prod.snd := by
  induction tree using Placed.induct with
  | node place shape ih =>
      have numbered : shape.children.flatMap places =
          shape.children.zipIdx.flatMap fun child => child.1.places := by
        conv_lhs => rw [← List.zipIdx_map_fst 0 shape.children, List.flatMap_map]
      rw [places_node, edges_node, List.map_flatMap, numbered]
      refine congrArg (place :: ·) (List.flatMap_congr fun child mem => ?_)
      exact ih child.1 (List.fst_mem_of_mem_zipIdx mem)

theorem mem_edges {place index : Nat} {shape : Shape Placed} {child : Placed}
    (slot : shape.children[index]? = some child) :
    (.child place index, child.place) ∈ (node place shape).edges := by
  rw [edges_node]
  exact List.mem_flatMap.2
    ⟨(child, index), List.mem_zipIdx_iff_getElem?.2 slot, List.mem_cons_self⟩

theorem edges_subset {place : Nat} {shape : Shape Placed} {child : Placed}
    (mem : child ∈ shape.children) : child.edges ⊆ (node place shape).edges := by
  obtain ⟨index, slot⟩ := List.mem_iff_getElem?.1 mem
  intro edge below
  rw [edges_node]
  exact List.mem_flatMap.2 ⟨(child, index), List.mem_zipIdx_iff_getElem?.2 slot,
    List.mem_cons_of_mem _ below⟩

end Placed

namespace Layout

def edges (layout : Layout) : List (Edge × Nat) :=
  (.root, layout.root.place) :: layout.root.edges ++ layout.bodies.zipIdx.flatMap fun body =>
    (.entry body.2, body.1.2.place) :: body.1.2.edges

theorem map_edges (layout : Layout) :
    layout.edges.map Prod.snd = layout.trees.flatMap places := by
  have numbered : (layout.bodies.map Prod.snd).flatMap places =
      layout.bodies.zipIdx.flatMap fun body => body.1.2.places := by
    conv_lhs => rw [← List.zipIdx_map_fst 0 layout.bodies, List.map_map, List.flatMap_map]
    rfl
  rw [edges, trees, List.flatMap_cons, numbered, List.map_append, List.map_flatMap,
    Placed.places_eq_cons, List.map_cons]
  refine congrArg (_ ++ ·) (List.flatMap_congr fun body _ => ?_)
  rw [Placed.places_eq_cons, List.map_cons]

theorem root_edges_subset (layout : Layout) : layout.root.edges ⊆ layout.edges :=
  fun _ mem => List.mem_append_left _ (List.mem_cons_of_mem _ mem)

section

variable {layout : Layout} {index : Nat} {body : String × Placed}
  (listed : layout.bodies[index]? = some body)
include listed

theorem entry_mem_edges : (.entry index, body.2.place) ∈ layout.edges :=
  List.mem_append_right _ (List.mem_flatMap.2
    ⟨(body, index), List.mem_zipIdx_iff_getElem?.2 listed, List.mem_cons_self⟩)

theorem body_edges_subset : body.2.edges ⊆ layout.edges := fun _ mem =>
  List.mem_append_right _ (List.mem_flatMap.2
    ⟨(body, index), List.mem_zipIdx_iff_getElem?.2 listed, List.mem_cons_of_mem _ mem⟩)

end

end Layout

/-! ## Layouts as forests -/

theorem Stored.exists_of_child? (stored : Stored nodes tree) {index place : Nat}
    (slot : nodes.child? tree.place index = some place) : ∃ child : Placed,
      child.place = place ∧ Stored nodes child ∧ child.edges ⊆ tree.edges ∧
        (.child tree.place index, place) ∈ tree.edges ∧ child.places ⊆ tree.places := by
  obtain ⟨here, shape⟩ := tree
  obtain ⟨own, below⟩ := Stored.node_iff.1 stored
  rw [Nodes.child?, Placed.place, own, Option.bind_eq_bind, Option.bind_some, Shape.children_map,
    List.getElem?_map, Option.map_eq_some_iff] at slot
  obtain ⟨child, slot, rfl⟩ := slot
  have mem := List.mem_of_getElem? slot
  refine ⟨child, rfl, below child mem, Placed.edges_subset mem, Placed.mem_edges slot, ?_⟩
  rw [Placed.places_node]
  exact fun place under => List.mem_cons_of_mem _ (List.mem_flatMap.2 ⟨child, mem, under⟩)

/-- What is reached from the root of a tree belongs to the tree. -/
theorem Stored.mem_places_of_path (stored : Stored nodes tree) {path : List Nat} {below : Nat}
    (leads : path.foldlM nodes.child? tree.place = some below) : below ∈ tree.places := by
  induction path generalizing tree with
  | nil =>
      cases leads
      rw [tree.places_eq_cons]
      exact List.mem_cons_self
  | cons index rest ih =>
      rw [List.foldlM_cons] at leads
      obtain ⟨place, slot, leads⟩ := Option.bind_eq_some_iff.1 leads
      obtain ⟨child, rfl, stored', -, -, within⟩ := stored.exists_of_child? slot
      exact within (ih stored' leads)

namespace Arena

variable {arena : Arena} {layout : Layout} {place : Nat} {edge : Edge}

theorem Lays.exists_of_entryPlace? (lays : arena.Lays layout) {index : Nat}
    (found : arena.entryPlace? index = some place) : ∃ body : String × Placed,
      layout.bodies[index]? = some body ∧ body.2.place = place := by
  rw [entryPlace?, lays.definitions, Members.mapValues, List.getElem?_map, Option.map_map,
    Option.map_eq_some_iff] at found
  exact found

/-- At each place that is reached stands a tree of the layout. -/
theorem Lays.exists_tree (lays : arena.Lays layout) (reachable : arena.Reachable place) :
    ∃ tree : Placed, tree.place = place ∧ Stored arena.nodes tree ∧
      tree.edges ⊆ layout.edges := by
  obtain ⟨way, found⟩ := reachable
  induction way generalizing place with
  | root =>
      rw [follow?, lays.root, Option.some.injEq] at found
      exact ⟨layout.root, found, lays.laid.stored _ List.mem_cons_self, layout.root_edges_subset⟩
  | entry index =>
      obtain ⟨body, listed, there⟩ := lays.exists_of_entryPlace? found
      refine ⟨body.2, there, lays.laid.stored _ ?_, Layout.body_edges_subset listed⟩
      exact List.mem_cons_of_mem _ (List.mem_map_of_mem (List.mem_of_getElem? listed))
  | child way index ih =>
      obtain ⟨parent, first, slot⟩ := Option.bind_eq_some_iff.1 found
      obtain ⟨tree, rfl, stored, below⟩ := ih first
      obtain ⟨child, there, stored', below', -, -⟩ := stored.exists_of_child? slot
      exact ⟨child, there, stored', List.Subset.trans below' below⟩

theorem Lays.mem_edges (lays : arena.Lays layout) (enters : arena.Enters place edge) :
    (edge, place) ∈ layout.edges := by
  cases enters with
  | root root =>
      rw [← root, lays.root]
      exact List.mem_cons_self
  | entry entry =>
      obtain ⟨body, listed, rfl⟩ := lays.exists_of_entryPlace? entry
      exact Layout.entry_mem_edges listed
  | child reachable child =>
      obtain ⟨tree, rfl, stored, below⟩ := lays.exists_tree reachable
      obtain ⟨-, -, -, -, mem, -⟩ := stored.exists_of_child? child
      exact below mem

/-- An arena that has each node of a document at its own place is a forest. -/
theorem Lays.forest (lays : arena.Lays layout) : arena.Forest where
  inBounds place reachable := by
    obtain ⟨tree, rfl, stored, -⟩ := lays.exists_tree reachable
    refine stored.lt_size tree.place ?_
    rw [tree.places_eq_cons]
    exact List.mem_cons_self
  entered := by
    rintro place ⟨way, found⟩
    obtain ⟨edge, -, enters⟩ := exists_enters found
    refine ⟨edge, enters, fun other enters' => ?_⟩
    -- The edges lead to the places one by one, and no place comes twice.
    have distinct : (layout.edges.map Prod.snd).Nodup := by
      rw [layout.map_edges]
      exact lays.laid.distinct
    have same := List.inj_on_of_nodup_map distinct (lays.mem_edges enters')
      (lays.mem_edges enters) rfl
    exact congrArg Prod.fst same

/-! ## Copies -/

/-- The node at a place can be rendered, and copied to a tree of new nodes that renders the same. -/
structure CopiedApart (arena : Arena) (place copy : Nat) (nodes : Nodes) (json : Json) : Prop where
  rendered : Settles (fun depth => arena.nodes.render depth place) json
  copied : Settles (fun depth => (Nodes.deepCopy depth place).run arena.nodes) (copy, nodes)
  same : Settles (fun depth => nodes.render depth copy) json
  kept : ∀ old < arena.nodes.size, nodes[old]? = arena.nodes[old]?
  fresh : ∀ (path : List Nat) below, path.foldlM nodes.child? copy = some below →
    arena.nodes.size ≤ below ∧ below < nodes.size
  forest : ({ arena with nodes, root := copy } : Arena).Forest

theorem Lays.exists_copiedApart (lays : arena.Lays layout) (reachable : arena.Reachable place) :
    ∃ copy nodes json, arena.CopiedApart place copy nodes json := by
  obtain ⟨tree, rfl, stored, -⟩ := lays.exists_tree reachable
  obtain ⟨copy, nodes, copied, same, changed, lays'⟩ := lays.exists_copy stored
  have stored' := changed.laid.stored copy List.mem_cons_self
  refine ⟨copy.place, nodes, tree.schema.toJson, stored.settles_render, copied, ?_, ?_, ?_,
    lays'.forest⟩
  · rw [← same]
    exact stored'.settles_render
  · exact fun old low => changed.elsewhere old low List.not_mem_nil
  · intro path below leads
    have mem := stored'.mem_places_of_path leads
    refine ⟨(changed.own below ?_).elim nofun id, stored'.lt_size below mem⟩
    rwa [List.flatMap_singleton]

theorem Expresses.ends_rerootCopy {document : Document} (expresses : arena.Expresses document)
    (reachable : arena.Reachable place) : ∃ schema result,
      Settles (fun depth => arena.nodes.schemaAt depth place) schema ∧
      Ends (fun depth => arena.apply depth (.rerootCopy place)) (.ok result) ∧
      result.Expresses { document with root := .apart schema } := by
  obtain ⟨layout, lays, rfl⟩ := expresses
  obtain ⟨tree, rfl, stored, -⟩ := lays.exists_tree reachable
  obtain ⟨copy, nodes, copied, same, -, lays'⟩ := lays.exists_copy stored
  refine ⟨tree.schema, _, stored.settles_schemaAt, (ends_lift copied).bind (.pure _), _, lays', ?_⟩
  rw [← same]
  rfl

/-! ## Obtained arenas -/

/-- A document that is read into an arena, and there expanded, augmented and given copies of its
nodes for roots in any order, stays a forest.  All this ends, and so does rendering it. -/
theorem Obtained.stays_forest (obtained : arena.Obtained) :
    arena.Forest ∧
    (∃ document, arena.Expresses document ∧ Settles arena.render document.toJson) ∧
    (∀ operation : Operation,
      (∀ place, operation = .rerootCopy place → arena.Reachable place) →
      ∃ outcome, Ends (fun depth => arena.apply depth operation) outcome ∧
        (operation ≠ .expand → ∃ result, outcome = .ok result)) ∧
    (∀ place, arena.Reachable place →
      ∃ copy nodes json, arena.CopiedApart place copy nodes json) ∧
    ∀ site place node, arena.follow? site = some place →
      arena.ChangedAt (arena.setNode place node) site := by
  obtain ⟨document, expresses, distinct⟩ := obtained.tidy
  obtain ⟨layout, lays, -⟩ := id expresses
  refine ⟨lays.forest, ⟨document, expresses, expresses.settles_render⟩, ?_,
    fun place reachable => lays.exists_copiedApart reachable,
    fun site place node found => lays.forest.changedAt found node⟩
  intro operation defined
  cases operation with
  | expand =>
      obtain ⟨outcome, ends, -⟩ := expresses.ends_expand distinct
      exact ⟨outcome, ends, fun other => absurd rfl other⟩
  | augment =>
      obtain ⟨result, ends, -⟩ := expresses.ends_augment
      exact ⟨.ok result, ends, fun _ => ⟨result, rfl⟩⟩
  | rerootCopy place =>
      obtain ⟨-, result, -, ends, -⟩ := expresses.ends_rerootCopy (defined place rfl)
      exact ⟨.ok result, ends, fun _ => ⟨result, rfl⟩⟩

/-- A definition used twice, once through an `allOf`, with fields that ask for siblings. -/
def tripJson : Json :=
  .object
    [("type", .string "object"),
      ("X-ReasoningPrompt", .string "Why this trip?"),
      ("properties", .object
        [("from", .object [("$ref", .string "#/$defs/Stop")]),
          ("to", .object [("allOf", .array [.object [("$ref", .string "#/$defs/Stop")]])])]),
      ("$defs", .object
        [("Stop", .object
          [("type", .string "object"),
            ("properties", .object
              [("name", .object [("type", .string "string"), ("X-SourceQuote", .bool true)])])])])]

def trip : Document where
  root := .apart
    { types := [.object]
      properties :=
        [("from", { reference := some "#/$defs/Stop" }),
          ("to", { allOf := [{ reference := some "#/$defs/Stop" }] })]
      extensions := [("X-ReasoningPrompt", .string "Why this trip?")] }
  definitions :=
    [("Stop",
        { types := [.object]
          properties :=
            [("name", { types := [.string], extensions := [("X-SourceQuote", .bool true)] })] })]
  table := .defs

def tripWorked : Document :=
  let stop : Schema :=
    { types := [.object]
      properties :=
        [("name", .ofType .string),
          ("source___name", .textField (Schema.quoteDescription "name"))] }
  { root := .apart
      { types := [.object]
        properties :=
          [("reasoning___root", .textField "Why this trip?"), ("from", stop), ("to", stop)]
        required := ["reasoning___root"]
        extensions := [("X-ReasoningPrompt", .string "Why this trip?")] }
    table := .defs }

theorem worked_trip_stays_forest : ∃ arena : Arena, arena.Obtained ∧
    arena.Expresses tripWorked ∧ arena.Forest ∧
    (∃ copy nodes json, arena.CopiedApart arena.root copy nodes json) ∧
    ∀ node, arena.ChangedAt (arena.setNode arena.root node) .root := by
  have read : Document.ofJson tripJson = .ok trip := rfl
  have worked : Document.augment <$> trip.expand = .ok tripWorked := rfl
  obtain ⟨expanded, expands, augments⟩ := Outcome.map_eq_ok_iff.1 worked
  have agrees := ofJson_agrees tripJson
  rw [read] at agrees
  obtain ⟨first, reads, expresses⟩ := agrees.exists_of_ok_left
  obtain ⟨outcome, ends, agrees⟩ := Expresses.ends_expand expresses (by decide)
  rw [expands] at agrees
  obtain ⟨second, rfl, expresses⟩ := agrees.exists_of_ok_right
  obtain ⟨third, ends', expresses⟩ := expresses.ends_augment
  rw [augments] at expresses
  obtain ⟨schema, arena, settles, ends'', expresses'⟩ := expresses.ends_rerootCopy ⟨.root, rfl⟩
  obtain rfl := settles.unique expresses.settles_root
  have obtained : arena.Obtained :=
    (((Obtained.read reads).worked .expand ends).worked .augment ends').worked _ ends''
  obtain ⟨forest, -, -, copies, edits⟩ := obtained.stays_forest
  exact ⟨arena, obtained, expresses', forest, copies arena.root ⟨.root, rfl⟩,
    fun node => edits .root arena.root node rfl⟩

end Arena

end SchemaStream
