import SchemaStream.Proofs.Outcome
import SchemaStream.Schema.ArenaOperations

/-!
# Ways through an arena

A way starts at the root or at an entry of the table and goes on from nodes to their children; it
is a site of the document.  An arena is a forest if each place that a way leads to holds a node
and is entered by one edge only.  Then no two ways lead to one place, so that a node that is put
at a site changes what stands at this site alone.
-/

namespace SchemaStream

inductive Way where
  | root
  | entry (index : Nat)
  | child (parent : Way) (index : Nat)
  deriving DecidableEq, Repr

/-- What leads to a place: the root, an entry of the table, or a child slot of a node. -/
inductive Edge where
  | root
  | entry (index : Nat)
  | child (parent index : Nat)
  deriving DecidableEq, Repr

/-- The way goes on from the site. -/
def Way.Passes : Way → Way → Prop
  | .child way _, site => way = site ∨ Passes way site
  | _, _ => False

theorem Way.Passes.of_child {way site : Way} {index : Nat}
    (passes : way.Passes (site.child index)) : way.Passes site := by
  induction way with
  | root => exact passes
  | entry => exact passes
  | child way last ih =>
      rcases passes with rfl | passes
      · exact .inr (.inl rfl)
      · exact .inr (ih passes)

theorem Way.Passes.sizeOf_lt {way site : Way} (passes : way.Passes site) :
    sizeOf site < sizeOf way := by
  induction way with
  | root => exact passes.elim
  | entry => exact passes.elim
  | child way last ih =>
      rw [Way.child.sizeOf_spec]
      rcases passes with rfl | passes
      · omega
      · have := ih passes
        omega

/-- The place in a child slot of a node, the slots in the order of `Shape.children`. -/
def Nodes.child? (nodes : Nodes) (parent index : Nat) : Option Nat :=
  nodes[parent]? >>= fun node => node.children[index]?

namespace Arena

def entryPlace? (arena : Arena) (index : Nat) : Option Nat := arena.definitions[index]?.map Prod.snd

/-- The place to which a way leads. -/
def follow? (arena : Arena) : Way → Option Nat
  | .root => some arena.root
  | .entry index => arena.entryPlace? index
  | .child way index => follow? arena way >>= fun parent => arena.nodes.child? parent index

/-- The node at a site. -/
def read? (arena : Arena) (site : Way) : Option (Shape Nat) :=
  arena.follow? site >>= fun place => arena.nodes[place]?

/-- What a site is rendered to. -/
def renderAt (arena : Arena) (depth : Nat) (site : Way) : Option Json :=
  arena.follow? site >>= arena.nodes.render depth

def Reachable (arena : Arena) (place : Nat) : Prop := ∃ way, arena.follow? way = some place

/-- The edge leads to the place, if it is one of a node, then of one that is reachable. -/
inductive Enters (arena : Arena) (place : Nat) : Edge → Prop
  | root (root : arena.root = place) : Enters arena place .root
  | entry {index : Nat} (entry : arena.entryPlace? index = some place) :
      Enters arena place (.entry index)
  | child {parent index : Nat} (reachable : arena.Reachable parent)
      (child : arena.nodes.child? parent index = some place) :
      Enters arena place (.child parent index)

structure Forest (arena : Arena) : Prop where
  inBounds : ∀ place, arena.Reachable place → place < arena.nodes.size
  entered : ∀ place, arena.Reachable place → ∃! edge, arena.Enters place edge

variable {arena : Arena} {way other site : Way} {place : Nat} {node : Shape Nat}

theorem read?_of_follow? (found : arena.follow? way = some place) :
    arena.read? way = arena.nodes[place]? := by
  rw [read?, found]
  rfl

/-! ## One way to each place -/

/-- The last edge of a way. -/
def edge? (arena : Arena) : Way → Option Edge
  | .root => some .root
  | .entry index => some (.entry index)
  | .child way index => (arena.follow? way).map fun parent => .child parent index

theorem exists_enters (found : arena.follow? way = some place) :
    ∃ edge, arena.edge? way = some edge ∧ arena.Enters place edge := by
  cases way with
  | root => exact ⟨.root, rfl, .root (Option.some.inj found)⟩
  | entry index => exact ⟨.entry index, rfl, .entry found⟩
  | child way index =>
      obtain ⟨parent, first, last⟩ := Option.bind_eq_some_iff.1 found
      exact ⟨.child parent index, by rw [edge?, first]; rfl, .child ⟨way, first⟩ last⟩

theorem Forest.edge?_eq (forest : arena.Forest) (found : arena.follow? way = some place)
    (found' : arena.follow? other = some place) : arena.edge? way = arena.edge? other := by
  obtain ⟨edge, last, enters⟩ := exists_enters found
  obtain ⟨edge', last', enters'⟩ := exists_enters found'
  rw [last, last', (forest.entered place ⟨way, found⟩).unique enters enters']

theorem Forest.way_unique (forest : arena.Forest) (found : arena.follow? way = some place)
    (found' : arena.follow? other = some place) : way = other := by
  -- Both ways end with the one edge that enters the place, so they agree from their ends on.
  induction way generalizing place other with
  | root =>
      have same := forest.edge?_eq found' found
      cases other <;> simp [edge?] at same ⊢
  | entry index =>
      have same := forest.edge?_eq found' found
      cases other <;> simp_all [edge?]
  | child way index ih =>
      obtain ⟨parent, first, -⟩ := Option.bind_eq_some_iff.1 found
      have last : arena.edge? (.child way index) = some (.child parent index) :=
        congrArg (Option.map _) first
      have same := (forest.edge?_eq found' found).trans last
      cases other with
      | root => cases same
      | entry => cases same
      | child other index' =>
          obtain ⟨parent', first', ends⟩ := Option.map_eq_some_iff.1 same
          cases ends
          rw [ih first first']

/-! ## What stands at other sites -/

/-- A node put at a site turns no way but those that go on from it. -/
theorem Forest.follow?_setNode (forest : arena.Forest) (found : arena.follow? site = some place)
    (node : Shape Nat) (free : ¬ other.Passes site) :
    (arena.setNode place node).follow? other = arena.follow? other := by
  induction other with
  | root => rfl
  | entry index => rfl
  | child way index ih =>
      rw [Way.Passes, not_or] at free
      rw [follow?, follow?, ih free.2]
      refine Option.bind_congr fun parent first => ?_
      have ne : place ≠ parent := by
        rintro rfl
        exact free.1 (forest.way_unique first found)
      rw [Nodes.child?, Nodes.child?, setNode, Array.getElem?_setIfInBounds_ne ne]

theorem Forest.getElem?_setNode (forest : arena.Forest) (found : arena.follow? site = some place)
    (node : Shape Nat) (ne : other ≠ site) :
    (arena.follow? other >>= fun there => (arena.setNode place node).nodes[there]?) =
      arena.follow? other >>= fun there => arena.nodes[there]? := by
  refine Option.bind_congr fun there first => ?_
  have ne : place ≠ there := by
    rintro rfl
    exact ne (forest.way_unique first found)
  rw [setNode, Array.getElem?_setIfInBounds_ne ne]

/-- A node with the same children turns no way at all. -/
theorem follow?_setNode_of_children {old : Shape Nat} (own : arena.nodes[place]? = some old)
    (same : node.children = old.children) (way : Way) :
    (arena.setNode place node).follow? way = arena.follow? way := by
  have low : place < arena.nodes.size := (Array.getElem?_eq_some_iff.1 own).1
  induction way with
  | root => rfl
  | entry index => rfl
  | child way index ih =>
      rw [follow?, follow?, ih]
      refine Option.bind_congr fun parent _ => ?_
      rw [Nodes.child?, Nodes.child?, setNode]
      by_cases here : place = parent
      · subst here
        rw [Array.getElem?_setIfInBounds_self_of_lt low, own]
        exact congrArg (·[index]?) same
      · rw [Array.getElem?_setIfInBounds_ne here]

/-- Neither does it change what is rendered at sites that are neither on the way there nor on the
way on from there. -/
theorem Forest.schemaAt_setNode (forest : arena.Forest) (found : arena.follow? site = some place)
    (node : Shape Nat) (depth : Nat) {there : Nat} (first : arena.follow? other = some there)
    (ne : other ≠ site) (free : ¬ other.Passes site) (beside : ¬ site.Passes other) :
    (arena.setNode place node).nodes.schemaAt depth there = arena.nodes.schemaAt depth there := by
  induction depth generalizing other there with
  | zero => rfl
  | succ depth ih =>
      have apart : place ≠ there := by
        rintro rfl
        exact ne (forest.way_unique first found)
      rw [Nodes.schemaAt, Nodes.schemaAt, setNode, Array.getElem?_setIfInBounds_ne apart]
      refine Option.bind_congr fun own read => ?_
      rw [Outcome.optionMapM_congr fun child mem => ?_]
      obtain ⟨index, slot⟩ := List.mem_iff_getElem?.1 mem
      refine ih (?_ : arena.follow? (.child other index) = some child) ?_ ?_ fun passes =>
        beside passes.of_child
      · rw [follow?, first, Option.bind_eq_bind, Option.bind_some, Nodes.child?, read]
        exact slot
      · rintro rfl
        exact beside (.inl rfl)
      · exact fun passes => passes.elim ne free

/-- What is read at other sites is as before, but for sites below if the children are others, and
so is what other sites are rendered to, but for those above and below. -/
structure ChangedAt (before after : Arena) (site : Way) : Prop where
  read : ∀ other, other ≠ site →
    (other.Passes site →
      (after.read? site).map Shape.children = (before.read? site).map Shape.children) →
    after.read? other = before.read? other
  rendered : ∀ other, other ≠ site → ¬ other.Passes site → ¬ site.Passes other →
    ∀ depth, after.renderAt depth other = before.renderAt depth other

theorem Forest.changedAt (forest : arena.Forest) (found : arena.follow? site = some place)
    (node : Shape Nat) : arena.ChangedAt (arena.setNode place node) site where
  read other ne below := by
    by_cases passes : other.Passes site
    · have low := forest.inBounds place ⟨site, found⟩
      have own : arena.nodes[place]? = some arena.nodes[place] := Array.getElem?_eq_getElem low
      have stays := (forest.follow?_setNode found node fun passes =>
        absurd passes.sizeOf_lt (Nat.lt_irrefl _)).trans found
      have same := below passes
      rw [read?_of_follow? found, read?_of_follow? stays, setNode,
        Array.getElem?_setIfInBounds_self_of_lt low, own, Option.map_some, Option.map_some,
        Option.some.injEq] at same
      rw [read?, read?, follow?_setNode_of_children own same]
      exact forest.getElem?_setNode found node ne
    · rw [read?, read?, forest.follow?_setNode found node passes]
      exact forest.getElem?_setNode found node ne
  rendered other ne free beside depth := by
    rw [renderAt, renderAt, forest.follow?_setNode found node free]
    refine Option.bind_congr fun there first => ?_
    rw [Nodes.render, Nodes.render, forest.schemaAt_setNode found node depth first ne free beside]

end Arena

end SchemaStream
