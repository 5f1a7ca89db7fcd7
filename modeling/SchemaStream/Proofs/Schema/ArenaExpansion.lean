import SchemaStream.Proofs.Schema.Copies
import SchemaStream.Proofs.Schema.Descent
import SchemaStream.Proofs.Schema.Substitution

/-!
# Expansion in an arena

Expanding a node where it stands comes to what expanding its schema does.  The invariant is
that no place comes twice in what is expanded, nor in a definition: then overwriting a node
changes one node of one tree, a copied definition is a tree of its own, and a node that takes
over the children of its `allOf` member is the only one to lead to them.
-/

namespace SchemaStream

open Outcome (Ends Extends)
open Placed (places)

/-! ## The steps of the expansion of a node -/

namespace Arena

theorem run_nodeAt {arena : Arena} {place : Nat} {node : Shape Nat}
    (own : arena.nodes[place]? = some node) : (arena.nodeAt place).run = some (.ok node) := by
  rw [nodeAt, own]
  rfl

section

variable (guard : Guard) {kept : List String} (within : Option String) {arena : Arena}
  {place : Nat} {node : Shape Nat} (own : arena.nodes[place]? = some node) (depth : Nat)
include own

theorem expandNodeGuarded_of_fault {fault : SchemaError}
    (faulty : arena.target? kept node = .error fault) :
    (expandNodeGuarded guard kept (depth + 1) within arena place).run = some (.error fault) := by
  rw [expandNodeGuarded, Outcome.bind_of_run (run_nodeAt own), faulty]
  rfl

theorem expandNodeGuarded_of_target {target copy : Nat} {nodes : Nodes} {definition : Shape Nat}
    {name : String} (found : arena.target? kept node = .ok (some target))
    (refers : node.reference >>= Reference.name? = some name) (allowed : guard within name = true)
    (copied : (Nodes.deepCopy depth target).run arena.nodes = some (copy, nodes))
    (there : nodes[copy]? = some definition) :
    expandNodeGuarded guard kept (depth + 1) within arena place =
      expandNodeGuarded guard kept depth (some name)
        { arena with nodes := nodes.setIfInBounds place (definition.overlaid node) } place := by
  have lifted : (ExceptT.lift (Nodes.deepCopy depth target arena.nodes) :
      ExceptT SchemaError Option _).run = some (.ok (copy, nodes)) := by
    change (Except.ok <$> (Nodes.deepCopy depth target).run arena.nodes) = _
    rw [copied]
    rfl
  have read : (({ arena with nodes } : Arena).nodeAt copy).run = some (.ok definition) :=
    run_nodeAt there
  conv_lhs => rw [expandNodeGuarded, Outcome.bind_of_run (run_nodeAt own), found]
  dsimp only
  rw [refers, Option.all_some, if_pos allowed, Outcome.bind_of_run lifted]
  dsimp only
  rw [Outcome.bind_of_run read]
  rfl

theorem expandNodeGuarded_of_children (stays : arena.target? kept node = .ok none)
    (bare : node.allOf = []) :
    expandNodeGuarded guard kept (depth + 1) within arena place =
      node.children.foldlM (expandNodeGuarded guard kept depth within) arena := by
  rw [expandNodeGuarded, Outcome.bind_of_run (run_nodeAt own), stays, bare]

theorem expandNodeGuarded_of_sole {member : Nat} (stays : arena.target? kept node = .ok none)
    (sole : node.allOf = [member]) :
    expandNodeGuarded guard kept (depth + 1) within arena place = (do
      let arena ← expandNodeGuarded guard kept depth within arena member
      let parent ← arena.nodeAt place
      let node ← arena.nodeAt member
      expandNodeGuarded guard kept depth within
        (arena.setNode place (parent.folded node)) place) := by
  rw [expandNodeGuarded, Outcome.bind_of_run (run_nodeAt own), stays, sole]

theorem expandNodeGuarded_of_several (stays : arena.target? kept node = .ok none)
    (several : 1 < node.allOf.length) :
    (expandNodeGuarded guard kept (depth + 1) within arena place).run =
      some (.error (.allOfArity node.allOf.length)) := by
  rw [expandNodeGuarded, Outcome.bind_of_run (run_nodeAt own), stays]
  match node.allOf, several with
  | _ :: _ :: _, _ => rfl

end

/-- What a guard lets through goes the same way without it. -/
theorem expandNodeGuarded_extends (guard : Guard) (kept : List String) (depth : Nat)
    (within : Option String) (arena : Arena) (place : Nat) :
    Extends (expandNodeGuarded guard kept depth within arena place)
      (expandNode kept depth arena place) := by
  induction depth generalizing within arena place with
  | zero => exact .none _
  | succ depth ih =>
      rw [expandNodeGuarded, expandNode]
      refine .bind (.refl _) fun node => ?_
      cases arena.target? kept node with
      | error fault => exact .refl _
      | ok target =>
          cases target with
          | some target =>
              dsimp only
              split
              · exact .bind (.refl _) fun copied => .bind (.refl _) fun definition => ih _ _ _
              · exact .none _
          | none =>
              match node.allOf with
              | [] => exact .foldlM (fun arena place => ih within arena place) arena
              | [member] =>
                  exact .bind (ih within arena member) fun arena =>
                    .bind (.refl _) fun parent => .bind (.refl _) fun node => ih _ _ _
              | _ :: _ :: _ => exact .refl _

/-! ## Definitions in an arena -/

/-- An arena with a table of definitions.  Those that are usable it stores, and apart from them
trees without a place in common. -/
structure Supplies (usable : String → Prop) (arena : Arena) (bodies : Members Placed)
    (trees : List Placed) : Prop where
  table : arena.definitions = Members.mapValues Placed.place bodies
  defined : ∀ body ∈ bodies, usable body.1 → Stored arena.nodes body.2
  laid : Laid arena.nodes trees
  apart : ∀ body ∈ bodies, usable body.1 → ∀ place ∈ body.2.places, place ∉ trees.flatMap places

/-- An arena that stores definitions, and apart from them trees without a place in common. -/
structure Holds (arena : Arena) (bodies : Members Placed) (trees : List Placed) : Prop where
  table : arena.definitions = Members.mapValues Placed.place bodies
  defined : ∀ body ∈ bodies, Stored arena.nodes body.2
  laid : Laid arena.nodes trees
  apart : ∀ body ∈ bodies, ∀ place ∈ body.2.places, place ∉ trees.flatMap places

variable {arena : Arena} {bodies : Members Placed} {old new trees rest : List Placed}
  {nodes : Nodes} {kept : List String} {usable : String → Prop}

theorem holds_iff_supplies :
    arena.Holds bodies trees ↔ arena.Supplies (fun _ => True) bodies trees :=
  ⟨fun holds => ⟨holds.table, fun body mem _ => holds.defined body mem, holds.laid,
      fun body mem _ => holds.apart body mem⟩,
    fun supplies => ⟨supplies.table, fun body mem => supplies.defined body mem trivial,
      supplies.laid, fun body mem => supplies.apart body mem trivial⟩⟩

theorem Supplies.imp (supplies : arena.Supplies usable bodies trees) (usable' : String → Prop)
    (fewer : ∀ name, usable' name → usable name) : arena.Supplies usable' bodies trees :=
  ⟨supplies.table, fun body mem use => supplies.defined body mem (fewer _ use), supplies.laid,
    fun body mem use => supplies.apart body mem (fewer _ use)⟩

theorem Supplies.changed (supplies : arena.Supplies usable bodies old)
    (changed : Changed arena.nodes nodes old new) :
    ({ arena with nodes } : Arena).Supplies usable bodies new where
  table := supplies.table
  defined body mem use :=
    changed.stored (supplies.defined body mem use) (supplies.apart body mem use)
  laid := changed.laid
  apart body mem use place under later := by
    rcases changed.own place later with before | fresh
    · exact supplies.apart body mem use place under before
    · have low := (supplies.defined body mem use).lt_size place under
      omega

theorem Supplies.subperm (supplies : arena.Supplies usable bodies old) (sub : new.Subperm old) :
    arena.Supplies usable bodies new := by
  refine ⟨supplies.table, supplies.defined, supplies.laid.subperm sub, ?_⟩
  intro body mem use place under later
  obtain ⟨tree, below, later⟩ := List.mem_flatMap.1 later
  exact supplies.apart body mem use place under
    (List.mem_flatMap.2 ⟨tree, sub.subset below, later⟩)

theorem Supplies.children {place : Nat} {shape : Shape Placed}
    (supplies : arena.Supplies usable bodies [.node place shape]) :
    arena.Supplies usable bodies shape.children := by
  refine ⟨supplies.table, supplies.defined, (Laid.singleton_iff.1 supplies.laid).2.2, ?_⟩
  intro body mem use other under later
  refine supplies.apart body mem use other under ?_
  rw [List.flatMap_singleton, Placed.places_node]
  exact List.mem_cons_of_mem _ later

section

variable {place : Nat} {shape : Shape Placed} {expansion : Expansion}
  (supplies : arena.Supplies usable bodies [.node place shape])
  (definitions : expansion.definitions = Members.mapValues Placed.schema bodies)
include supplies definitions

/-- In the arena a reference leads to the definition that the schema is expanded with. -/
theorem Supplies.target?_agrees :
    Outcome.Agrees
      (Option.Rel fun target definition => ∃ name body, Members.get? bodies name = some body ∧
        shape.reference >>= Reference.name? = some name ∧ name ∉ expansion.kept ∧
        target = body.place ∧
        definition = body.schema.overlaid (Placed.node place shape).schema)
      (arena.target? expansion.kept (shape.map Placed.place))
      (expansion.inlined? (Placed.node place shape).schema) := by
  rw [target?, Expansion.inlined?, Placed.reference_schema, Shape.reference_map]
  cases shape.reference with
  | none => exact .ok .none
  | some reference =>
      simp only [resolve, Reference.resolve, supplies.table, definitions, Members.get?_mapValues]
      cases named : Reference.name? reference with
      | none => exact .error _
      | some name =>
          dsimp only
          cases found : Members.get? bodies name with
          | none => exact .error _
          | some body =>
              cases put : expansion.kept.contains name with
              | true => exact .ok .none
              | false =>
                  exact .ok (.some ⟨name, body, found, named, by simpa using put, rfl, rfl⟩)

theorem Supplies.target?_of_fault {fault : SchemaError}
    (faulty : expansion.inlined? (Placed.node place shape).schema = .error fault) :
    arena.target? expansion.kept (shape.map Placed.place) = .error fault := by
  have agrees := supplies.target?_agrees definitions
  rw [faulty] at agrees
  exact agrees.eq_error_left

theorem Supplies.target?_of_stays
    (stays : expansion.inlined? (Placed.node place shape).schema = .ok none) :
    arena.target? expansion.kept (shape.map Placed.place) = .ok none := by
  have agrees := supplies.target?_agrees definitions
  rw [stays] at agrees
  obtain ⟨_, found, ⟨⟩⟩ := agrees.exists_of_ok_right
  exact found

theorem Supplies.target?_of_inlined {definition : Schema}
    (found : expansion.inlined? (Placed.node place shape).schema = .ok (some definition)) :
    ∃ name body, Members.get? bodies name = some body ∧
      shape.reference >>= Reference.name? = some name ∧ name ∉ expansion.kept ∧
      arena.target? expansion.kept (shape.map Placed.place) = .ok (some body.place) ∧
      definition = body.schema.overlaid (Placed.node place shape).schema := by
  have agrees := supplies.target?_agrees definitions
  rw [found] at agrees
  obtain ⟨_, leads, ⟨name, body, own, named, put, rfl, rfl⟩⟩ := agrees.exists_of_ok_right
  exact ⟨name, body, own, named, put, leads, rfl⟩

end

/-! ## What expansion in an arena comes to -/

/-- A run ends with the fault, or the tree gives way to one at its place with the schema. -/
def Gives (arena : Arena) (tree : Placed) (run : Nat → ExceptT SchemaError Option Arena) :
    Except SchemaError Schema → Prop
  | .error fault => Ends run (.error fault)
  | .ok schema => ∃ tree' nodes, Ends run (.ok { arena with nodes }) ∧
      tree'.place = tree.place ∧ tree'.schema = schema ∧ Changed arena.nodes nodes [tree] [tree']

/-- The same for a run over trees without a place in common. -/
def GivesAll (arena : Arena) (trees : List Placed) (run : Nat → ExceptT SchemaError Option Arena) :
    Except SchemaError (List Schema) → Prop
  | .error fault => Ends run (.error fault)
  | .ok schemas => ∃ trees' nodes, Ends run (.ok { arena with nodes }) ∧
      trees'.map Placed.place = trees.map Placed.place ∧ trees'.map Placed.schema = schemas ∧
      Changed arena.nodes nodes trees trees'

theorem Gives.extend {tree : Placed} {run run' : Nat → ExceptT SchemaError Option Arena}
    {outcome : Except SchemaError Schema} (gives : arena.Gives tree run outcome)
    (wider : ∀ depth, Extends (run depth) (run' depth)) : arena.Gives tree run' outcome := by
  cases outcome with
  | error fault => exact Ends.extend gives wider
  | ok schema =>
      obtain ⟨tree', nodes, ends, rest⟩ := gives
      exact ⟨tree', nodes, ends.extend wider, rest⟩

/-- A run that goes on as another does where the tree has already changed. -/
theorem Gives.after {tree tree' : Placed} {run run' : Nat → ExceptT SchemaError Option Arena}
    {outcome : Except SchemaError Schema} (changed : Changed arena.nodes nodes [tree] [tree'])
    (place : tree'.place = tree.place)
    (step : ∃ least, ∀ depth ≥ least, run (depth + 1) = run' depth)
    (gives : ({ arena with nodes } : Arena).Gives tree' run' outcome) :
    arena.Gives tree run outcome := by
  cases outcome with
  | error fault => exact .succ step gives
  | ok schema =>
      obtain ⟨last, nodes', ends, there, same, after⟩ := gives
      exact ⟨last, nodes', .succ step ends, there.trans place, same, changed.trans after⟩

section

variable {guard : Guard} {within : Option String} {expand : Schema → Except SchemaError Schema}

theorem foldlM_expandNodeGuarded
    (each : ∀ tree ∈ trees, ∀ arena : Arena, arena.Supplies usable bodies [tree] →
      arena.Gives tree (fun depth => expandNodeGuarded guard kept depth within arena tree.place)
        (expand tree.schema))
    (supplies : arena.Supplies usable bodies trees) :
    arena.GivesAll trees
      (fun depth => (trees.map Placed.place).foldlM
        (expandNodeGuarded guard kept depth within) arena)
      ((trees.map Placed.schema).mapM expand) := by
  induction trees generalizing arena with
  | nil => exact ⟨[], arena.nodes, ⟨0, fun _ _ => rfl⟩, rfl, rfl, .refl supplies.laid⟩
  | cons tree rest ih =>
      rw [List.forall_mem_cons] at each
      have alone := supplies.subperm (List.sublist_append_left [tree] rest).subperm
      have first := each.1 arena alone
      simp only [List.map_cons, List.mapM_cons, List.foldlM_cons]
      cases one : expand tree.schema with
      | error fault =>
          rw [one] at first
          exact Ends.bind_fault first
      | ok schema =>
          rw [one] at first
          obtain ⟨tree', mid, ends, there, same, changed⟩ := first
          -- The others still stand in the arena that the first one leaves behind.
          have others := (supplies.changed (changed.beside supplies.laid)).subperm
            (List.sublist_append_right [tree'] rest).subperm
          have next := ih each.2 others
          cases more : (rest.map Placed.schema).mapM expand with
          | error fault =>
              rw [more] at next
              exact ends.bind next
          | ok schemas =>
              rw [more] at next
              obtain ⟨trees, nodes, ends', places, schemas, after⟩ := next
              refine ⟨tree' :: trees, nodes, ends.bind ends', ?_, ?_,
                changed.append after supplies.laid⟩
              · rw [List.map_cons, List.map_cons, there, places]
              · rw [List.map_cons, same, schemas]

variable {place : Nat} {shape shape' : Shape Placed}

theorem gives_of_children
    (each : ∀ child ∈ shape.children, ∀ arena : Arena, arena.Supplies usable bodies [child] →
      arena.Gives child (fun depth => expandNodeGuarded guard kept depth within arena child.place)
        (expand child.schema))
    (supplies : arena.Supplies usable bodies [.node place shape])
    (stays : arena.target? kept (shape.map Placed.place) = .ok none) (bare : shape.allOf = []) :
    arena.Gives (.node place shape)
      (fun depth => expandNodeGuarded guard kept depth within arena place)
      ((fun children => ((Placed.node place shape).schema.shape.withChildren children).schema) <$>
        (Placed.node place shape).schema.children.mapM expand) := by
  obtain ⟨own, outside, -⟩ := Laid.singleton_iff.1 supplies.laid
  have all := foldlM_expandNodeGuarded each supplies.children
  have step (depth : Nat) : expandNodeGuarded guard kept (depth + 1) within arena place =
      (shape.children.map Placed.place).foldlM (expandNodeGuarded guard kept depth within)
        arena := by
    rw [expandNodeGuarded_of_children guard within own depth stays (by simp [bare]),
      Shape.children_map]
  rw [Placed.children_schema]
  cases below : (shape.children.map Placed.schema).mapM expand with
  | error fault =>
      rw [below] at all
      exact .succ ⟨0, fun depth _ => step depth⟩ all
  | ok schemas =>
      rw [below] at all
      obtain ⟨trees, nodes, ends, places, rfl, changed⟩ := all
      refine ⟨.node place (shape.withChildren trees), nodes,
        .succ ⟨0, fun depth _ => step depth⟩ ends, rfl, ?_, ?_⟩
      · rw [Placed.schema_node, Placed.schema_node, Shape.shape_schema, Shape.map_withChildren]
        dsimp only
        rw [Shape.withChildren_map]
      · refine Changed.below ?_ supplies.laid ?_
        · rwa [Shape.children_withChildren]
        · rw [Shape.map_withChildren, places, Shape.withChildren_children]

end

section

variable {place : Nat} {shape shape' : Shape Placed}

/-- The node overwritten by a definition, once that has been copied. -/
theorem changed_overlaid {mid : Nodes} {copy : Nat} (laid : Laid nodes [.node place shape])
    (copied : Changed nodes mid [] [.node copy shape']) :
    Changed nodes (mid.setIfInBounds place
        ((shape'.map Placed.place).overlaid (shape.map Placed.place)))
      [.node place shape] [.node place (shape'.overlaid shape)] := by
  have below : Changed nodes mid shape.children (shape'.overlaid shape).children :=
    copied.children.weaken shape.children
  exact below.put laid

/-- The node overwritten by its `allOf` member folded in, once that has been expanded. -/
theorem changed_folded {mid : Nodes} {member : Placed} (laid : Laid nodes [.node place shape])
    (sole : shape.allOf = [member])
    (expanded : Changed nodes mid [member] [.node member.place shape']) :
    Changed nodes (mid.setIfInBounds place
        ((shape.map Placed.place).folded (shape'.map Placed.place)))
      [.node place shape] [.node place (shape.folded shape')] := by
  obtain ⟨-, -, below⟩ := Laid.singleton_iff.1 laid
  -- The old place of the member is given up, and its children come under the parent.
  have apart : shape.children = { shape with allOf := [] }.children ++ [member] := by
    simp [Shape.children, sole]
  rw [apart] at below
  have together := (Changed.refl below.append_left).append expanded.children below
  rw [← apart] at together
  have changed := together.subperm (Shape.children_folded_subperm shape shape')
  rw [← Shape.map_folded]
  exact changed.put laid

end

/-- Under a guard by ranks, the expansion of a schema comes to what it should, wherever the schema
is laid out apart from the definitions of lower rank. -/
def GivesAnywhere (expansion : Expansion) (rank : String → Nat) (bodies : Members Placed)
    (schema : Schema) : Prop :=
  ∀ within (tree : Placed), tree.schema = schema → expansion.LeadsDown rank within schema →
    ∀ arena : Arena, arena.Supplies (expansion.Allows rank within) bodies [tree] →
      arena.Gives tree
        (fun depth =>
          expandNodeGuarded (.descending rank) expansion.kept depth within arena tree.place)
        (expansion.expand schema)

section

variable {rank : String → Nat} {expansion : Expansion} {schema : Schema}
  (definitions : expansion.definitions = Members.mapValues Placed.schema bodies)
  (grounded : expansion.Grounded rank)
include definitions grounded

theorem givesAnywhere_of_fault {fault : SchemaError}
    (found : expansion.inlined? schema = .error fault) :
    GivesAnywhere expansion rank bodies schema := by
  rintro within ⟨place, shape⟩ rfl down arena supplies
  obtain ⟨own, -, -⟩ := Laid.singleton_iff.1 supplies.laid
  rw [grounded.expand_of_fault found]
  exact Ends.of_succ fun depth =>
    expandNodeGuarded_of_fault _ within own depth (supplies.target?_of_fault definitions found)

theorem givesAnywhere_of_inlined {definition : Schema}
    (found : expansion.inlined? schema = .ok (some definition))
    (next : GivesAnywhere expansion rank bodies definition) :
    GivesAnywhere expansion rank bodies schema := by
  rintro within ⟨place, shape⟩ rfl down arena supplies
  obtain ⟨own, -, -⟩ := Laid.singleton_iff.1 supplies.laid
  obtain ⟨name, body, placed, named, put, leads, rfl⟩ :=
    supplies.target?_of_inlined definitions found
  have found' : Members.get? expansion.definitions name = some body.schema := by
    rw [definitions, Members.get?_mapValues, placed]
    rfl
  have inlines : expansion.Inlines name := .of_get? found' put
  obtain ⟨reference, refers, spelled⟩ := Option.bind_eq_some_iff.1 named
  have low : Guard.descending rank within name = true :=
    down.reference ((Placed.reference_schema place shape).trans refers) spelled inlines
  have stored := supplies.defined _ (Members.mem_of_get?_eq_some placed) ⟨inlines, low⟩
  obtain ⟨⟨copy, shape'⟩, mid, ⟨least, made⟩, same, copied⟩ := Nodes.exists_deepCopy stored
  have there := (Laid.singleton_iff.1 copied.laid).1
  have changed := changed_overlaid supplies.laid copied
  -- What is allowed within the definition was allowed before.
  have supplies' := (supplies.changed changed).imp (expansion.Allows rank (some name))
    fun other allowed =>
      ⟨allowed.1, Guard.descending_of_lt (Guard.descending_iff.1 allowed.2 name rfl) low⟩
  rw [grounded.expand_of_inlined found]
  refine Gives.after changed rfl ⟨least, fun depth enough => ?_⟩
    (next (some name) (.node place (shape'.overlaid shape)) ?_
      ((Expansion.LeadsDown.definition grounded found' inlines).overlaid _) _ supplies')
  · exact expandNodeGuarded_of_target _ within own depth leads named low (made depth enough) there
  · rw [← same]
    simp only [Placed.schema_node, Shape.map_overlaid]
    rfl

theorem givesAnywhere_of_children (stays : expansion.inlined? schema = .ok none)
    (bare : schema.allOf = [])
    (each : ∀ child ∈ schema.children, GivesAnywhere expansion rank bodies child) :
    GivesAnywhere expansion rank bodies schema := by
  rintro within ⟨place, shape⟩ rfl down arena supplies
  rw [grounded.expand_of_children stays bare]
  rw [Placed.allOf_schema, List.map_eq_nil_iff] at bare
  refine gives_of_children (fun child mem => ?_) supplies
    (supplies.target?_of_stays definitions stays) bare
  have below := Placed.schema_mem_children place mem
  exact each child.schema below within child rfl (down.children below)

theorem givesAnywhere_of_sole {member : Schema}
    (defined : expansion.kept ⊆ Members.keys expansion.definitions)
    (stays : expansion.inlined? schema = .ok none) (sole : schema.allOf = [member])
    (first : GivesAnywhere expansion rank bodies member)
    (next : ∀ result, expansion.expand member = .ok result →
      GivesAnywhere expansion rank bodies (schema.folded result)) :
    GivesAnywhere expansion rank bodies schema := by
  rintro within ⟨place, shape⟩ rfl down arena supplies
  obtain ⟨own, outside, -⟩ := Laid.singleton_iff.1 supplies.laid
  rw [grounded.expand_of_sole defined stays sole]
  rw [Placed.allOf_schema, List.map_eq_singleton_iff] at sole
  obtain ⟨child, members, rfl⟩ := sole
  have below : child ∈ shape.children := by simp [Shape.children, members]
  have one := first within child rfl (down.children (Placed.schema_mem_children place below)) arena
    (supplies.children.subperm (List.singleton_sublist.2 below).subperm)
  have step (depth : Nat) := expandNodeGuarded_of_sole (.descending rank) within own depth
    (supplies.target?_of_stays definitions stays)
    (congrArg (List.map Placed.place) members)
  cases expands : expansion.expand child.schema with
  | error fault =>
      rw [expands] at one
      exact .succ ⟨0, fun depth _ => step depth⟩ (Ends.bind_fault one)
  | ok result =>
      rw [expands] at one
      obtain ⟨⟨_, shape'⟩, mid, ⟨least, ends⟩, rfl, rfl, expanded⟩ := one
      have changed := changed_folded supplies.laid members expanded
      have low : place < arena.nodes.size := (Array.getElem?_eq_some_iff.1 own).1
      -- The parent is not below its member, so it is read back as it was.
      have parent : mid[place]? = some (shape.map Placed.place) := by
        refine (expanded.elsewhere place low fun mem => outside ?_).trans own
        rw [List.flatMap_singleton] at mem
        exact List.mem_flatMap.2 ⟨child, below, mem⟩
      have there : mid[child.place]? = some (shape'.map Placed.place) :=
        (Laid.singleton_iff.1 expanded.laid).1
      refine Gives.after changed rfl ⟨least, fun depth enough => ?_⟩
        (next _ expands within (.node place (shape.folded shape')) ?_
          (down.folded grounded expands) _ (supplies.changed changed))
      · rw [Placed.place, step, Outcome.bind_of_run (ends depth enough),
          Outcome.bind_of_run (run_nodeAt parent), Outcome.bind_of_run (run_nodeAt there)]
        rfl
      · simp only [Placed.schema_node, Shape.map_folded]
        rfl

theorem givesAnywhere_of_several (stays : expansion.inlined? schema = .ok none)
    (several : 1 < schema.allOf.length) : GivesAnywhere expansion rank bodies schema := by
  rintro within ⟨place, shape⟩ rfl down arena supplies
  obtain ⟨own, -, -⟩ := Laid.singleton_iff.1 supplies.laid
  rw [grounded.expand_of_several stays several, Placed.allOf_schema, List.length_map]
  rw [Placed.allOf_schema, List.length_map] at several
  refine Ends.of_succ fun depth => ?_
  have ran := expandNodeGuarded_of_several (.descending rank) within own depth
    (supplies.target?_of_stays definitions stays)
  rw [Shape.allOf_map, List.length_map] at ran
  exact ran several

variable (defined : expansion.kept ⊆ Members.keys expansion.definitions)
include defined

/-- Expansion under a guard by ranks comes to the expansion of the schema. -/
theorem givesAnywhere (schema : Schema) : GivesAnywhere expansion rank bodies schema := by
  induction schema using grounded.inductExpansion defined with
  | faulty schema fault found => exact givesAnywhere_of_fault definitions grounded found
  | inlined schema definition found next =>
      exact givesAnywhere_of_inlined definitions grounded found next
  | parent schema stays bare each =>
      exact givesAnywhere_of_children definitions grounded stays bare each
  | sole schema member stays sole first next =>
      exact givesAnywhere_of_sole definitions grounded defined stays sole first next
  | several schema stays several =>
      exact givesAnywhere_of_several definitions grounded stays several

/-- Expansion in an arena comes to the expansion of the schema. -/
theorem gives_expand (tree : Placed) (holds : arena.Holds bodies [tree]) :
    arena.Gives tree (fun depth => expandNode expansion.kept depth arena tree.place)
      (expansion.expand tree.schema) := by
  have gives := givesAnywhere definitions grounded defined tree.schema none tree rfl
    (.free expansion rank tree.schema) arena ((holds_iff_supplies.1 holds).imp _ fun _ _ => trivial)
  exact gives.extend fun depth =>
    expandNodeGuarded_extends _ expansion.kept depth none arena tree.place

/-- The expansion of one tree leaves the definitions and the trees beside it as they are. -/
theorem exists_holds_of_ends {tree : Placed} {others : List Placed}
    (holds : arena.Holds bodies (tree :: others)) {result : Arena}
    (ends : Ends (fun depth => expandNode expansion.kept depth arena tree.place) (.ok result)) :
    ∃ tree', tree'.place = tree.place ∧ expansion.expand tree.schema = .ok tree'.schema ∧
      result.Holds bodies (tree' :: others) := by
  rw [holds_iff_supplies] at holds
  have alone := holds.subperm (List.sublist_append_left [tree] others).subperm
  have gives := gives_expand definitions grounded defined tree (holds_iff_supplies.2 alone)
  cases expands : expansion.expand tree.schema with
  | error fault =>
      rw [expands] at gives
      cases ends.unique gives
  | ok schema =>
      rw [expands] at gives
      obtain ⟨tree', nodes, ends', there, rfl, changed⟩ := gives
      cases ends.unique ends'
      exact ⟨tree', there, rfl,
        holds_iff_supplies.2 (holds.changed (changed.beside holds.laid))⟩

end

end Arena

end SchemaStream
