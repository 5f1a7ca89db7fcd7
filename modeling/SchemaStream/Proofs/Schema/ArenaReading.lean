import SchemaStream.Proofs.Schema.Changes
import SchemaStream.Proofs.Schema.Tables
import SchemaStream.Schema.ArenaReader

/-!
# What is read into an arena

Reading a schema into an arena fails as reading it does.  Otherwise it puts the schema that is
read into the arena as a tree of new nodes, and leaves alone what was put in before.
-/

namespace SchemaStream

open Outcome (Agrees)

/-! ## Trees put in -/

/-- A schema put into an arena, with its place. -/
def PutsIn (nodes : Nodes) (schema : Schema) (out : Nat × Nodes) : Prop :=
  ∃ tree : Placed, out.1 = tree.place ∧ tree.schema = schema ∧ Changed nodes out.2 [] [tree]

def PutsInAll (nodes : Nodes) (schemas : List Schema) (out : List Nat × Nodes) : Prop :=
  ∃ trees : List Placed, out.1 = trees.map Placed.place ∧ trees.map Placed.schema = schemas ∧
    Changed nodes out.2 [] trees

def PutsInTable (nodes : Nodes) (table : Members Schema) (out : Members Nat × Nodes) : Prop :=
  ∃ bodies : Members Placed, out.1 = Members.mapValues Placed.place bodies ∧
    Members.mapValues Placed.schema bodies = table ∧ Changed nodes out.2 [] (bodies.map Prod.snd)

/-- The children of a node put into an arena, but not yet the node. -/
def PutsInBelow (nodes : Nodes) (schema : Schema) (out : Shape Nat × Nodes) : Prop :=
  ∃ shape : Shape Placed, out.1 = shape.map Placed.place ∧
    (shape.map Placed.schema).schema = schema ∧ Changed nodes out.2 [] shape.children

variable {nodes mid : Nodes} {value : Json}

namespace Nodes

theorem readMembers_agrees {values : List Json}
    (each : ∀ value ∈ values, ∀ nodes,
      Agrees (PutsIn nodes) (Schema.ofJson value) ((read value).run nodes)) (nodes : Nodes) :
    Agrees (PutsInAll nodes) (Schema.readMembers values) ((readMembers values).run nodes) := by
  induction values generalizing nodes with
  | nil => exact .ok ⟨[], rfl, rfl, .refl (.nil nodes)⟩
  | cons value rest ih =>
      rw [List.forall_mem_cons] at each
      rw [Schema.readMembers, readMembers, StateT.run_bind]
      refine (each.1 nodes).bind ?_
      rintro schema ⟨_, mid⟩ ⟨tree, rfl, rfl, changed⟩
      rw [StateT.run_bind]
      refine (ih each.2 mid).bind ?_
      rintro schemas ⟨_, last⟩ ⟨trees, rfl, rfl, after⟩
      exact .ok ⟨tree :: trees, rfl, rfl, changed.append after (.nil nodes)⟩

theorem readProperties_agrees {entries : List (String × Json)}
    (each : ∀ entry ∈ entries, ∀ nodes,
      Agrees (PutsIn nodes) (Schema.ofJson entry.2) ((read entry.2).run nodes)) (nodes : Nodes) :
    Agrees (PutsInTable nodes) (Schema.readProperties entries)
      ((readProperties entries).run nodes) := by
  induction entries generalizing nodes with
  | nil => exact .ok ⟨[], rfl, rfl, .refl (.nil nodes)⟩
  | cons entry rest ih =>
      obtain ⟨name, value⟩ := entry
      rw [List.forall_mem_cons] at each
      rw [Schema.readProperties, readProperties, StateT.run_bind]
      refine (each.1 nodes).bind ?_
      rintro schema ⟨_, mid⟩ ⟨tree, rfl, rfl, changed⟩
      rw [StateT.run_bind]
      refine (ih each.2 mid).bind ?_
      rintro schemas ⟨_, last⟩ ⟨bodies, rfl, rfl, after⟩
      exact .ok ⟨(name, tree) :: bodies, rfl, rfl, changed.append after (.nil nodes)⟩

/-! ## Keywords -/

/-- One keyword read on top of a node. -/
def readKeyword (node : Shape Nat) (name : String) (value : Json) : NodeReader (Shape Nat) :=
  match Keyword.ofName name with
  | .type => do
      let (types, listed) ← StateT.lift (Schema.readTypes value)
      pure { node with types := types, typesListed := listed }
  | .properties => do pure { node with properties := ← readTable value }
  | .required => do pure { node with required := ← StateT.lift (Schema.readNames value) }
  | .items => do pure { node with items := some (← read value) }
  | .anyOf => do pure { node with anyOf := ← readCombinator name value }
  | .oneOf => do pure { node with oneOf := ← readCombinator name value }
  | .allOf => do pure { node with allOf := ← readCombinator name value }
  | .enumeration => do
      pure { node with enumeration := some (← StateT.lift (Schema.readEnumeration value)) }
  | .reference => do
      let text ← StateT.lift (Schema.readText .referenceNotString value)
      pure { node with reference := some text }
  | .description => do
      let text ← StateT.lift (Schema.readText .descriptionNotString value)
      pure { node with description := some text }
  | .extensions => pure { node with extensions := Members.insert node.extensions name value }
  | .other => pure { node with keywords := Members.insert node.keywords name value }

theorem readKeywords_cons (node : Shape Nat) (name : String) (value : Json)
    (rest : List (String × Json)) :
    readKeywords node ((name, value) :: rest) =
      (readKeyword node name value >>= fun node => readKeywords node rest) := by
  rw [readKeywords, readKeyword]
  cases Keyword.ofName name <;> simp only [bind_assoc, pure_bind]

/-- How a value is read in each of the three places where schemas are expected. -/
structure ReadsIn (value : Json) : Prop where
  schema : ∀ nodes, Agrees (PutsIn nodes) (Schema.ofJson value) ((read value).run nodes)
  table : ∀ nodes, Agrees (PutsInTable nodes) (Schema.readTable value) ((readTable value).run nodes)
  combinator : ∀ keyword nodes, Agrees (PutsInAll nodes) (Schema.readCombinator keyword value)
    ((readCombinator keyword value).run nodes)

theorem lift_agrees {α : Type} {first : Except SchemaError α} {put : α → Schema}
    {put' : α → Shape Nat} (same : ∀ value, PutsInBelow nodes (put value) (put' value, mid)) :
    Agrees (PutsInBelow nodes) (do return put (← first))
      ((do return put' (← StateT.lift first) : NodeReader _).run mid) := by
  cases first with
  | error fault => exact .error fault
  | ok value => exact .ok (same value)

theorem combinator_agrees (reads : ReadsIn value) {shape : Shape Placed}
    (changed : Changed nodes mid [] shape.children) (name : String)
    (put : List Placed → Shape Placed) {put' : List Nat → Shape Nat}
    {toSchema : List Schema → Schema}
    (sub : ∀ trees, (put trees).children.Subperm (shape.children ++ trees))
    (places : ∀ trees, put' (trees.map Placed.place) = (put trees).map Placed.place)
    (schemas : ∀ trees, ((put trees).map Placed.schema).schema =
      toSchema (trees.map Placed.schema)) :
    Agrees (PutsInBelow nodes) (do return toSchema (← Schema.readCombinator name value))
      ((do return put' (← readCombinator name value) : NodeReader _).run mid) := by
  rw [StateT.run_bind]
  refine (reads.combinator name mid).bind ?_
  rintro _ ⟨_, last⟩ ⟨trees, rfl, rfl, after⟩
  exact .ok ⟨put trees, places trees, schemas trees,
    (changed.append after (.nil nodes)).subperm (sub trees)⟩

theorem readKeyword_agrees (reads : ReadsIn value) {schema : Schema} {node : Shape Nat}
    (before : PutsInBelow nodes schema (node, mid)) (name : String) :
    Agrees (PutsInBelow nodes) (Schema.readKeyword schema name value)
      ((readKeyword node name value).run mid) := by
  classical
  obtain ⟨shape, rfl, rfl, changed⟩ := before
  rw [Schema.readKeyword, readKeyword]
  cases Keyword.ofName name with
  | type =>
      exact lift_agrees fun types =>
        ⟨{ shape with types := types.1, typesListed := types.2 }, rfl, rfl, changed⟩
  | required =>
      exact lift_agrees fun required => ⟨{ shape with required }, rfl, rfl, changed⟩
  | enumeration =>
      exact lift_agrees fun values => ⟨{ shape with enumeration := some values }, rfl, rfl, changed⟩
  | reference =>
      exact lift_agrees fun text => ⟨{ shape with reference := some text }, rfl, rfl, changed⟩
  | description =>
      exact lift_agrees fun text => ⟨{ shape with description := some text }, rfl, rfl, changed⟩
  | extensions =>
      exact .ok ⟨{ shape with extensions := Members.insert shape.extensions name value },
        rfl, rfl, changed⟩
  | other =>
      exact .ok ⟨{ shape with keywords := Members.insert shape.keywords name value },
        rfl, rfl, changed⟩
  | properties =>
      dsimp only
      rw [StateT.run_bind]
      refine (reads.table mid).bind ?_
      rintro table ⟨_, last⟩ ⟨bodies, rfl, rfl, after⟩
      refine .ok ⟨{ shape with properties := bodies }, rfl, rfl,
        (changed.append after (.nil nodes)).subperm (List.subperm_iff_count.2 fun child => ?_)⟩
      simp only [Shape.children, List.count_append]
      omega
  | items =>
      dsimp only
      rw [StateT.run_bind]
      refine (reads.schema mid).bind ?_
      rintro schema ⟨_, last⟩ ⟨tree, rfl, rfl, after⟩
      refine .ok ⟨{ shape with items := some tree }, rfl, rfl,
        (changed.append after (.nil nodes)).subperm (List.subperm_iff_count.2 fun child => ?_)⟩
      simp only [Shape.children, List.count_append, Option.toList_some]
      omega
  | anyOf =>
      refine combinator_agrees reads changed name (fun trees => { shape with anyOf := trees })
        (fun trees => List.subperm_iff_count.2 fun child => ?_) (fun _ => rfl) fun _ => rfl
      simp only [Shape.children, List.count_append]
      omega
  | oneOf =>
      refine combinator_agrees reads changed name (fun trees => { shape with oneOf := trees })
        (fun trees => List.subperm_iff_count.2 fun child => ?_) (fun _ => rfl) fun _ => rfl
      simp only [Shape.children, List.count_append]
      omega
  | allOf =>
      refine combinator_agrees reads changed name (fun trees => { shape with allOf := trees })
        (fun trees => List.subperm_iff_count.2 fun child => ?_) (fun _ => rfl) fun _ => rfl
      simp only [Shape.children, List.count_append]
      omega

/-! ## Values -/

theorem readKeywords_agrees {members : List (String × Json)}
    (reads : ∀ member ∈ members, ReadsIn member.2) {schema : Schema} {node : Shape Nat}
    (before : PutsInBelow nodes schema (node, mid)) :
    Agrees (PutsInBelow nodes) (Schema.readKeywords schema members)
      ((readKeywords node members).run mid) := by
  induction members generalizing schema node mid with
  | nil =>
      rw [Schema.readKeywords, readKeywords]
      exact .ok before
  | cons member rest ih =>
      obtain ⟨name, value⟩ := member
      rw [List.forall_mem_cons] at reads
      rw [Schema.readKeywords_cons, readKeywords_cons, StateT.run_bind]
      refine (readKeyword_agrees reads.1 before name).bind ?_
      rintro schema ⟨node, last⟩ after
      exact ih reads.2 after

theorem add_agrees {schema : Schema} {node : Shape Nat}
    (below : PutsInBelow nodes schema (node, mid)) :
    Agrees (ε := SchemaError) (PutsIn nodes) (.ok schema) ((add node).run mid) := by
  obtain ⟨shape, rfl, rfl, changed⟩ := below
  exact .ok ⟨.node mid.size shape, rfl, Placed.schema_node mid.size shape, changed.push⟩

theorem putsInBelow_empty (nodes : Nodes) : PutsInBelow nodes {} ({}, nodes) :=
  ⟨{}, rfl, rfl, .refl (.nil nodes)⟩

theorem reads (value : Json) : ReadsIn value := by
  induction value with
  | object members ih =>
      refine ⟨fun nodes => ?_, fun nodes => ?_, fun keyword nodes => .error _⟩
      · rw [Schema.ofJson, read, StateT.run_bind, ← bind_pure (Schema.readKeywords {} members)]
        refine (readKeywords_agrees ih (putsInBelow_empty nodes)).bind ?_
        rintro schema ⟨node, mid⟩ below
        exact add_agrees below
      · rw [Schema.readTable, readTable]
        exact readProperties_agrees (fun member mem => (ih member mem).schema) nodes
  | array items ih =>
      refine ⟨fun nodes => .error _, fun nodes => .error _, fun keyword nodes => ?_⟩
      rw [Schema.readCombinator, readCombinator]
      exact readMembers_agrees (fun item mem => (ih item mem).schema) nodes
  | bool value =>
      refine ⟨fun nodes => ?_, fun nodes => .error _, fun keyword nodes => .error _⟩
      cases value with
      | true => exact add_agrees (putsInBelow_empty nodes)
      | false => exact .error _
  | null => exact ⟨fun nodes => .error _, fun nodes => .error _, fun keyword nodes => .error _⟩
  | number => exact ⟨fun nodes => .error _, fun nodes => .error _, fun keyword nodes => .error _⟩
  | string => exact ⟨fun nodes => .error _, fun nodes => .error _, fun keyword nodes => .error _⟩

end Nodes

/-! ## Documents -/

/-- A document with a place for each of its nodes. -/
structure Layout where
  root : Placed
  bodies : Members Placed

namespace Layout

def trees (layout : Layout) : List Placed := layout.root :: layout.bodies.map Prod.snd

def document (layout : Layout) (table : TableKeyword) : Document :=
  { root := .apart layout.root.schema
    definitions := Members.mapValues Placed.schema layout.bodies
    table }

end Layout

namespace Arena

/-- The arena has every node of the document at its own place. -/
structure Lays (arena : Arena) (layout : Layout) : Prop where
  root : arena.root = layout.root.place
  definitions : arena.definitions = Members.mapValues Placed.place layout.bodies
  laid : Laid arena.nodes layout.trees

section

variable {arena : Arena} {layout : Layout} {tree : Placed} (lays : arena.Lays layout)
include lays

theorem Lays.apart : Laid arena.nodes ([layout.root] ++ layout.bodies.map Prod.snd) := lays.laid

/-- The root changed where it stands. -/
theorem Lays.withRoot (there : tree.place = layout.root.place)
    (changed : Changed arena.nodes nodes [layout.root] [tree]) :
    Lays { arena with nodes } ⟨tree, layout.bodies⟩ :=
  ⟨lays.root.trans there.symm, lays.definitions, (changed.beside lays.apart).laid⟩

/-- A new tree as the root. -/
theorem Lays.withNewRoot (changed : Changed arena.nodes nodes [] [tree]) :
    Lays { arena with nodes, root := tree.place } ⟨tree, layout.bodies⟩ :=
  ⟨rfl, lays.definitions, (changed.beside lays.apart.append_right).laid⟩

end

theorem readTable_agrees {before : Members Schema} {definitions : Members Nat}
    (puts : PutsInTable nodes before (definitions, mid)) (members : Members Json)
    (table : TableKeyword) :
    Agrees (PutsInTable nodes) (Document.readTable members table before)
      ((readTable members table definitions).run mid) := by
  rw [Document.readTable, readTable]
  cases Members.get? members table.name with
  | none => exact .ok puts
  | some value =>
      cases value with
      | object entries =>
          dsimp only
          rw [StateT.run_bind]
          have reads := Nodes.readProperties_agrees
            (fun entry (_ : entry ∈ entries) => (Nodes.reads entry.2).schema) mid
          refine reads.bind ?_
          obtain ⟨bodies, rfl, rfl, changed⟩ := puts
          rintro _ ⟨_, last⟩ ⟨others, rfl, rfl, after⟩
          refine .ok ⟨Members.insertAll bodies others, Members.insertAll_mapValues _ _ _,
            (Members.insertAll_mapValues _ _ _).symm, ?_⟩
          refine (changed.append after (.nil nodes)).subperm ?_
          rw [← List.map_append]
          obtain ⟨list, perm, sub⟩ := Members.insertAll_subperm bodies others
          exact ⟨list.map Prod.snd, perm.map _, sub.map _⟩
      | _ => exact .error _

/-- What is read into an arena is laid out there. -/
theorem ofJson_agrees (value : Json) :
    Agrees (fun document arena => ∃ layout, Lays arena layout ∧
      layout.document arena.table = document) (Document.ofJson value) (ofJson value) := by
  cases value with
  | object members =>
      have empty : PutsInTable #[] [] ([], #[]) := ⟨[], rfl, rfl, .refl (.nil _)⟩
      rw [Document.ofJson, ofJson, readMembers]
      simp only [StateT.run_bind, bind_assoc]
      refine (readTable_agrees empty members .definitions).bind ?_
      rintro first ⟨_, mid⟩ puts
      refine (readTable_agrees puts members .defs).bind ?_
      rintro definitions ⟨_, mid⟩ ⟨bodies, rfl, rfl, changed⟩
      have root := (Nodes.reads (.object (Members.erase (Members.erase members
        TableKeyword.definitions.name) TableKeyword.defs.name))).schema mid
      rw [Schema.ofJson] at root
      refine root.bind ?_
      rintro _ ⟨_, last⟩ ⟨tree, rfl, rfl, after⟩
      refine .ok ⟨⟨tree, bodies⟩, ⟨rfl, rfl, ?_⟩, rfl⟩
      have laid := (changed.append after (.nil _)).laid
      exact laid.subperm (List.perm_append_singleton _ _).symm.subperm
  | _ => exact .error _

end Arena

end SchemaStream
