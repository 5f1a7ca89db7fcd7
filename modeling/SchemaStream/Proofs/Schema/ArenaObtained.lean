import SchemaStream.Proofs.Schema.ArenaAugmentation
import SchemaStream.Proofs.Schema.ArenaDefinitions
import SchemaStream.Proofs.Schema.Expanded

/-!
# Arenas that are obtained

An arena into which a document is read has each node of the document at a place of its own, and
so it has after each operation.  The operations end, with the outcome that they have for the
document.
-/

namespace SchemaStream

open Outcome (Agrees Ends Settles)

variable {nodes : Nodes} {tree : Placed}

/-! ## Reading off -/

/-- What is stored can be read off. -/
theorem Stored.settles_schemaAt (stored : Stored nodes tree) :
    Settles (fun depth => nodes.schemaAt depth tree.place) tree.schema := by
  induction stored with
  | @node place shape own below ih =>
      have children : Settles
          (fun depth => shape.children.mapM fun child => nodes.schemaAt depth child.place)
          (shape.children.map Placed.schema) := .mapM ih
      have all : Settles
          (fun depth => (shape.children.mapM fun child => nodes.schemaAt depth child.place) >>=
            fun list => some (shape.withChildren list).schema)
          (shape.withChildren (shape.children.map Placed.schema)).schema :=
        children.bind (.pure _)
      rw [Shape.withChildren_children, ← Placed.schema_node place] at all
      refine all.succ fun depth => ?_
      rw [Placed.place, Nodes.schemaAt, own, Option.bind_eq_bind, Option.bind_some,
        Shape.children_map, List.mapM_map]
      simp only [Shape.withChildren_map]
      rfl

theorem Stored.settles_render (stored : Stored nodes tree) :
    Settles (fun depth => nodes.render depth tree.place) tree.schema.toJson :=
  stored.settles_schemaAt.map Schema.toJson

namespace Arena

variable {arena result : Arena} {layout : Layout} {document : Document}

theorem Lays.settles_document? (lays : arena.Lays layout) :
    Settles arena.document? (layout.document arena.table) := by
  have root := (lays.laid.stored layout.root List.mem_cons_self).settles_schemaAt
  have bodies : Settles (fun depth => (layout.bodies.map Prod.snd).mapM fun body =>
      arena.nodes.schemaAt depth body.place)
      ((layout.bodies.map Prod.snd).map Placed.schema) := .mapM fun body mem =>
    (lays.laid.stored body (List.mem_cons_of_mem _ mem)).settles_schemaAt
  have zip := Members.zip_keys_append Placed.schema layout.bodies []
  rw [List.append_nil] at zip
  have read (depth : Nat) : arena.document? depth = (do
      let root ← arena.nodes.schemaAt depth layout.root.place
      let bodies ← (layout.bodies.map Prod.snd).mapM fun body =>
        arena.nodes.schemaAt depth body.place
      return {
        root := .apart root
        definitions := (Members.keys layout.bodies).zip bodies
        table := arena.table }) := by
    rw [document?, lays.root, lays.definitions, Members.map_snd_mapValues, Members.keys_mapValues]
    simp only [List.mapM_map]
    rfl
  rw [funext read, Layout.document, ← zip]
  exact root.bind (bodies.bind (.pure _))

/-! ## Operations -/

theorem ends_lift {α : Type} {run : Nat → Option α} {value : α} (settles : Settles run value) :
    Ends (ε := SchemaError) (fun depth => ExceptT.lift (run depth)) (.ok value) := by
  obtain ⟨least, settles⟩ := settles
  refine ⟨least, fun depth enough => ?_⟩
  dsimp only
  rw [settles depth enough]
  rfl

section

variable (expresses : arena.Expresses document)
include expresses

theorem Expresses.root_eq_apart : document.root = .apart document.schema := by
  obtain ⟨layout, -, rfl⟩ := expresses
  rfl

theorem Expresses.settles_root :
    Settles (fun depth => arena.nodes.schemaAt depth arena.root) document.schema := by
  obtain ⟨layout, lays, rfl⟩ := expresses
  rw [lays.root]
  exact (lays.laid.stored layout.root List.mem_cons_self).settles_schemaAt

theorem Expresses.settles_render : Settles arena.render document.toJson := by
  obtain ⟨layout, lays, rfl⟩ := expresses
  exact lays.settles_document?.map Document.toJson

/-- Augmentation ends with the augmented document. -/
theorem Expresses.ends_augment : ∃ result,
    Ends (fun depth => arena.apply depth .augment) (.ok result) ∧
      result.Expresses document.augment := by
  obtain ⟨layout, lays, rfl⟩ := expresses
  obtain ⟨root, nodes, settles, there, same, changed⟩ :=
    Nodes.exists_augment lays.apart.append_left (some Schema.rootSlot)
  rw [← lays.root] at settles
  refine ⟨{ arena with nodes }, (ends_lift settles).bind (.pure _), ⟨root, layout.bodies⟩,
    lays.withRoot there changed, ?_⟩
  rw [Document.augment_of_apart rfl, Layout.document, same]
  rfl

/-- Expansion ends with the outcome that it has for the document. -/
theorem Expresses.ends_expand (distinct : (Members.keys document.definitions).Nodup) :
    ∃ outcome, Ends (fun depth => arena.apply depth .expand) outcome ∧
      Agrees Expresses outcome document.expand := by
  obtain ⟨layout, lays, rfl⟩ := expresses
  have distinct' : (Members.keys layout.bodies).Nodup := by
    rwa [Layout.document, Members.keys_mapValues] at distinct
  obtain ⟨outcome, ends, agrees⟩ :=
    lays.ends_expandGuarded distinct' (Document.grounded_expansion distinct)
  refine ⟨outcome, (ends_lift lays.settles_document?).bind ?_, agrees⟩
  exact ends.extend fun depth => expandGuarded_extends _ _ depth arena

/-- A copy that becomes the root is laid out beside the definitions, whatever it is a copy of. -/
theorem Expresses.of_rerootCopy {place : Nat}
    (ends : Ends (fun depth => arena.apply depth (.rerootCopy place)) (.ok result)) :
    ∃ schema, result.Expresses { document with root := .apart schema } := by
  obtain ⟨layout, lays, rfl⟩ := expresses
  obtain ⟨depth, ran⟩ := ends
  have ran := ran depth (Nat.le_refl depth)
  cases copied : (Nodes.deepCopy depth place).run arena.nodes with
  | none =>
      simp only [apply, copied] at ran
      cases ran
  | some out =>
      obtain ⟨copy, nodes⟩ := out
      simp only [apply, copied] at ran
      cases ran
      obtain ⟨root, rfl, changed⟩ := Nodes.changed_of_deepCopy copied
      exact ⟨root.schema, ⟨root, layout.bodies⟩, lays.withNewRoot changed, rfl⟩

end

/-- A copy of what is stored is new, and can become the root. -/
theorem Lays.exists_copy (lays : arena.Lays layout) (stored : Stored arena.nodes tree) :
    ∃ copy nodes, Settles (fun depth => (Nodes.deepCopy depth tree.place).run arena.nodes)
        (copy.place, nodes) ∧
      copy.schema = tree.schema ∧ Changed arena.nodes nodes [] [copy] ∧
      Lays { arena with nodes, root := copy.place } ⟨copy, layout.bodies⟩ := by
  obtain ⟨copy, nodes, settles, same, changed⟩ := Nodes.exists_deepCopy stored
  exact ⟨copy, nodes, settles, same, changed, lays.withNewRoot changed⟩

/-! ## Any sequence of operations -/

/-- Every node of a document is at a place of its own, every definition under its own name. -/
def Tidy (arena : Arena) : Prop :=
  ∃ document, arena.Expresses document ∧ (Members.keys document.definitions).Nodup

/-- A document is read into the arena, and operations are applied to it in any order. -/
inductive Obtained : Arena → Prop
  | read {value : Json} {arena : Arena} (reads : ofJson value = .ok arena) : Obtained arena
  | worked {arena result : Arena} (obtained : Obtained arena) (operation : Operation)
      (ends : Ends (fun depth => arena.apply depth operation) (.ok result)) : Obtained result

theorem tidy_of_ofJson {value : Json} (reads : ofJson value = .ok arena) : arena.Tidy := by
  have agrees := ofJson_agrees value
  rw [reads] at agrees
  obtain ⟨document, read, expresses⟩ := agrees.exists_of_ok_right
  exact ⟨document, expresses, Document.nodup_keys_definitions read⟩

theorem Tidy.step (tidy : arena.Tidy) {operation : Operation}
    (ends : Ends (fun depth => arena.apply depth operation) (.ok result)) : result.Tidy := by
  obtain ⟨document, expresses, distinct⟩ := tidy
  cases operation with
  | expand =>
      obtain ⟨outcome, ends', agrees⟩ := expresses.ends_expand distinct
      obtain rfl := ends'.unique ends
      obtain ⟨expanded, expands, expresses'⟩ := agrees.exists_of_ok_left
      exact ⟨expanded, expresses',
        (Document.expanded_of_expand expresses.root_eq_apart distinct expands).2.2⟩
  | augment =>
      obtain ⟨other, ends', expresses'⟩ := expresses.ends_augment
      cases ends'.unique ends
      refine ⟨document.augment, expresses', ?_⟩
      rwa [Document.augment_of_apart expresses.root_eq_apart]
  | rerootCopy place =>
      obtain ⟨schema, expresses'⟩ := expresses.of_rerootCopy ends
      exact ⟨_, expresses', distinct⟩

theorem Obtained.tidy (obtained : arena.Obtained) : arena.Tidy := by
  induction obtained with
  | read reads => exact tidy_of_ofJson reads
  | worked _ _ ends ih => exact ih.step ends

end Arena

end SchemaStream
