import SchemaStream.Proofs.Schema.Compilation
import SchemaStream.Proofs.Stability

/-!
# Strict schemas of prepared documents

The references that are left in a prepared document lead into the cycles that it still has, so
its strict schema can always be made.
-/

namespace SchemaStream

namespace Prepared

variable {raw : Json} {config : Config} {prepared : Prepared}

/-- Preparation leaves nothing to expand, and names no definition twice. -/
theorem expanded_of_ofJson (parsed : ofJson raw config = .ok prepared) :
    prepared.document.Expanded ∧ (Members.keys prepared.document.definitions).Nodup := by
  obtain ⟨document, expanded, read, expands, rfl⟩ := ofJson_eq_ok_iff.1 parsed
  obtain ⟨stable, -, distinct⟩ := Document.expanded_of_expand (Document.root_eq_apart read)
    (Document.nodup_keys_definitions read) expands
  dsimp only
  split
  · refine ⟨stable.augment, ?_⟩
    rw [Document.augment_of_apart stable.root]
    exact distinct
  · exact ⟨stable, distinct⟩

/-- A prepared document has a strict schema.  Every reference that is left in its root, or in a
definition that leads into no cycle, is to a definition that leads into one. -/
theorem strict_of_prepared (parsed : ofJson raw config = .ok prepared) :
    (∃ strict, prepared.strict = .ok strict) ∧
      ∀ start, start = prepared.document.schema ∨
          (∃ name, name ∉ prepared.document.cyclicDefinitions ∧
            Members.get? prepared.document.definitions name = some start) →
        ∀ node ∈ start.preorder, ∀ reference, node.reference = some reference →
          ∃ name ∈ prepared.document.cyclicDefinitions, Reference.name? reference = some name := by
  obtain ⟨expanded, distinct⟩ := expanded_of_ofJson parsed
  refine ⟨expanded.exists_strict distinct prepared.config.strict, ?_⟩
  rintro start (rfl | ⟨name, acyclic, found⟩) node below
  · exact (expanded.schema node below).reference
  · exact (expanded.definitions name start acyclic found node below).reference

theorem strict_of_prepared_tree :
    ∃ prepared, ofJson treeJson {} = .ok prepared ∧ (∃ strict, prepared.strict = .ok strict) ∧
      { reference := some "#/$defs/Node" } ∈ prepared.document.schema.preorder ∧
        ∃ name ∈ prepared.document.cyclicDefinitions,
          Reference.name? "#/$defs/Node" = some name := by
  have parsed : ofJson treeJson {} = .ok ⟨treeExpanded.augment, true, {}⟩ :=
    ofJson_eq_ok_iff.2 ⟨treeDocument, treeExpanded, rfl, rfl, rfl⟩
  obtain ⟨compiles, refer⟩ := strict_of_prepared parsed
  have top : ("top", { reference := some "#/$defs/Node" }) ∈
      treeExpanded.augment.schema.properties :=
    .tail _ (.tail _ (.tail _ (.head _)))
  have below := Schema.mem_preorder_iff.2
    (.inr ⟨_, Schema.mem_children_of_properties top, Schema.mem_preorder_iff.2 (.inl rfl)⟩)
  exact ⟨_, parsed, compiles, below, refer _ (.inl rfl) _ below _ rfl⟩

end Prepared

end SchemaStream
