import SchemaStream.Preparation
import SchemaStream.Proofs.Schema.Augmented

/-!
# Preparation

A prepared document is the expansion of the document that was read, augmented or not.  It
names properties and lists members as the schema did, apart from auxiliary names.
-/

namespace SchemaStream

namespace Prepared

variable {raw : Json} {config : Config} {prepared : Prepared} {document : Document}

theorem ofJson_eq_ok_iff :
    ofJson raw config = .ok prepared ↔
      ∃ document expanded, Document.ofJson raw = .ok document ∧ document.expand = .ok expanded ∧
        prepared =
          { document := if config.augment then expanded.augment else expanded
            cyclic := document.hasCycle
            config } := by
  simp only [ofJson, Outcome.bind_eq_ok_iff, pure, Except.pure, Except.ok.injEq]
  constructor
  · rintro ⟨document, read, expanded, expands, rfl⟩
    exact ⟨document, expanded, read, expands, rfl⟩
  · rintro ⟨document, expanded, read, expands, rfl⟩
    exact ⟨document, read, expanded, expands, rfl⟩

theorem config_of_ofJson (parsed : ofJson raw config = .ok prepared) :
    prepared.config = config := by
  obtain ⟨_, _, -, -, rfl⟩ := ofJson_eq_ok_iff.1 parsed
  rfl

theorem everywhere_of_ofJson {names : String → Prop} {members : Json → Prop}
    (auxiliary : ∀ name, Auxiliary.isAuxiliary name = true → names name)
    (read : Document.ofJson raw = .ok document)
    (start : document.Everywhere (Schema.Uses names members))
    (parsed : ofJson raw config = .ok prepared) :
    prepared.document.Everywhere (Schema.Uses names members) := by
  obtain ⟨document', expanded, read', expands, rfl⟩ := ofJson_eq_ok_iff.1 parsed
  cases read.symm.trans read'
  have root := Document.root_eq_apart read
  have everywhere := Document.everywhere_of_expand root start expands
  dsimp only
  split
  · exact Document.everywhere_augment auxiliary
      (Document.root_eq_apart_of_expand root expands) everywhere
  · exact everywhere

end Prepared

end SchemaStream
