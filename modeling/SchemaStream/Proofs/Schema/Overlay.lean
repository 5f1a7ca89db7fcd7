import SchemaStream.Proofs.Json.Reordering
import SchemaStream.Proofs.Schema.Grounding
import SchemaStream.Proofs.Schema.WellFormed

/-!
# Overlaying and expanding

Laying a definition under a node and expanding commute, but for the order of the keywords
that a node carries along.  Only the reference of the definition itself is lost on the way.
-/

namespace SchemaStream

namespace Schema

/-- A node without the keywords that it only carries along. -/
def core (schema : Schema) : Schema := { schema with extensions := [], keywords := [] }

/-- The same node, what it carries along in another order. -/
structure Reordered (schema other : Schema) : Prop where
  core : schema.core = other.core
  extensions : Members.Reordered schema.extensions other.extensions
  keywords : Members.Reordered schema.keywords other.keywords

namespace Reordered

variable {schema other third : Schema}

theorem refl (tidy : schema.Tidy) : schema.Reordered schema :=
  ⟨rfl, .refl tidy.extensions.distinct, .refl tidy.keywords.distinct⟩

theorem symm (h : schema.Reordered other) : other.Reordered schema :=
  ⟨h.core.symm, h.extensions.symm, h.keywords.symm⟩

theorem trans (h : schema.Reordered other) (h' : other.Reordered third) :
    schema.Reordered third :=
  ⟨h.core.trans h'.core, h.extensions.trans h'.extensions, h.keywords.trans h'.keywords⟩

end Reordered

def withoutReference (schema : Schema) : Schema := { schema with reference := none }

theorem withoutReference_of_eq_none {schema : Schema} (none : schema.reference = none) :
    schema.withoutReference = schema := by
  obtain ⟨⟩ := schema
  rw [withoutReference, ← none]

theorem Tidy.overlaid {definition site : Schema} (tidy : definition.Tidy) (tidySite : site.Tidy) :
    (definition.overlaid site).Tidy :=
  ⟨tidy.required, tidy.extensions.insertAll tidySite.extensions,
    tidy.keywords.insertAll tidySite.keywords⟩

end Schema

namespace Expansion

variable {expansion : Expansion} {below : Schema → Except SchemaError Schema}

/-- What is laid over a node may as well be laid over what the node becomes. -/
theorem Parts.under_overlaid (parts : Parts) {definition site : Schema}
    (tidy : definition.Tidy) (tidySite : site.Tidy) :
    ((parts.under definition.withoutReference).overlaid site).Reordered
      (parts.under (definition.overlaid site)) := by
  obtain ⟨allOf, properties, items, anyOf, oneOf⟩ := parts
  cases allOf with
  | nil =>
      have own : (under { allOf := [], properties, items, anyOf, oneOf }
          definition.withoutReference).Tidy := ⟨tidy.required, tidy.extensions, tidy.keywords⟩
      exact .refl (own.overlaid tidySite)
  | cons member others =>
      constructor
      · simp [under, Schema.core, Schema.overlaid, Schema.folded, Schema.withoutReference,
          Option.or_assoc]
      · exact (Members.Reordered.insertAllNew_insertAll tidy.extensions.distinct
          tidySite.extensions.distinct member.extensions).symm
      · exact (Members.Reordered.insertAllNew_insertAll tidy.keywords.distinct
          tidySite.keywords.distinct member.keywords).symm

theorem expandNode_of_reference_eq_none {schema : Schema} (none : schema.reference = none) :
    expandNode expansion below schema =
      (expandParts expansion below schema).map fun parts => parts.under schema :=
  expandNode_of_stays (inlined?_of_no_reference none)

/-- A definition put in expands to the definition, its own reference left out, expanded and
laid under the site. -/
theorem expandNode_overlaid (expansion : Expansion) (below : Schema → Except SchemaError Schema)
    {definition site : Schema} (tidy : definition.Tidy) (tidySite : site.Tidy) :
    Outcome.Agrees (fun own result => (own.overlaid site).Reordered result)
      (expandNode expansion below definition.withoutReference)
      (expandNode expansion below (definition.overlaid site)) := by
  have own : expandNode expansion below definition.withoutReference =
      (expandParts expansion below definition).map
        fun parts => parts.under definition.withoutReference :=
    expandNode_of_reference_eq_none rfl
  have put : expandNode expansion below (definition.overlaid site) =
      (expandParts expansion below definition).map
        fun parts => parts.under (definition.overlaid site) :=
    expandNode_of_reference_eq_none rfl
  rw [own, put]
  cases expandParts expansion below definition with
  | error fault => exact .error fault
  | ok parts => exact .ok (parts.under_overlaid tidy tidySite)

/-- A node that refers to a definition becomes the definition expanded and laid under it. -/
theorem Grounded.expand_reference {rank : String → Nat} (grounded : expansion.Grounded rank)
    (site : Schema) {body : Schema} {reference name : String}
    (refers : site.reference = some reference) (named : Reference.name? reference = some name)
    (found : Members.get? expansion.definitions name = some body) (put : name ∉ expansion.kept)
    (tidy : body.Tidy) (tidySite : site.Tidy) :
    Outcome.Agrees (fun own result => (own.overlaid site).Reordered result)
      (expansion.expand body.withoutReference) (expansion.expand site) := by
  have inlined : expansion.inlined? site = .ok (some (body.overlaid site)) :=
    inlined?_eq_some_iff.2 ⟨reference, name, body, refers, named, found, put, rfl⟩
  have agree := expandNode_overlaid expansion expansion.expand tidy tidySite
  rw [← grounded.expand_eq, ← grounded.expand_eq] at agree
  rwa [grounded.expand_eq site, expandNode_of_inlined inlined]

end Expansion

end SchemaStream
