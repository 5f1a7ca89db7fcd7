import SchemaStream.Proofs.Schema.Rounds
import SchemaStream.Proofs.Schema.Simulation

/-!
# Cycles of what is respelled

Both spellings of a schema refer to the same names, so they have the same cycles.
-/

namespace SchemaStream

open Schema (AlikeAt Respelled)

namespace Schema

variable {R : Schema → Schema → Prop} {live : String → Prop} {schema other : Schema}

theorem referencedNames_referring (site : SiteMetadata) (reference : String) :
    (site.referring reference).referencedNames = (Reference.name? reference).toList := by
  rw [referencedNames_eq]
  simp [SiteMetadata.referring, children]

theorem referencedNames_wrapping (site : SiteMetadata) (reference : String) :
    (site.wrapping reference).referencedNames = (Reference.name? reference).toList := by
  rw [referencedNames_eq]
  simp [SiteMetadata.wrapping, children, referencedNames_eq]

theorem flatMap_eq_of_forall₂ {children others : List Schema} {f : Schema → List String}
    (h : List.Forall₂ (fun child child' => f child = f child') children others) :
    children.flatMap f = others.flatMap f := by
  induction h with
  | nil => rfl
  | cons first rest ih => rw [List.flatMap_cons, List.flatMap_cons, first, ih]

theorem Respelled.referencedNames_eq (h : Respelled live schema other) :
    schema.referencedNames = other.referencedNames := by
  induction schema using Schema.induct generalizing other with
  | node schema ih =>
      rcases respelled_iff.1 h with h | ⟨site, reference, alive, rfl, rfl⟩
      · have same := h.imp_of_mem (S := fun child child' => child.referencedNames =
          child'.referencedNames) fun child mem child' related => ih child mem related
        have below : schema.children.flatMap referencedNames =
            other.children.flatMap referencedNames := flatMap_eq_of_forall₂ same.parts.all
        rw [Schema.referencedNames_eq schema, Schema.referencedNames_eq other, below,
          (stem_eq_iff.1 h.stem).2.2.2.2.1]
      · rw [referencedNames_wrapping, referencedNames_referring]

end Schema

theorem Definitions.cyclic_eq {live : String → Prop} {definitions others : Members Schema}
    (h : List.Forall₂ (fun definition other => definition.1 = other.1 ∧
      Respelled live definition.2 other.2) definitions others) :
    cyclic definitions = cyclic others :=
  cyclic_eq_of_referencedNames (h.imp fun _ _ both => ⟨both.1, both.2.referencedNames_eq⟩)

end SchemaStream
