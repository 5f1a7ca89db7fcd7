import SchemaStream.Proofs.Schema.Grounding
import SchemaStream.Proofs.Json.Reordering

/-!
# What remains after expansion

The references left in an expanded schema are those to definitions that stay.  So a table in
which a definition was replaced by its expansion is grounded as before.
-/

namespace SchemaStream

namespace Expansion

namespace Parts

variable {parts : Parts} {schema child : Schema}

/-- The children of a node set up again are parts, or stood below the folded member. -/
theorem mem_children_under (count : parts.allOf.length = schema.allOf.length)
    (mem : child ∈ (parts.under schema).children) :
    child ∈ parts.all ∨ ∃ member ∈ parts.all, child ∈ member.children := by
  rw [Schema.mem_children_iff] at mem
  rw [under] at mem
  cases h : parts.allOf with
  | nil =>
      have none : schema.allOf = [] := List.length_eq_zero_iff.1 (by rw [← count, h]; rfl)
      simp only [h, none] at mem
      left
      rw [mem_all_iff, h]
      exact mem
  | cons member others =>
      simp only [h, Schema.folded] at mem
      have own (mem : child ∈ parts.properties.map Prod.snd ∨ parts.items = some child ∨
          child ∈ parts.anyOf ∨ child ∈ parts.oneOf) : child ∈ parts.all := by
        rw [mem_all_iff]
        tauto
      have below (mem : child ∈ member.properties.map Prod.snd ∨ member.items = some child ∨
          child ∈ member.anyOf ∨ child ∈ member.oneOf) :
          ∃ member ∈ parts.all, child ∈ member.children := by
        refine ⟨member, mem_all_iff.2 ?_, Schema.mem_children_iff.2 ?_⟩
        · simp [h]
        · tauto
      rcases mem with mem | mem | mem | mem | mem
      · obtain ⟨property, hp, rfl⟩ := List.mem_map.1 mem
        rcases Members.mem_insertAllNew hp with hp | hp
        · exact .inl (own (.inl (List.mem_map.2 ⟨property, hp, rfl⟩)))
        · exact .inr (below (.inl (List.mem_map.2 ⟨property, hp, rfl⟩)))
      · rcases Option.or_eq_some_iff.1 mem with mem | ⟨-, mem⟩
        · exact .inl (own (.inr (.inl mem)))
        · exact .inr (below (.inr (.inl mem)))
      · split at mem
        · exact .inr (below (.inr (.inr (.inl mem))))
        · exact .inl (own (.inr (.inr (.inl mem))))
      · split at mem
        · exact .inr (below (.inr (.inr (.inr mem))))
        · exact .inl (own (.inr (.inr (.inr mem))))
      · simp at mem

end Parts

variable {expansion : Expansion} {rank : String → Nat} {schema result : Schema}

/-- No reference is left for which a definition would have been put in. -/
theorem Grounded.not_inlines_of_expand (grounded : expansion.Grounded rank)
    (expands : expansion.expand schema = .ok result) :
    ∀ name ∈ result.referencedNames, ¬ expansion.Inlines name := by
  suffices every : ∀ result, expansion.expand schema = .ok result →
      ∀ name ∈ result.referencedNames, ¬ expansion.Inlines name from every result expands
  refine grounded.induct (motive := fun schema => ∀ result, expansion.expand schema = .ok result →
    ∀ name ∈ result.referencedNames, ¬ expansion.Inlines name) ?_ schema
  intro schema children inlined result expands name mem
  rw [grounded.expand_eq, expandNode_eq_ok_iff] at expands
  rcases expands with ⟨definition, found, h⟩ | ⟨stays, parts, hp, rfl⟩
  · exact inlined definition found result h name mem
  · obtain ⟨-, placed⟩ := expandParts_eq_ok_iff.1 hp
    have part (part : Schema) (mem : part ∈ parts.all) :
        ∀ name ∈ part.referencedNames, ¬ expansion.Inlines name := by
      obtain ⟨child, below, h⟩ := Outcome.exists_of_forall₂ placed.all.flip mem
      rw [← grounded.expand_eq] at h
      exact children child below part h
    rcases Schema.mem_referencedNames_iff.1 mem with ⟨reference, refers, named⟩ | ⟨child, hc, mem⟩
    · rw [reference_under] at refers
      obtain ⟨name', named', -, kept⟩ := inlined?_eq_none_iff.1 stays reference refers
      cases named.symm.trans named'
      exact fun inlines => inlines.2 kept
    · rcases Parts.mem_children_under placed.allOf.length_eq.symm hc with hc | ⟨member, hm, hc⟩
      · exact part child hc name mem
      · exact part member hm name (Schema.mem_referencedNames_iff.2 (.inr ⟨child, hc, mem⟩))

/-- Replacing a definition by its expansion leaves the ranks as they are. -/
theorem Grounded.insert {definitions : Members Schema} {kept : List String} {name : String}
    {body expanded : Schema} (grounded : (⟨definitions, kept⟩ : Expansion).Grounded rank)
    (found : Members.get? definitions name = some body)
    (expands : Expansion.expand ⟨definitions, kept⟩ body = .ok expanded) :
    (⟨Members.insert definitions name expanded, kept⟩ : Expansion).Grounded rank := by
  have mem : name ∈ Members.keys definitions := Members.mem_keys_iff_exists_get?.2 ⟨body, found⟩
  have names := Members.keys_insert_of_mem expanded mem
  have same (other : String) : (⟨Members.insert definitions name expanded, kept⟩ :
      Expansion).Inlines other ↔ (⟨definitions, kept⟩ : Expansion).Inlines other := by
    simp only [Inlines, names]
  have count : (Members.insert definitions name expanded).length = definitions.length := by
    simpa [Members.keys] using congrArg List.length names
  constructor
  · intro other inlines
    have bound := grounded.bounded other ((same other).1 inlines)
    exact count ▸ bound
  · intro key own hb put other refers inlines
    rw [same] at inlines
    rw [Members.get?_insert] at hb
    split at hb
    · cases hb
      exact absurd inlines (grounded.not_inlines_of_expand expands other refers)
    · exact grounded.descends key own hb put other refers inlines

end Expansion

end SchemaStream
