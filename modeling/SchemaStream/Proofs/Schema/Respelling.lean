import SchemaStream.Proofs.Schema.Overlay
import Mathlib.Data.List.Forall2

/-!
# Schemas spelled in two ways

Two schemas are alike if they only differ in the order of what their nodes carry along.
They are respelled if besides, at some nodes, one has a reference where the other has an
`allOf` with that reference as its only member.
-/

namespace SchemaStream

/-- What may stand beside a reference. -/
structure SiteMetadata where
  description : Option String
  extensions : Members Json
  keywords : Members Json
  carriedExtensions : Members.Carried .extensions extensions
  carriedKeywords : Members.Carried .other keywords

namespace SiteMetadata

def referring (site : SiteMetadata) (reference : String) : Schema :=
  { reference := some reference
    description := site.description
    extensions := site.extensions
    keywords := site.keywords }

/-- The reference as the only member of an `allOf`. -/
def wrapping (site : SiteMetadata) (reference : String) : Schema :=
  { allOf := [{ reference := some reference }]
    description := site.description
    extensions := site.extensions
    keywords := site.keywords }

end SiteMetadata

namespace Schema

open Expansion (Parts)

/-- A node without its children and what it carries along. -/
def stem (schema : Schema) : Schema :=
  { types := schema.types
    typesListed := schema.typesListed
    required := schema.required
    enumeration := schema.enumeration
    reference := schema.reference
    description := schema.description }

theorem stem_eq_iff {schema other : Schema} :
    schema.stem = other.stem ↔ schema.types = other.types ∧
      schema.typesListed = other.typesListed ∧ schema.required = other.required ∧
      schema.enumeration = other.enumeration ∧ schema.reference = other.reference ∧
      schema.description = other.description := by
  simp [stem]

/-- The same node up to the order of what it carries along, with children in a relation. -/
structure AlikeAt (R : Schema → Schema → Prop) (schema other : Schema) : Prop where
  stem : schema.stem = other.stem
  parts : (Parts.ofNode schema).Rel R (Parts.ofNode other)
  extensions : Members.Reordered schema.extensions other.extensions
  keywords : Members.Reordered schema.keywords other.keywords
  tidy : schema.Tidy
  named : schema.Named

inductive Respelled (live : String → Prop) : Schema → Schema → Prop
  | node {schema other : Schema} (stem : schema.stem = other.stem)
      (allOf : List.Forall₂ (Respelled live) schema.allOf other.allOf)
      (names : Members.keys schema.properties = Members.keys other.properties)
      (properties : List.Forall₂ (Respelled live) (schema.properties.map Prod.snd)
        (other.properties.map Prod.snd))
      (items : List.Forall₂ (Respelled live) schema.items.toList other.items.toList)
      (anyOf : List.Forall₂ (Respelled live) schema.anyOf other.anyOf)
      (oneOf : List.Forall₂ (Respelled live) schema.oneOf other.oneOf)
      (extensions : Members.Reordered schema.extensions other.extensions)
      (keywords : Members.Reordered schema.keywords other.keywords) (tidy : schema.Tidy)
      (named : schema.Named) : Respelled live schema other
  | sole (site : SiteMetadata) {reference : String} (alive : live reference) :
      Respelled live (site.wrapping reference) (site.referring reference)

/-- Alike are schemas respelled at no node. -/
abbrev Alike : Schema → Schema → Prop := Respelled fun _ => False

variable {R S : Schema → Schema → Prop} {live live' : String → Prop}
  {schema other member member' : Schema}

theorem Respelled.of_alikeAt (h : AlikeAt (Respelled live) schema other) :
    Respelled live schema other := by
  have properties := Members.forall₂_iff.1 h.parts.properties
  exact .node h.stem h.parts.allOf properties.1 properties.2 h.parts.items h.parts.anyOf
    h.parts.oneOf h.extensions h.keywords h.tidy h.named

theorem respelled_iff :
    Respelled live schema other ↔ AlikeAt (Respelled live) schema other ∨
      ∃ (site : SiteMetadata) (reference : String), live reference ∧
        schema = site.wrapping reference ∧ other = site.referring reference := by
  constructor
  · intro h
    cases h with
    | node stem allOf names properties items anyOf oneOf extensions keywords tidy named =>
        have properties := Members.forall₂_iff.2 ⟨names, properties⟩
        exact .inl ⟨stem, ⟨allOf, properties, items, anyOf, oneOf⟩, extensions, keywords, tidy,
          named⟩
    | sole site alive => exact .inr ⟨site, _, alive, rfl, rfl⟩
  · rintro (h | ⟨site, reference, alive, rfl, rfl⟩)
    · exact .of_alikeAt h
    · exact .sole site alive

theorem alike_iff : Alike schema other ↔ AlikeAt Alike schema other := by
  simp [respelled_iff]

namespace AlikeAt

theorem imp_of_mem (h : AlikeAt R schema other)
    (step : ∀ child ∈ schema.children, ∀ child', R child child' → S child child') :
    AlikeAt S schema other :=
  ⟨h.stem, h.parts.imp_of_mem step, h.extensions, h.keywords, h.tidy, h.named⟩

theorem refl_of_mem (tidy : schema.Tidy) (named : schema.Named)
    (step : ∀ child ∈ schema.children, R child child) : AlikeAt R schema schema :=
  ⟨rfl, Parts.Rel.refl_of_mem step, .refl tidy.extensions.distinct, .refl tidy.keywords.distinct,
    tidy, named⟩

end AlikeAt

theorem Respelled.mono (weaken : ∀ reference, live reference → live' reference)
    (h : Respelled live schema other) : Respelled live' schema other := by
  induction schema using Schema.induct generalizing other with
  | node schema ih =>
      rcases respelled_iff.1 h with h | ⟨site, reference, alive, rfl, rfl⟩
      · exact .of_alikeAt (h.imp_of_mem fun child mem child' h => ih child mem h)
      · exact .sole site (weaken reference alive)

theorem Respelled.refl (wellFormed : schema.WellFormed) (named : schema.Everywhere Named) :
    Respelled live schema schema := by
  induction schema using Schema.induct with
  | node schema ih =>
      obtain ⟨tidy, below⟩ := everywhere_iff.1 wellFormed
      obtain ⟨name, names⟩ := everywhere_iff.1 named
      exact .of_alikeAt (.refl_of_mem tidy name fun child mem =>
        ih child mem (below child mem) (names child mem))

/-! ## Operations on nodes that are alike -/

theorem AlikeAt.overlaid (h : AlikeAt R schema other) {site site' : Schema}
    (hs : AlikeAt S site site') : AlikeAt R (schema.overlaid site) (other.overlaid site') where
  stem := by
    have own := stem_eq_iff.1 h.stem
    have above := stem_eq_iff.1 hs.stem
    rw [stem_eq_iff]
    simp only [Schema.overlaid, own, above, and_self]
  parts := h.parts
  extensions := h.extensions.insertAll hs.extensions
  keywords := h.keywords.insertAll hs.keywords
  tidy := h.tidy.overlaid hs.tidy
  named := h.named

theorem nodup_addRequired {required : List String} (distinct : required.Nodup)
    (more : List String) : (more.foldl addRequired required).Nodup := by
  induction more generalizing required with
  | nil => exact distinct
  | cons name rest ih =>
      apply ih
      rw [addRequired]
      split
      · exact distinct
      · next absent =>
          rw [List.contains_iff_mem] at absent
          exact nodup_append_singleton distinct absent

theorem addRequired_eq_append {required more : List String}
    (distinct : (required ++ more).Nodup) : more.foldl addRequired required = required ++ more := by
  induction more generalizing required with
  | nil => simp
  | cons name rest ih =>
      have absent : name ∉ required := fun mem =>
        (List.nodup_append.1 distinct).2.2 _ mem _ List.mem_cons_self rfl
      have step : addRequired required name = required ++ [name] := by
        simp [addRequired, absent]
      rw [List.foldl_cons, step, ih (by simpa using distinct), List.append_assoc,
        List.singleton_append]

theorem Tidy.folded (tidy : schema.Tidy) (tidyMember : member.Tidy) :
    (schema.folded member).Tidy :=
  ⟨nodup_addRequired tidy.required member.required,
    tidy.extensions.insertAllNew tidyMember.extensions,
    tidy.keywords.insertAllNew tidyMember.keywords⟩

theorem AlikeAt.folded (h : AlikeAt R schema other) (hm : AlikeAt R member member') :
    AlikeAt R (schema.folded member) (other.folded member') where
  stem := by
    have own := stem_eq_iff.1 h.stem
    have below := stem_eq_iff.1 hm.stem
    rw [stem_eq_iff]
    simp only [Schema.folded, own, below, and_self]
  parts := by
    have some {list list' more more' : List Schema} (h : List.Forall₂ R list list')
        (h' : List.Forall₂ R more more') :
        List.Forall₂ R (if list.isEmpty then more else list)
          (if list'.isEmpty then more' else list') := by
      cases h with
      | nil => exact h'
      | cons first rest => exact .cons first rest
    refine ⟨.nil, Members.forall₂_insertAllNew h.parts.properties hm.parts.properties, ?_,
      some h.parts.anyOf hm.parts.anyOf, some h.parts.oneOf hm.parts.oneOf⟩
    have own : List.Forall₂ R schema.items.toList other.items.toList := h.parts.items
    have below : List.Forall₂ R member.items.toList member'.items.toList := hm.parts.items
    change List.Forall₂ R (schema.items.or member.items).toList
      (other.items.or member'.items).toList
    cases hi : schema.items with
    | none =>
        cases ho : other.items with
        | none => simpa using below
        | some _ => simp [hi, ho] at own
    | some item =>
        cases ho : other.items with
        | none => simp [hi, ho] at own
        | some _ => simpa [hi, ho] using own
  extensions := h.extensions.insertAllNew hm.extensions
  keywords := h.keywords.insertAllNew hm.keywords
  tidy := h.tidy.folded hm.tidy
  named := Members.nodup_keys_insertAllNew _ h.named

end Schema

namespace Expansion

open Schema (AlikeAt)

/-- Nodes that are alike stay so when parts that are alike are put below them. -/
theorem Parts.Rel.under {R S : Schema → Schema → Prop} {parts parts' : Parts}
    {schema other : Schema} (related : parts.Rel R parts') (h : AlikeAt S schema other)
    (names : Members.keys parts.properties = Members.keys schema.properties)
    (count : parts.allOf.length = schema.allOf.length)
    (members : ∀ member member', R member member' → AlikeAt R member member') :
    AlikeAt R (parts.under schema) (parts'.under other) := by
  have bare (allOf : parts.allOf = []) : schema.allOf = [] ∧ other.allOf = [] := by
    have counts : schema.allOf.length = other.allOf.length := h.parts.allOf.length_eq
    rw [allOf, List.length_nil] at count
    exact ⟨List.length_eq_zero_iff.1 count.symm, List.length_eq_zero_iff.1 (by omega)⟩
  obtain ⟨allOf, properties, items, anyOf, oneOf⟩ := parts
  obtain ⟨allOf', properties', items', anyOf', oneOf'⟩ := parts'
  have tidy : Schema.Tidy { schema with allOf := [], properties, items, anyOf, oneOf } :=
    ⟨h.tidy.required, h.tidy.extensions, h.tidy.keywords⟩
  have distinct : (Members.keys properties).Nodup := names ▸ h.named
  have expanded : AlikeAt R { schema with allOf := [], properties, items, anyOf, oneOf }
      { other with
        allOf := []
        properties := properties'
        items := items'
        anyOf := anyOf'
        oneOf := oneOf' } :=
    ⟨h.stem, ⟨.nil, related.properties, related.items, related.anyOf, related.oneOf⟩,
      h.extensions, h.keywords, tidy, distinct⟩
  cases related.allOf with
  | nil =>
      obtain ⟨own, own'⟩ := bare rfl
      rw [Parts.under, Parts.under]
      simpa only [own, own'] using expanded
  | cons first rest => exact expanded.folded (members _ _ first)

end Expansion

end SchemaStream
