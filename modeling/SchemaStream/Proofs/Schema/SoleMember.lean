import SchemaStream.Proofs.Schema.DocumentSimulation
import SchemaStream.Proofs.Schema.Positions

/-!
# A reference alone in an `allOf`

At any position of a document, a reference may be written as the only member of an `allOf`
instead, with the same metadata beside it.  Both expand alike as long as the definition is
put in.  A reference that stays is only kept where it stands by itself.
-/

namespace SchemaStream

open Json (Rearranged)
open Schema (Alike AlikeAt Respelled)

namespace Expansion

variable {expansion : Expansion} {rank : String → Nat} {reference name : String}

/-- Where the definition stays, the reference does too, as nothing stands below it. -/
theorem Grounded.expand_referring (grounded : expansion.Grounded rank) (site : SiteMetadata)
    (named : Reference.name? reference = some name)
    (defined : name ∈ Members.keys expansion.definitions) (kept : name ∈ expansion.kept) :
    expansion.expand (site.referring reference) = .ok (site.referring reference) := by
  have stays : expansion.inlined? (site.referring reference) = .ok none := by
    rw [inlined?_eq_none_iff]
    intro other refers
    cases refers
    exact ⟨name, named, defined, kept⟩
  rw [grounded.expand_eq, expandNode_of_stays stays]
  rfl

end Expansion

namespace Document

variable {value : Json} {document : Document} {schema : Schema} {position : Site}
  {site : SiteMetadata} {reference name : String}

/-! ## Documents with either spelling at a position -/

/-- The position holds the reference as the only member of an `allOf`. -/
abbrev wrappingAt (document : Document) (position : Site) (site : SiteMetadata)
    (reference : String) : Document :=
  document.modifyAt position fun _ => site.wrapping reference

/-- The position holds the reference itself. -/
abbrev referringAt (document : Document) (position : Site) (site : SiteMetadata)
    (reference : String) : Document :=
  document.modifyAt position fun _ => site.referring reference

/-- The bodies of a definition in the two documents.  Only the definition that holds the
position differs, and it is the changed node itself or has it below. -/
structure Bodies (position : Site) (site : SiteMetadata) (reference key : String)
    (body body' : Schema) : Prop where
  whole : position = ⟨some key, []⟩ → body = site.wrapping reference
  below : position ≠ ⟨some key, []⟩ → Schema.AlikeAt (Respelled (Eq reference)) body body'
  elsewhere : position.definition ≠ some key → Alike body body'

section Positions

variable (root : document.root = .apart schema) (wellFormed : document.Everywhere Schema.Tidy)
  (named : document.Everywhere Schema.Named)

include root

theorem grounded_wrappingAt (position : Site) (site : SiteMetadata) (reference : String)
    (distinct : (Members.keys document.definitions).Nodup) :
    (document.wrappingAt position site reference).expansion.Grounded
      (Definitions.round (document.wrappingAt position site reference).definitions) :=
  grounded_expansion (keys_modifyAt root _ ▸ distinct)

theorem grounded_referringAt (position : Site) (site : SiteMetadata) (reference : String)
    (distinct : (Members.keys document.definitions).Nodup) :
    (document.referringAt position site reference).expansion.Grounded
      (Definitions.round (document.referringAt position site reference).definitions) :=
  grounded_expansion (keys_modifyAt root _ ▸ distinct)

include wellFormed named

theorem respelled_definitions :
    List.Forall₂ (fun definition other => definition.1 = other.1 ∧
        Respelled (Eq reference) definition.2 other.2)
      (document.wrappingAt position site reference).definitions
      (document.referringAt position site reference).definitions := by
  refine forall₂_definitions_modifyAt (R := fun _ => Respelled (Eq reference)) root ?_ ?_
  · intro definition mem _
    exact .refl (wellFormed.definitions definition mem) (named.definitions definition mem)
  · intro definition mem _
    exact Schema.respelled_modify (wellFormed.definitions definition mem)
      (named.definitions definition mem) rfl position.path

theorem cyclicDefinitions_wrappingAt (position : Site) (site : SiteMetadata)
    (reference : String) :
    (document.wrappingAt position site reference).cyclicDefinitions =
      (document.referringAt position site reference).cyclicDefinitions :=
  Definitions.cyclic_eq (respelled_definitions root wellFormed named)

theorem rel_get?_definitions (key : String) :
    Option.Rel (Bodies position site reference key)
      (Members.get? (document.wrappingAt position site reference).definitions key)
      (Members.get? (document.referringAt position site reference).definitions key) := by
  refine Members.rel_get?_of_name (S := Bodies position site reference)
    (forall₂_definitions_modifyAt (R := Bodies position site reference) root ?_ ?_) key
  · intro definition mem elsewhere
    have same : Alike definition.2 definition.2 :=
      .refl (wellFormed.definitions definition mem) (named.definitions definition mem)
    refine ⟨fun here => absurd (congrArg Site.definition here) elsewhere, fun _ => ?_,
      fun _ => same⟩
    exact (Schema.alike_iff.1 same).imp_of_mem fun _ _ _ h => h.mono nofun
  · intro definition mem here
    refine ⟨fun whole => ?_, fun below => ?_, fun elsewhere => absurd here elsewhere⟩
    · rw [whole]
      rfl
    · refine Schema.alikeAt_modify (wellFormed.definitions definition mem)
        (named.definitions definition mem) rfl fun top => below ?_
      obtain ⟨changed, path⟩ := position
      cases here
      cases top
      rfl

/-! ## What the position shows -/

/-- Seen from the position are the definitions ranked no higher than the one referred to.  No
definition that is the position itself is among them. -/
theorem corresponds_wrappingAt (distinct : (Members.keys document.definitions).Nodup)
    (refers : Reference.name? reference = some name)
    (inlines : (document.wrappingAt position site reference).expansion.Inlines name) :
    Expansion.Corresponds (Eq reference)
      (fun key => Definitions.round (document.wrappingAt position site reference).definitions key ≤
        Definitions.round (document.wrappingAt position site reference).definitions name)
      (document.wrappingAt position site reference).expansion
      (document.referringAt position site reference).expansion where
  kept := cyclicDefinitions_wrappingAt root wellFormed named position site reference
  names := by
    rw [expansion, expansion, keys_modifyAt root, keys_modifyAt root]
  definitions := by
    intro key body body' seen put found found'
    have bodies : Option.Rel (Bodies position site reference key) (some body) (some body') := by
      rw [← found, ← found']
      exact rel_get?_definitions root wellFormed named key
    cases bodies with
    | some h =>
        refine h.below fun here => ?_
        have whole := h.whole here
        have refersTo : name ∈ body.referencedNames := by
          rw [whole, Schema.referencedNames_wrapping, refers]
          exact List.mem_singleton.2 rfl
        have grounded := grounded_wrappingAt root position site reference distinct
        have lower := grounded.descends key body found put name refersTo inlines
        exact absurd seen (Nat.not_le_of_lt lower)
  closed := by
    intro key body seen put found other mem below
    have grounded := grounded_wrappingAt root position site reference distinct
    have lower := grounded.descends key body found put other mem below
    exact Nat.le_trans (Nat.le_of_lt lower) seen
  alive := by
    rintro other rfl
    exact ⟨name, refers, inlines⟩

/-- What stands at the position expands alike if the definition is put in. -/
theorem expand_wrapping_agrees (distinct : (Members.keys document.definitions).Nodup)
    (refers : Reference.name? reference = some name)
    (inlines : (document.wrappingAt position site reference).expansion.Inlines name) :
    Outcome.Agrees Alike
      ((document.wrappingAt position site reference).expansion.expand (site.wrapping reference))
      ((document.referringAt position site reference).expansion.expand
        (site.referring reference)) := by
  have grounded := grounded_wrappingAt root position site reference distinct
  have grounded' := grounded_referringAt root position site reference distinct
  refine (corresponds_wrappingAt root wellFormed named distinct refers inlines).expand_agrees
    grounded grounded' ?_ (.sole site rfl)
  intro key mem _
  rw [Schema.referencedNames_wrapping, refers, Option.toList_some, List.mem_singleton] at mem
  exact Nat.le_of_eq (congrArg _ mem)

/-- A reference that stays is dropped from the `allOf` and kept where it stands by itself. -/
theorem not_expand_wrapping_agrees (distinct : (Members.keys document.definitions).Nodup)
    (refers : Reference.name? reference = some name)
    (defined : name ∈ Members.keys document.definitions)
    (stays : name ∈ (document.referringAt position site reference).cyclicDefinitions) :
    ¬ Outcome.Agrees (fun expanded expanded' => Rearranged expanded.toJson expanded'.toJson)
      ((document.wrappingAt position site reference).expansion.expand (site.wrapping reference))
      ((document.referringAt position site reference).expansion.expand
        (site.referring reference)) := by
  have cycles := cyclicDefinitions_wrappingAt root wellFormed named position site reference
  have grounded := grounded_wrappingAt root position site reference distinct
  have grounded' := grounded_referringAt root position site reference distinct
  let bare : SiteMetadata := ⟨none, [], [], .nil, .nil⟩
  have member := grounded.expand_referring bare refers
    (by rw [expansion, keys_modifyAt root]; exact defined)
    (by rw [expansion, cycles]; exact stays)
  have kept := grounded'.expand_referring site refers
    (by rw [expansion, keys_modifyAt root]; exact defined) stays
  rw [grounded.expand_wrapping, show ({ reference := some reference } : Schema) =
    bare.referring reference from rfl, member, kept]
  intro agree
  have same := Outcome.Agrees.ok_iff.1 agree
  rw [Schema.toJson_eq, Schema.toJson_eq] at same
  have tidyWrapping : (site.wrapping reference).Tidy :=
    ⟨List.nodup_nil, site.carriedExtensions, site.carriedKeywords⟩
  have tidyReferring : (site.referring reference).Tidy :=
    ⟨List.nodup_nil, site.carriedExtensions, site.carriedKeywords⟩
  have tidyBare : (bare.referring reference).Tidy := ⟨List.nodup_nil, .nil, .nil⟩
  have written := tidyReferring.carrying.mem_keys_reference_iff.2 (Option.some_ne_none reference)
  rw [← same.keys_perm.mem_iff,
    (tidyWrapping.folded tidyBare).carrying.mem_keys_reference_iff] at written
  exact written rfl

/-- Below the root and the definitions that are expanded, the documents are respelled. -/
theorem respelledAs_wrappingAt (distinct : (Members.keys document.definitions).Nodup)
    (refers : Reference.name? reference = some name)
    (inlines : (document.wrappingAt position site reference).expansion.Inlines name)
    (below : ∀ holder, position.definition = some holder → position.path ≠ [] ∧
      holder ∉ (document.wrappingAt position site reference).cyclicDefinitions) :
    RespelledAs (Eq reference) (document.wrappingAt position site reference)
      (document.referringAt position site reference) where
  root := by
    refine ⟨_, _, root_modifyAt root _, root_modifyAt root _, ?_⟩
    have own : document.schema = schema := schema_of_apart root
    have wellFormed := own ▸ wellFormed.schema
    have named := own ▸ named.schema
    split
    · exact Schema.respelled_modify wellFormed named rfl position.path
    · exact .refl wellFormed named
  definitions := by
    refine Members.forall₂_of_rel_get? ?_ ?_ fun key => ?_
    · rw [keys_modifyAt root, keys_modifyAt root]
    · exact keys_modifyAt root _ ▸ distinct
    · refine Outcome.rel_imp (rel_get?_definitions root wellFormed named key)
        fun _ _ _ _ bodies => bodies.below ?_
      rintro rfl
      exact (below key rfl).1 rfl
  stays := by
    intro key stays body body' found found'
    have bodies : Option.Rel (Bodies position site reference key) (some body) (some body') := by
      rw [← found, ← found']
      exact rel_get?_definitions root wellFormed named key
    cases bodies with
    | some h => exact h.elsewhere fun here => (below key here).2 stays
  distinct := keys_modifyAt root _ ▸ distinct
  table := by
    obtain ⟨definition, path⟩ := position
    cases definition with
    | none => simp [modifyAt, modifySchema, root]
    | some changed => rfl
  alive := by
    rintro other rfl
    exact ⟨name, refers, inlines⟩

end Positions

/-! ## Both spellings -/

/-- At every position of a document that was read, a reference alone in an `allOf` and the
reference itself lead to the same cycles, and show the same exactly if the definition is put
in.  Then also the documents are written alike, unless the position is a definition. -/
theorem sole_member_shows_reference_iff (distinct : value.distinct = true)
    (parsed : ofJson value = .ok document) (position : Site) (site : SiteMetadata)
    (refers : Reference.name? reference = some name)
    (defined : name ∈ Members.keys document.definitions) :
    (document.wrappingAt position site reference).cyclicDefinitions =
        (document.referringAt position site reference).cyclicDefinitions ∧
      (Outcome.Agrees (fun expanded expanded' => Rearranged expanded.toJson expanded'.toJson)
          ((document.wrappingAt position site reference).expansion.expand
            (site.wrapping reference))
          ((document.referringAt position site reference).expansion.expand
            (site.referring reference)) ↔
        name ∉ (document.referringAt position site reference).cyclicDefinitions) ∧
      (name ∉ (document.referringAt position site reference).cyclicDefinitions →
        (∀ holder, position.definition = some holder → position.path ≠ [] ∧
          holder ∉ (document.referringAt position site reference).cyclicDefinitions) →
        Outcome.Agrees (fun expanded expanded' => Rearranged expanded.toJson expanded'.toJson)
          (document.wrappingAt position site reference).expand
          (document.referringAt position site reference).expand) := by
  have root := root_eq_apart parsed
  have wellFormed := everywhere_of_ofJson Schema.preserved_tidy trivial parsed
  have named := everywhere_of_ofJson Schema.preserved_named distinct parsed
  have names := nodup_keys_definitions parsed
  have cycles := cyclicDefinitions_wrappingAt root wellFormed named position site reference
  have inlines (put : name ∉ (document.referringAt position site reference).cyclicDefinitions) :
      (document.wrappingAt position site reference).expansion.Inlines name := by
    rw [Expansion.Inlines, expansion, keys_modifyAt root, cycles]
    exact ⟨defined, put⟩
  refine ⟨cycles, ⟨fun agree stays => ?_, fun put => ?_⟩, fun put below => ?_⟩
  · exact not_expand_wrapping_agrees root wellFormed named names refers defined stays agree
  · exact (expand_wrapping_agrees root wellFormed named names refers (inlines put)).imp
      fun _ _ _ _ alike => alike.rearranged_toJson
  · exact (respelledAs_wrappingAt root wellFormed named names refers (inlines put)
      (cycles ▸ below)).expand_agrees

/-- A table of two definitions, one of which refers to itself, below a root with a property. -/
def linked (property : Schema) : Document where
  root := .apart { types := [.object], properties := [("x", property), ("y", .ofType .integer)] }
  definitions :=
    [("N",
        { types := [.object]
          properties := [("next", { reference := some "#/definitions/N" }), ("value", {})] }),
      ("L", .ofType .string)]

/-- The document written with some members at a property. -/
def linkedMembers (property : Members Json) : Members Json :=
  [("type", .string "object"),
    ("properties", .object
      [("x", .object property), ("y", .object [("type", .string "integer")])]),
    ("definitions", .object
      [("N", .object
          [("type", .string "object"),
            ("properties", .object
              [("next", .object [("$ref", .string "#/definitions/N")]),
                ("value", .object [])])]),
        ("L", .object [("type", .string "string")])])]

def described : SiteMetadata where
  description := some "site"
  extensions := []
  keywords := [("default", .null)]
  carriedExtensions := .nil
  carriedKeywords := ⟨by decide, by decide⟩

def atProperty (name : String) : Site := ⟨none, [.property name]⟩

theorem sole_member_of_linked_shows_string :
    ((linked {}).wrappingAt (atProperty "x") described "#/definitions/L").cyclicDefinitions =
        ((linked {}).referringAt (atProperty "x") described "#/definitions/L").cyclicDefinitions ∧
      (Outcome.Agrees (fun expanded expanded' => Rearranged expanded.toJson expanded'.toJson)
          (((linked {}).wrappingAt (atProperty "x") described "#/definitions/L").expansion.expand
            (described.wrapping "#/definitions/L"))
          (((linked {}).referringAt (atProperty "x") described "#/definitions/L").expansion.expand
            (described.referring "#/definitions/L")) ↔
        "L" ∉ ((linked {}).referringAt (atProperty "x") described
          "#/definitions/L").cyclicDefinitions) ∧
      ("L" ∉ ((linked {}).referringAt (atProperty "x") described
          "#/definitions/L").cyclicDefinitions →
        (∀ holder, (atProperty "x").definition = some holder → (atProperty "x").path ≠ [] ∧
          holder ∉ ((linked {}).referringAt (atProperty "x") described
            "#/definitions/L").cyclicDefinitions) →
        Outcome.Agrees (fun expanded expanded' => Rearranged expanded.toJson expanded'.toJson)
          ((linked {}).wrappingAt (atProperty "x") described "#/definitions/L").expand
          ((linked {}).referringAt (atProperty "x") described "#/definitions/L").expand) :=
  sole_member_shows_reference_iff
    (show (Json.object (linkedMembers [])).distinct = true by decide)
    (show ofJson (.object (linkedMembers [])) = .ok (linked {}) from rfl) (atProperty "x")
    described rfl (by decide)

/-- A property whose `allOf` holds a reference that stays is left with its metadata alone. -/
theorem not_every_sole_member_shows_reference :
    ¬ ∀ (value : Json) (document : Document) (property : String) (site : SiteMetadata)
      (reference name : String), value.distinct = true → ofJson value = .ok document →
      document.schema.reference = none → property ∈ Members.keys document.schema.properties →
      Reference.name? reference = some name → name ∈ Members.keys document.definitions →
      Outcome.Agrees (fun expanded expanded' => Rearranged expanded.toJson expanded'.toJson)
        (document.wrappingAt (atProperty property) site reference).expand
        (document.referringAt (atProperty property) site reference).expand := by
  intro claim
  have agree := claim (.object (linkedMembers [])) (linked {}) "x" described "#/definitions/N" "N"
    (by decide) rfl rfl (by decide) rfl (by decide)
  let metadata : Members Json := [("description", .string "site"), ("default", .null)]
  let referring : Members Json := ("$ref", .string "#/definitions/N") :: metadata
  have wrapped : ((linked {}).wrappingAt (atProperty "x") described "#/definitions/N").expand =
      .ok (linked { description := some "site", keywords := [("default", .null)] }) := rfl
  have direct : ((linked {}).referringAt (atProperty "x") described "#/definitions/N").expand =
      .ok (linked (described.referring "#/definitions/N")) := rfl
  rw [wrapped, direct] at agree
  have same : Rearranged (.object (linkedMembers metadata)) (.object (linkedMembers referring)) :=
    (Outcome.Agrees.ok_iff.1 agree :)
  have properties : Option.Rel Rearranged (some (.object [("x", .object metadata), _]))
      (some (.object [("x", .object referring), _])) := same.rel_get? (by decide) "properties"
  cases properties with
  | some same =>
      have property : Option.Rel Rearranged (some (.object metadata)) (some (.object referring)) :=
        same.rel_get? (by decide) "x"
      cases property with
      | some same => exact absurd same.keys_perm.length_eq (by decide)

end Document

end SchemaStream
