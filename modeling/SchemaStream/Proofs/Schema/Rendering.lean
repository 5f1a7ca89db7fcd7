import SchemaStream.Proofs.Json.Rearrangement
import SchemaStream.Proofs.Schema.Respelling

/-!
# Writing what is alike

What is written for two nodes is in a relation if what is written for their children is.  So
schemas that are alike are written as values that are the same up to the order of members.  No node
is written with two members of one name.
-/

namespace SchemaStream

open Json (Rearranged)

/-- A relation between values that holds between arrays and between objects if it holds between
what is in them. -/
structure Json.Congruent (R : Json → Json → Prop) : Prop where
  refl : ∀ value, R value value
  array : ∀ {items others : List Json}, List.Forall₂ R items others →
    R (.array items) (.array others)
  object : ∀ {members others : Members Json},
    List.Forall₂ (fun member other => member.1 = other.1 ∧ R member.2 other.2) members others →
      R (.object members) (.object others)

theorem Json.congruent_rearranged : Json.Congruent Rearranged where
  refl := .refl
  array := .array
  object := fun each => Json.rearranged_object_iff.2 ⟨_, each, .refl _⟩

namespace Schema

open Expansion (Parts)

/-- The members that are written for the keywords with a meaning. -/
def written (schema : Schema) : Members Json :=
  textMembers "$ref" schema.reference ++ typesMembers schema.types schema.typesListed ++
    textMembers "description" schema.description ++
    tableMembers "properties" (Members.mapValues toJson schema.properties) ++
    requiredMembers schema.required ++ itemsMembers schema.items ++
    listMembers "anyOf" (schema.anyOf.map toJson) ++
    listMembers "oneOf" (schema.oneOf.map toJson) ++
    listMembers "allOf" (schema.allOf.map toJson) ++ enumerationMembers schema.enumeration

theorem toJson_eq (schema : Schema) :
    schema.toJson = .object (schema.written ++ schema.keywords ++ schema.extensions) := by
  obtain ⟨⟩ := schema
  rw [toJson, written, propertiesJson_eq_mapValues, membersJson_eq_map, membersJson_eq_map,
    membersJson_eq_map]

/-! ## Values in a relation -/

/-- Members in the same order, with values in a relation. -/
abbrev Corresponding (R : Json → Json → Prop) (members others : Members Json) : Prop :=
  List.Forall₂ (fun member other => member.1 = other.1 ∧ R member.2 other.2) members others

section

variable {R : Json → Json → Prop} {schema other : Schema} (congruent : Json.Congruent R)
include congruent

theorem corresponding_refl (members : Members Json) : Corresponding R members members :=
  List.forall₂_same.2 fun member _ => ⟨rfl, congruent.refl member.2⟩

theorem corresponding_listMembers (keyword : String) {items others : List Json}
    (h : List.Forall₂ R items others) :
    Corresponding R (listMembers keyword items) (listMembers keyword others) := by
  cases h with
  | nil => exact .nil
  | cons first rest => exact .cons ⟨rfl, congruent.array (.cons first rest)⟩ .nil

theorem corresponding_tableMembers (keyword : String) {members others : Members Json}
    (h : Corresponding R members others) :
    Corresponding R (tableMembers keyword members) (tableMembers keyword others) := by
  cases h with
  | nil => exact .nil
  | cons first rest => exact .cons ⟨rfl, congruent.object (.cons first rest)⟩ .nil

theorem corresponding_written (stem : schema.stem = other.stem)
    (parts : (Parts.ofNode schema).Rel (fun child child' => R child.toJson child'.toJson)
      (Parts.ofNode other)) : Corresponding R schema.written other.written := by
  obtain ⟨types, listed, required, enumeration, reference, description⟩ := stem_eq_iff.1 stem
  have list {children children' : List Schema}
      (h : List.Forall₂ (fun child child' => R child.toJson child'.toJson) children children') :
      List.Forall₂ R (children.map toJson) (children'.map toJson) := by
    rwa [List.forall₂_map_left_iff, List.forall₂_map_right_iff]
  have properties : Corresponding R (Members.mapValues toJson schema.properties)
      (Members.mapValues toJson other.properties) := by
    have parts := parts.properties
    rwa [Members.mapValues, Members.mapValues, Corresponding, List.forall₂_map_left_iff,
      List.forall₂_map_right_iff]
  have items : Corresponding R (itemsMembers schema.items) (itemsMembers other.items) := by
    have parts : List.Forall₂ _ schema.items.toList other.items.toList := parts.items
    cases hi : schema.items with
    | none =>
        cases ho : other.items with
        | none => exact .nil
        | some _ => simp [hi, ho] at parts
    | some item =>
        cases ho : other.items with
        | none => simp [hi, ho] at parts
        | some item' =>
            rw [hi, ho, Option.toList_some, Option.toList_some, List.forall₂_cons] at parts
            exact .cons ⟨rfl, parts.1⟩ .nil
  rw [written, written, types, listed, required, enumeration, reference, description]
  have text := corresponding_refl congruent
  have table := corresponding_tableMembers congruent "properties" properties
  have list (keyword : String) {children children' : List Schema}
      (h : List.Forall₂ (fun child child' => R child.toJson child'.toJson) children children') :=
    corresponding_listMembers congruent keyword (list h)
  exact List.rel_append (List.rel_append (List.rel_append (List.rel_append (List.rel_append
    (List.rel_append (List.rel_append (List.rel_append (List.rel_append (text _) (text _))
      (text _)) table) (text _)) items) (list _ parts.anyOf)) (list _ parts.oneOf))
      (list _ parts.allOf)) (text _)

end

/-! ## Values up to order -/

variable {schema other : Schema}

theorem rearranged_toJson_of_alikeAt
    (h : AlikeAt (fun child child' => Rearranged child.toJson child'.toJson) schema other) :
    Rearranged schema.toJson other.toJson := by
  rw [toJson_eq, toJson_eq]
  refine Json.rearranged_object_iff.2
    ⟨other.written ++ schema.keywords ++ schema.extensions, ?_, ?_⟩
  · have carried := corresponding_refl Json.congruent_rearranged
    have written := corresponding_written Json.congruent_rearranged h.stem h.parts
    exact List.rel_append (List.rel_append written (carried _)) (carried _)
  · exact (h.keywords.perm.append_left other.written).append h.extensions.perm

/-- Schemas that are alike are written alike. -/
theorem Respelled.rearranged_toJson (h : Alike schema other) :
    Rearranged schema.toJson other.toJson := by
  induction schema using Schema.induct generalizing other with
  | node schema ih =>
      refine rearranged_toJson_of_alikeAt ((alike_iff.1 h).imp_of_mem ?_)
      intro child mem child' related
      exact ih child mem related

/-! ## Names -/

def meaningful : List String :=
  ["$ref", "type", "description", "properties", "required", "items", "anyOf", "oneOf", "allOf",
    "enum"]

theorem keys_textMembers_sublist (keyword : String) (text : Option String) :
    (Members.keys (textMembers keyword text)).Sublist [keyword] := by
  cases text <;> simp [textMembers, Members.keys]

theorem keys_listMembers_sublist (keyword : String) (items : List Json) :
    (Members.keys (listMembers keyword items)).Sublist [keyword] := by
  cases items <;> simp [listMembers, Members.keys]

theorem keys_typesMembers_sublist (types : List JsonType) (listed : Bool) :
    (Members.keys (typesMembers types listed)).Sublist ["type"] := by
  cases types <;> simp [typesMembers, Members.keys]

theorem keys_written_sublist (schema : Schema) :
    (Members.keys schema.written).Sublist meaningful := by
  have text := keys_textMembers_sublist
  have list := keys_listMembers_sublist
  have types := keys_typesMembers_sublist schema.types schema.typesListed
  have properties : (Members.keys (tableMembers "properties"
      (Members.mapValues toJson schema.properties))).Sublist ["properties"] := by
    cases Members.mapValues toJson schema.properties <;> simp [tableMembers, Members.keys]
  have required : (Members.keys (requiredMembers schema.required)).Sublist ["required"] := by
    cases schema.required <;> simp [requiredMembers, Members.keys]
  have items : (Members.keys (itemsMembers schema.items)).Sublist ["items"] := by
    cases schema.items <;> simp [itemsMembers, Members.keys]
  have enumeration : (Members.keys (enumerationMembers schema.enumeration)).Sublist
      ["enum"] := by
    cases schema.enumeration <;> simp [enumerationMembers, Members.keys]
  simp only [Members.keys] at text list types properties required items enumeration
  simp only [written, Members.keys, List.map_append]
  exact ((((((((((text _ _).append types).append (text _ _)).append properties).append
    required).append items).append (list _ _)).append (list _ _)).append (list _ _)).append
    enumeration)

theorem ofName_of_mem_meaningful :
    ∀ name ∈ meaningful, Keyword.ofName name ≠ .extensions ∧ Keyword.ofName name ≠ .other := by
  decide

/-- A node is not written with two members of one name. -/
theorem Carrying.nodup_keys_members (carrying : schema.Carrying) :
    (Members.keys (schema.written ++ schema.keywords ++ schema.extensions)).Nodup := by
  have own := keys_written_sublist schema
  have distinct : (Members.keys schema.written).Nodup := own.nodup (by decide)
  have kind (name : String) (mem : name ∈ Members.keys schema.written) :=
    ofName_of_mem_meaningful name (own.subset mem)
  have keywords (name : String) (mem : name ∈ Members.keys schema.keywords) :=
    carrying.keywords.kinds name mem
  have extensions (name : String) (mem : name ∈ Members.keys schema.extensions) :=
    carrying.extensions.kinds name mem
  simp only [Members.keys, List.map_append] at *
  refine List.nodup_append.2 ⟨List.nodup_append.2 ⟨distinct, carrying.keywords.distinct, ?_⟩,
    carrying.extensions.distinct, ?_⟩
  · rintro name mem _ mem' rfl
    exact (kind name mem).2 (keywords name mem')
  · rintro name mem _ mem' rfl
    have extension := extensions name mem'
    rcases List.mem_append.1 mem with mem | mem
    · exact (kind name mem).1 extension
    · rw [keywords name mem] at extension
      cases extension

/-- A member is only written under the name of references if there is one. -/
theorem Carrying.mem_keys_reference_iff (carrying : schema.Carrying) :
    "$ref" ∈ Members.keys (schema.written ++ schema.keywords ++ schema.extensions) ↔
      schema.reference ≠ none := by
  have carried {kind : Keyword} {members : Members Json} (h : Members.Carried kind members)
      (other : kind ≠ .reference) : "$ref" ∉ Members.keys members := by
    intro mem
    have same : Keyword.reference = kind := h.kinds "$ref" mem
    exact other same.symm
  have keywords := carried carrying.keywords nofun
  have extensions := carried carrying.extensions nofun
  simp only [Members.keys, List.map_append, List.mem_append] at keywords extensions ⊢
  cases h : schema.reference with
  | some reference => simp [written, h, textMembers]
  | none =>
      -- with a reference, the same node would be written with two members of this name
      have more : Members.keys ({ schema with reference := some "" } : Schema).written =
          "$ref" :: Members.keys schema.written := by
        simp [written, h, textMembers, Members.keys]
      have distinct := (keys_written_sublist { schema with reference := some "" }).nodup (by decide)
      rw [more, List.nodup_cons, Members.keys] at distinct
      simp [distinct.1, keywords, extensions]

end Schema

end SchemaStream
