import SchemaStream.Proofs.Schema.Emission

/-!
# The members of compiled nodes

A compiled node takes its members from the keywords with a meaning, from those that the
compiler sets and from those that are carried along.  The names of the three are apart, so no
member overwrites another.
-/

namespace SchemaStream

namespace Strict

variable {context : Context} {options : StrictOptions} {schema : Schema} {name : String}
  {value strict : Json} {object items : Members Json} {anyOf oneOf allOf : List Json}
  {member : String × Json}

def typeNames : List String := ["type", "enum"]

def objectNames : List String := ["properties", "required", "additionalProperties"]

def plainNames : List String := ["description", "items", "anyOf", "oneOf", "allOf"]

theorem keys_typeMembers_sublist (types : List JsonType) (listed : Bool)
    (enumeration : Option (List Json)) :
    (Members.keys (typeMembers types listed enumeration)).Sublist typeNames := by
  cases enumeration with
  | some values => exact .refl _
  | none =>
      exact (Schema.keys_typesMembers_sublist _ listed).trans
        (List.sublist_append_left ["type"] ["enum"])

theorem mem_keptKeywords_iff {keywords : Members Json} :
    member ∈ keptKeywords options keywords ↔
      member ∈ keywords ∧ member.1 ∉ reserved ∧ member.1 ∉ options.stripKeywords := by
  simp [keptKeywords]

/-- What the properties and the items of a node may be compiled to. -/
structure Placed (schema : Schema) (object items : Members Json) : Prop where
  object : object = [] ∧ hasProperties schema = false ∨ ∃ table, object = objectMembers table
  items : (Members.keys items).Sublist ["items"]

theorem Placed.keys_object (placed : Placed schema object items) :
    (Members.keys object).Sublist objectNames := by
  rcases placed.object with ⟨rfl, -⟩ | ⟨table, rfl⟩
  · exact List.nil_sublist _
  · exact .refl _

/-- A member of a compiled node, by what it comes from. -/
inductive Origin (options : StrictOptions) (schema : Schema) (object : Members Json)
    (member : String × Json) : Prop
  | types (mem : member ∈ typeMembers schema.types schema.typesListed schema.enumeration)
      (name : member.1 ∈ typeNames)
  | object (mem : member ∈ object) (name : member.1 ∈ objectNames)
  | plain (name : member.1 ∈ plainNames)
  | keyword (kind : Keyword.ofName member.1 = .other) (free : member.1 ∉ reserved)
      (kept : member.1 ∉ options.stripKeywords)
  | extension (kind : Keyword.ofName member.1 = .extensions)
      (kept : options.stripExtensions = false)

theorem origin_of_mem_assembled (carrying : schema.Carrying)
    (placed : Placed schema object items)
    (mem : member ∈ assembled options schema object items anyOf oneOf allOf) :
    Origin options schema object member := by
  have key {group : Members Json} (mem : member ∈ group) : member.1 ∈ Members.keys group :=
    List.mem_map.2 ⟨member, mem, rfl⟩
  have plain {group : Members Json} {keyword : String}
      (within : (Members.keys group).Sublist [keyword]) (listed : keyword ∈ plainNames)
      (mem : member ∈ group) : Origin options schema object member :=
    .plain (List.mem_singleton.1 (within.subset (key mem)) ▸ listed)
  have list := Schema.keys_listMembers_sublist
  simp only [assembled, List.mem_append, or_assoc] at mem
  rcases mem with mem | mem | mem | mem | mem | mem | mem | mem | mem
  · exact .types mem ((keys_typeMembers_sublist _ _ _).subset (key mem))
  · exact plain (Schema.keys_textMembers_sublist _ _) (by decide) mem
  · exact .object mem (placed.keys_object.subset (key mem))
  · exact plain placed.items (by decide) mem
  · exact plain (list _ _) (by decide) mem
  · exact plain (list _ _) (by decide) mem
  · exact plain (list _ _) (by decide) mem
  · obtain ⟨own, free, kept⟩ := mem_keptKeywords_iff.1 mem
    exact .keyword (carrying.keywords.kinds _ (key own)) free kept
  · rw [keptExtensions] at mem
    split at mem
    · exact absurd mem List.not_mem_nil
    · next kept =>
        exact .extension (carrying.extensions.kinds _ (key mem)) (Bool.eq_false_iff.2 kept)

theorem mem_typeMembers_of_name (carrying : schema.Carrying) (placed : Placed schema object items)
    (mem : (name, value) ∈ assembled options schema object items anyOf oneOf allOf)
    (named : name ∈ typeNames) :
    (name, value) ∈ typeMembers schema.types schema.typesListed schema.enumeration := by
  have apart : ∀ name ∈ typeNames, name ∉ objectNames ∧ name ∉ plainNames ∧
      Keyword.ofName name ≠ .other ∧ Keyword.ofName name ≠ .extensions := by decide
  obtain ⟨object, plain, keyword, extension⟩ := apart name named
  cases origin_of_mem_assembled carrying placed mem with
  | types mem => exact mem
  | object _ own => exact absurd own object
  | plain own => exact absurd own plain
  | keyword kind free kept => exact absurd kind keyword
  | extension kind kept => exact absurd kind extension

theorem mem_object_of_name (carrying : schema.Carrying) (placed : Placed schema object items)
    (mem : (name, value) ∈ assembled options schema object items anyOf oneOf allOf)
    (named : name ∈ objectNames) : (name, value) ∈ object := by
  have apart : ∀ name ∈ objectNames, name ∉ typeNames ∧ name ∉ plainNames ∧
      (Keyword.ofName name = .other → name ∈ reserved) ∧
        Keyword.ofName name ≠ .extensions := by decide
  obtain ⟨types, plain, keyword, extension⟩ := apart name named
  cases origin_of_mem_assembled carrying placed mem with
  | types _ own => exact absurd own types
  | object mem => exact mem
  | plain own => exact absurd own plain
  | keyword kind free kept => exact absurd (keyword kind) free
  | extension kind kept => exact absurd kind extension

/-- The names that a compiled node has from keywords with a meaning, in their order. -/
def statedNames : List String :=
  typeNames ++ ["description"] ++ objectNames ++ ["items"] ++ ["anyOf"] ++ ["oneOf"] ++ ["allOf"]

theorem keys_stated_sublist (placed : Placed schema object items) (anyOf oneOf allOf : List Json) :
    (Members.keys (typeMembers schema.types schema.typesListed schema.enumeration ++
      Schema.textMembers "description" schema.description ++ object ++ items ++
      Schema.listMembers "anyOf" anyOf ++ Schema.listMembers "oneOf" oneOf ++
      Schema.listMembers "allOf" allOf)).Sublist statedNames := by
  have list := Schema.keys_listMembers_sublist
  simp only [Members.keys, List.map_append]
  exact ((((((keys_typeMembers_sublist _ _ _).append
    (Schema.keys_textMembers_sublist _ _)).append placed.keys_object).append
    placed.items).append (list _ _)).append (list _ _)).append (list _ _)

theorem mem_keys_assembled (placed : Placed schema object items)
    (mem : name ∈ Members.keys (assembled options schema object items anyOf oneOf allOf)) :
    name ∈ statedNames ∨ name ∈ Members.keys schema.keywords ∨
      name ∈ Members.keys schema.extensions := by
  rw [assembled, Members.keys, List.map_append, List.map_append, List.mem_append, List.mem_append,
    or_assoc] at mem
  rcases mem with mem | mem | mem
  · exact .inl ((keys_stated_sublist placed anyOf oneOf allOf).subset mem)
  · exact .inr (.inl ((List.filter_sublist.map Prod.fst).subset mem))
  · rw [keptExtensions] at mem
    split at mem
    · exact absurd mem List.not_mem_nil
    · exact .inr (.inr mem)

theorem nodup_keys_assembled (carrying : schema.Carrying) (placed : Placed schema object items) :
    (Members.keys (assembled options schema object items anyOf oneOf allOf)).Nodup := by
  have apart : ∀ name ∈ statedNames, (Keyword.ofName name = .other → name ∈ reserved) ∧
      Keyword.ofName name ≠ .extensions := by decide
  have distinct : statedNames.Nodup := by decide
  have stated := keys_stated_sublist placed anyOf oneOf allOf
  have keywords := carried_keptKeywords carrying options
  have extensions := carried_keptExtensions carrying options
  have free (name : String) (mem : name ∈ Members.keys (keptKeywords options schema.keywords)) :
      name ∉ reserved := by
    obtain ⟨member, own, rfl⟩ := List.mem_map.1 mem
    exact (mem_keptKeywords_iff.1 own).2.1
  rw [assembled]
  generalize typeMembers _ _ _ ++ _ ++ _ ++ _ ++ _ ++ _ ++ _ = front at stated ⊢
  simp only [Members.keys, List.map_append] at *
  refine List.nodup_append.2 ⟨List.nodup_append.2 ⟨stated.nodup distinct,
    keywords.distinct, ?_⟩, extensions.distinct, ?_⟩
  · rintro name mem _ mem' rfl
    exact free name mem' ((apart name (stated.subset mem)).1 (keywords.kinds name mem'))
  · rintro name mem _ mem' rfl
    have extension := extensions.kinds name mem'
    rcases List.mem_append.1 mem with mem | mem
    · exact (apart name (stated.subset mem)).2 extension
    · rw [keywords.kinds name mem] at extension
      cases extension

/-- A node without a reference is compiled to members of these origins. -/
theorem exists_placed_of_compileNode (none : schema.reference = none)
    (compiles : compileNode context schema = .ok strict) :
    ∃ object items anyOf oneOf allOf, Placed schema object items ∧
      strict = .object (assembled context.options schema object items anyOf oneOf allOf) := by
  obtain ⟨object, items, anyOf, oneOf, allOf, ho, hi, -, -, -, rfl⟩ :=
    (compileNode_eq_ok_iff_of_no_reference none).1 compiles
  refine ⟨object, items, anyOf, oneOf, allOf, ⟨?_, ?_⟩, rfl⟩
  · split at ho
    · obtain ⟨table, -, rfl⟩ := Outcome.map_eq_ok_iff.1 ho
      exact .inr ⟨table, rfl⟩
    · next without =>
        cases ho
        exact .inl ⟨rfl, Bool.eq_false_iff.2 without⟩
  · obtain ⟨-, rfl⟩ | ⟨_, value, -, -, rfl⟩ := compileItems_eq_ok_iff.1 hi
    · exact List.nil_sublist _
    · exact .refl _

theorem exists_object_of_compileNode (compiles : compileNode context schema = .ok strict) :
    ∃ members, strict = .object members := by
  cases refers : schema.reference with
  | some reference =>
      obtain ⟨name, -, -, -, rfl⟩ := (compileNode_eq_ok_iff_of_reference refers).1 compiles
      exact ⟨_, rfl⟩
  | none =>
      obtain ⟨object, items, anyOf, oneOf, allOf, -, same⟩ :=
        exists_placed_of_compileNode refers compiles
      exact ⟨_, same⟩

/-- No reference is compiled from a node but its own. -/
theorem reference_eq_of_mem_references (carrying : schema.Carrying)
    (compiles : compileNode context schema = .ok strict) {reference : String}
    (mem : reference ∈ strict.references) : schema.reference = some reference := by
  cases refers : schema.reference with
  | some own =>
      obtain ⟨name, -, -, -, rfl⟩ := (compileNode_eq_ok_iff_of_reference refers).1 compiles
      have same := List.mem_singleton.1 (Json.mem_references_iff.1 mem)
      cases same
      rfl
  | none =>
      obtain ⟨object, items, anyOf, oneOf, allOf, placed, rfl⟩ :=
        exists_placed_of_compileNode refers compiles
      rw [Json.mem_references_iff] at mem
      have apart : "$ref" ∉ typeNames ∧ "$ref" ∉ objectNames ∧ "$ref" ∉ plainNames ∧
          Keyword.ofName "$ref" = .reference := by decide
      obtain ⟨types, object, plain, named⟩ := apart
      cases origin_of_mem_assembled carrying placed mem with
      | types _ own => exact absurd own types
      | object _ own => exact absurd own object
      | plain own => exact absurd own plain
      | keyword kind => cases named.symm.trans kind
      | extension kind => cases named.symm.trans kind

end Strict

end SchemaStream
