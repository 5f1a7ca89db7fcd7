import SchemaStream.Proofs.Schema.CompiledMembers
import SchemaStream.Proofs.Schema.Obtained

/-!
# Strict schemas are in the dialect

Each rule of the dialect is a rule about the members of one origin: the types and enumeration of
a node, its properties, or what it carries along.  As members of different origins have
different names, none of them can break the rules of another.
-/

namespace SchemaStream

open Schema (Carrying)

namespace Strict

/-! ## The dialect -/

/-- The types that a keyword names, one by itself or several in a list. -/
def NamesTypes (value : Json) (names : List String) : Prop :=
  (∃ name, value = .string name ∧ names = [name]) ∨ value = .strings names

/-- The rules for the members of one written schema. -/
structure Rules (options : StrictOptions) (members : Members Json) : Prop where
  distinct : (Members.keys members).Nodup
  types : ∀ value, ("type", value) ∈ members → ∃ names, NamesTypes value names ∧ names.Nodup ∧
    "integer" ∉ names ∧ ("object" ∈ names → "properties" ∈ Members.keys members)
  properties : ∀ value, ("properties", value) ∈ members → ∃ table, value = .object table ∧
    ("required", .strings (Members.keys table)) ∈ members ∧
      ("additionalProperties", .bool false) ∈ members
  bare : "properties" ∉ Members.keys members →
    "required" ∉ Members.keys members ∧ "additionalProperties" ∉ Members.keys members
  enumeration : ∀ value, ("enum", value) ∈ members → ("type", .string "string") ∈ members ∧
    ∃ texts, value = .strings texts ∧ texts.Nodup
  unversioned : "$schema" ∉ Members.keys members
  keywords : ∀ name ∈ options.stripKeywords, Keyword.ofName name = .other → name ∉ reserved →
    name ∉ Members.keys members
  extensions : options.stripExtensions = true →
    ∀ name ∈ Members.keys members, Text.begins "X-" name = false

def InDialect (options : StrictOptions) (schema : Json) : Prop :=
  ∃ members, schema = .object members ∧ Rules options members

/-! ## The names of members -/

variable {context : Context} {options : StrictOptions} {schema : Schema} {name : String}
  {value strict : Json} {object items : Members Json} {anyOf oneOf allOf : List Json}
  {member : String × Json}

theorem begins_of_ofName_eq_other (kind : Keyword.ofName name = .other) :
    Text.begins "X-" name = false := by
  unfold Keyword.ofName at kind
  repeat' split at kind
  all_goals cases kind
  exact Bool.eq_false_iff.2 ‹_›

/-- What the rules ask of the name of a member. -/
structure Admissible (options : StrictOptions) (name : String) : Prop where
  unversioned : name ≠ "$schema"
  keyword : name ∈ options.stripKeywords → Keyword.ofName name = .other → name ∈ reserved
  extension : options.stripExtensions = true → Text.begins "X-" name = false

theorem Origin.admissible (origin : Origin options schema object member) :
    Admissible options member.1 := by
  have stated : ∀ name ∈ typeNames ++ objectNames ++ plainNames, name ≠ "$schema" ∧
      (Keyword.ofName name = .other → name ∈ reserved) ∧ Text.begins "X-" name = false := by
    decide
  have of_stated (mem : member.1 ∈ typeNames ++ objectNames ++ plainNames) :
      Admissible options member.1 := by
    obtain ⟨unversioned, free, begins⟩ := stated member.1 mem
    exact ⟨unversioned, fun _ => free, fun _ => begins⟩
  cases origin with
  | types _ name => exact of_stated (List.mem_append_left _ (List.mem_append_left _ name))
  | object _ name => exact of_stated (List.mem_append_left _ (List.mem_append_right _ name))
  | plain name => exact of_stated (List.mem_append_right _ name)
  | keyword kind free kept =>
      have begins := begins_of_ofName_eq_other kind
      exact ⟨fun same => free (same ▸ by decide), fun stripped => absurd stripped kept,
        fun _ => begins⟩
  | extension kind kept =>
      refine ⟨fun same => ?_, fun _ other => ?_, fun strips => ?_⟩
      · rw [same] at kind
        exact absurd kind (by decide)
      · rw [other] at kind
        cases kind
      · rw [strips] at kept
        cases kept

/-! ## The rules -/

theorem nodup_distinct {α : Type} [BEq α] [LawfulBEq α] (entries : List α) :
    (distinct entries).Nodup := by
  suffices every : ∀ found : List α, found.Nodup → (entries.foldl (fun found entry =>
      if found.contains entry then found else found ++ [entry]) found).Nodup from
    every [] List.nodup_nil
  induction entries with
  | nil => exact fun _ start => start
  | cons first rest ih =>
      intro found start
      rw [List.foldl_cons]
      refine ih _ ?_
      split
      · exact start
      · next fresh =>
          rw [List.contains_iff_mem] at fresh
          rw [← List.concat_eq_append, List.nodup_concat]
          exact ⟨fresh, start⟩

theorem namesTypes_typesJson (types : List JsonType) (listed : Bool) :
    NamesTypes (Schema.typesJson types listed) (types.map JsonType.name) := by
  have list : Json.array (types.map fun type => .string type.name) =
      .strings (types.map JsonType.name) := by
    rw [Json.strings, List.map_map]
    rfl
  unfold Schema.typesJson
  split
  · next type =>
      split
      · exact .inr rfl
      · exact .inl ⟨type.name, rfl, rfl⟩
  · exact .inr list

theorem name_injective {type other : JsonType} (same : type.name = other.name) : type = other :=
  Option.some.inj ((ofName?_name type).symm.trans (same ▸ ofName?_name other))

/-- The types of a compiled node are narrow, and it is no object unless the node was one. -/
theorem exists_names_of_mem_typeMembers
    (mem : ("type", value) ∈
      typeMembers schema.types schema.typesListed schema.enumeration) :
    ∃ names, NamesTypes value names ∧ names.Nodup ∧ "integer" ∉ names ∧
      ("object" ∈ names → hasProperties schema = true) := by
  cases stated : schema.enumeration with
  | some values =>
      have same : value = .string "string" := by simpa [stated, typeMembers] using mem
      exact ⟨["string"], .inl ⟨"string", same, rfl⟩, List.nodup_singleton _, by decide,
        fun mem => absurd mem (by decide)⟩
  | none =>
      rw [stated, typeMembers, Schema.typesMembers] at mem
      split at mem
      · exact absurd mem List.not_mem_nil
      · simp only [List.mem_singleton, Prod.mk.injEq, true_and] at mem
        subst mem
        have named (type : JsonType) (mem : type.name ∈ (narrowTypes schema.types).map
            JsonType.name) : ∃ own ∈ schema.types, narrowed own = type := by
          obtain ⟨found, below, same⟩ := List.mem_map.1 mem
          rw [narrowTypes, mem_distinct_iff] at below
          exact name_injective same ▸ List.mem_map.1 below
        refine ⟨_, namesTypes_typesJson _ _, ?_, fun mem => ?_, fun mem => ?_⟩
        · exact (nodup_distinct _).map fun _ _ => name_injective
        · obtain ⟨own, -, same⟩ := named .integer mem
          cases own <;> cases same
        · obtain ⟨own, below, same⟩ := named .object mem
          have object : own = .object := by cases own <;> first | rfl | cases same
          simp [hasProperties, stated, object ▸ below]

theorem rules_assembled (carrying : schema.Carrying) (placed : Placed schema object items) :
    Rules options (assembled options schema object items anyOf oneOf allOf) := by
  have types {member : String × Json}
      (mem : member ∈ typeMembers schema.types schema.typesListed schema.enumeration) :
      member ∈ assembled options schema object items anyOf oneOf allOf := by
    simp [assembled, mem]
  have own {member : String × Json} (mem : member ∈ object) :
      member ∈ assembled options schema object items anyOf oneOf allOf := by
    simp [assembled, mem]
  have admissible {name : String}
      (mem : name ∈ Members.keys (assembled options schema object items anyOf oneOf allOf)) :
      Admissible options name := by
    obtain ⟨member, own, rfl⟩ := List.mem_map.1 mem
    exact (origin_of_mem_assembled carrying placed own).admissible
  constructor
  case distinct => exact nodup_keys_assembled carrying placed
  case types =>
    intro value mem
    obtain ⟨names, listed, distinct, narrow, object⟩ := exists_names_of_mem_typeMembers
      (mem_typeMembers_of_name carrying placed mem (by decide))
    refine ⟨names, listed, distinct, narrow, fun mem => ?_⟩
    rcases placed.object with ⟨-, without⟩ | ⟨table, rfl⟩
    · rw [object mem] at without
      cases without
    · exact List.mem_map.2 ⟨_, own (List.mem_cons_self ..), rfl⟩
  case properties =>
    intro value mem
    have mem := mem_object_of_name carrying placed mem (by decide)
    rcases placed.object with ⟨rfl, -⟩ | ⟨table, rfl⟩
    · exact absurd mem List.not_mem_nil
    · have same : value = .object table := by simpa [objectMembers] using mem
      exact ⟨table, same, own (by simp [objectMembers]), own (by simp [objectMembers])⟩
  case bare =>
    intro absent
    rcases placed.object with ⟨rfl, -⟩ | ⟨table, rfl⟩
    · have empty {name : String} (named : name ∈ objectNames) :
          name ∉ Members.keys (assembled options schema [] items anyOf oneOf allOf) := by
        intro mem
        obtain ⟨member, own, rfl⟩ := List.mem_map.1 mem
        exact List.not_mem_nil (mem_object_of_name carrying placed own named)
      exact ⟨empty (by decide), empty (by decide)⟩
    · exact absurd (List.mem_map.2 ⟨_, own (List.mem_cons_self ..), rfl⟩) absent
  case enumeration =>
    intro value mem
    have mem := mem_typeMembers_of_name carrying placed mem (by decide)
    cases stated : schema.enumeration with
    | none =>
        rw [stated, typeMembers] at mem
        have named : "enum" ∈ ["type"] := (Schema.keys_typesMembers_sublist _ _).subset
          (List.mem_map.2 ⟨_, mem, rfl⟩)
        exact absurd named (by decide)
    | some values =>
        have same : value = .strings (memberTexts values) := by
          simpa [stated, typeMembers] using mem
        refine ⟨types ?_, _, same, nodup_distinct _⟩
        simp [stated, typeMembers]
  case unversioned => exact fun mem => (admissible mem).unversioned rfl
  case keywords =>
    intro name stripped kind free mem
    exact free ((admissible mem).keyword stripped kind)
  case extensions =>
    intro strips name mem
    exact (admissible mem).extension strips

theorem rules_reference (options : StrictOptions) (reference : String) :
    Rules options [("$ref", .string reference)] := by
  have absent {name : String} {value : Json} (ne : name ≠ "$ref") :
      (name, value) ∉ [("$ref", Json.string reference)] := by
    simp [ne]
  constructor
  case distinct => exact List.nodup_singleton _
  case types => exact fun _ mem => absurd mem (absent (by decide))
  case properties => exact fun _ mem => absurd mem (absent (by decide))
  case bare => simp [Members.keys]
  case enumeration => exact fun _ mem => absurd mem (absent (by decide))
  case unversioned => simp [Members.keys]
  case keywords =>
    intro name _ kind _ mem
    cases List.mem_singleton.1 mem
    cases kind
  case extensions =>
    intro _ name mem
    cases List.mem_singleton.1 mem
    change Text.begins "X-" "$ref" = false
    decide

/-- Whatever a node is compiled to is in the dialect. -/
theorem inDialect_of_compileNode (carrying : schema.Carrying)
    (compiles : compileNode context schema = .ok strict) : InDialect context.options strict := by
  cases refers : schema.reference with
  | some reference =>
      obtain ⟨name, -, -, -, rfl⟩ := (compileNode_eq_ok_iff_of_reference refers).1 compiles
      exact ⟨_, rfl, rules_reference _ reference⟩
  | none =>
      obtain ⟨object, items, anyOf, oneOf, allOf, placed, rfl⟩ :=
        exists_placed_of_compileNode refers compiles
      exact ⟨_, rfl, rules_assembled carrying placed⟩

/-- All schemas in a compiled schema are in the dialect. -/
theorem inDialect_of_mem_positions (everywhere : schema.Everywhere Carrying)
    (compiles : compileNode context schema = .ok strict) :
    ∀ position ∈ strict.positions, InDialect context.options position := by
  intro position mem
  obtain ⟨node, below, compiled⟩ := exists_node_of_compileNode everywhere compiles mem
  exact inDialect_of_compileNode (everywhere node below) compiled

theorem Rules.erase {members : Members Json} (rules : Rules options members)
    (unruled : name ∉ typeNames ++ objectNames) : Rules options (Members.erase members name) := by
  have mem_iff {member : String × Json} :
      member ∈ Members.erase members name ↔ member ∈ members ∧ member.1 ≠ name := by
    simp [Members.erase]
  have key_iff {other : String} : other ∈ Members.keys (Members.erase members name) ↔
      other ∈ Members.keys members ∧ other ≠ name := by
    simp [Members.keys_erase]
  have ruled {other : String} (mem : other ∈ typeNames ++ objectNames) : other ≠ name := by
    rintro rfl
    exact unruled mem
  constructor
  case distinct => exact Members.nodup_keys_erase name rules.distinct
  case types =>
    intro value mem
    obtain ⟨names, listed, distinct, narrow, object⟩ := rules.types value (mem_iff.1 mem).1
    exact ⟨names, listed, distinct, narrow, fun mem =>
      key_iff.2 ⟨object mem, ruled (by decide)⟩⟩
  case properties =>
    intro value mem
    obtain ⟨table, same, required, closed⟩ := rules.properties value (mem_iff.1 mem).1
    have required' : "required" ≠ name := ruled (by decide)
    have closed' : "additionalProperties" ≠ name := ruled (by decide)
    exact ⟨table, same, mem_iff.2 ⟨required, required'⟩, mem_iff.2 ⟨closed, closed'⟩⟩
  case bare =>
    intro absent
    obtain ⟨required, closed⟩ :=
      rules.bare fun mem => absent (key_iff.2 ⟨mem, ruled (by decide)⟩)
    exact ⟨fun mem => required (key_iff.1 mem).1, fun mem => closed (key_iff.1 mem).1⟩
  case enumeration =>
    intro value mem
    obtain ⟨type, texts⟩ := rules.enumeration value (mem_iff.1 mem).1
    have type' : "type" ≠ name := ruled (by decide)
    exact ⟨mem_iff.2 ⟨type, type'⟩, texts⟩
  case unversioned => exact fun mem => rules.unversioned (key_iff.1 mem).1
  case keywords =>
    intro other stripped kind free mem
    exact rules.keywords other stripped kind free (key_iff.1 mem).1
  case extensions =>
    intro strips other mem
    exact rules.extensions strips other (key_iff.1 mem).1

end Strict

namespace Document

open Strict (InDialect)

variable {document : Document} {options : StrictOptions} {strict : Json}

/-- The members of a written document apart from its table, which it has if it has definitions. -/
def withoutTable (document : Document) (members : Members Json) : Members Json :=
  if document.definitions.isEmpty then members else Members.erase members document.table.name

/-- What is compiled from a document is in the dialect, apart from the definitions that lead into
cycles and are not compiled. -/
theorem Obtained.strict_inDialect (obtained : document.Obtained)
    (compiles : document.strict options = .ok strict) :
    ∃ members, strict = .object members ∧
      (∀ position ∈ (Json.object (document.withoutTable members)).positions,
        InDialect options position) ∧
      (document.definitions ≠ [] → ∃ table,
        Members.get? members document.table.name = some (.object table) ∧
        Members.keys table = Members.keys document.definitions ∧
        ∀ entry ∈ table, entry.1 ∉ document.cyclicDefinitions →
          ∀ position ∈ entry.2.positions, InDialect options position) := by
  have everywhere := obtained.carrying
  obtain ⟨root, definitions, first, second, rfl⟩ := strict_eq_ok_iff.1 compiles
  have inside := Strict.inDialect_of_mem_positions everywhere.schema first
  obtain ⟨members, rfl, rules⟩ := inside root (Json.mem_positions_iff.2 (.inl rfl))
  rw [Outcome.mapM_eq_ok_iff] at second
  have entries : ∀ entry ∈ definitions, entry.1 ∉ document.cyclicDefinitions →
      ∀ position ∈ entry.2.positions, InDialect options position := by
    intro entry mem acyclic
    obtain ⟨definition, own, compiled⟩ := Outcome.exists_of_forall₂ second.flip mem
    obtain ⟨same, ⟨tolerated, -⟩ | ⟨-, compiled⟩⟩ := Strict.compileDefinition_eq_ok_iff.1 compiled
    · exact absurd (same ▸ tolerated) acyclic
    · exact Strict.inDialect_of_mem_positions (everywhere.definitions definition own) compiled
  have names := Strict.keys_of_compileDefinition second
  have bare := Members.isEmpty_eq_of_keys_eq names
  simp only [withTable, bare, withoutTable]
  cases empty : document.definitions.isEmpty with
  | true =>
      refine ⟨members, rfl, inside, fun some => ?_⟩
      exact absurd (List.isEmpty_iff.1 empty) some
  | false =>
      have put : Members.get? (Members.insert members document.table.name (.object definitions))
          document.table.name = some (.object definitions) := by
        rw [Members.get?_insert, if_pos rfl]
      refine ⟨_, rfl, ?_, fun _ => ⟨definitions, put, names, entries⟩⟩
      simp only [Bool.false_eq_true, if_false, Members.erase_insert]
      intro position mem
      rcases Json.mem_positions_of_subset (List.filter_subset_self _) mem with rfl | mem
      · exact ⟨_, rfl, rules.erase (by cases document.table <;> decide)⟩
      · exact inside position mem

/-- An order with a counter of several types, an enumeration with a repeated member and a list of
further orders. -/
def orderJson : Json :=
  .object
    [("$schema", .string "draft-07"), ("type", .string "object"), ("X-Note", .bool true),
      ("properties", .object
        [("count", .object
            [("type", .strings ["integer", "number", "null"]), ("default", .nat 0)]),
          ("kind", .object [("enum", .array [.string "new", .string "new", .bool true])]),
          ("next", .object [("$ref", .string "#/$defs/Order")])]),
      ("$defs", .object
        [("Order", .object
            [("properties", .object [("next", .object [("$ref", .string "#/$defs/Order")])])]),
          ("Size", .object [("type", .string "integer"), ("format", .string "int32")])])]

def orderDocument : Document where
  root := .apart
    { types := [.object]
      properties :=
        [("count",
            { types := [.integer, .number, .null], typesListed := true
              keywords := [("default", .nat 0)] }),
          ("kind", { enumeration := some [.string "new", .string "new", .bool true] }),
          ("next", { reference := some "#/$defs/Order" })]
      extensions := [("X-Note", .bool true)]
      keywords := [("$schema", .string "draft-07")] }
  definitions :=
    [("Order", { properties := [("next", { reference := some "#/$defs/Order" })] }),
      ("Size", { types := [.integer], keywords := [("format", .string "int32")] })]
  table := .defs

def orderStrictRoot : Members Json :=
  [("type", .string "object"),
    ("properties", .object
      [("count", .object [("type", .strings ["number", "null"])]),
        ("kind", .object [("type", .string "string"), ("enum", .strings ["new", "true"])]),
        ("next", .object [("$ref", .string "#/$defs/Order")])]),
    ("required", .strings ["count", "kind", "next"]), ("additionalProperties", .bool false)]

def orderStrictTable : Members Json :=
  [("Order", .object
      [("properties", .object [("next", .object [("$ref", .string "#/$defs/Order")])])]),
    ("Size", .object [("type", .string "number")])]

theorem strict_inDialect_order :
    orderDocument.Obtained ∧
      orderDocument.strict {} =
        .ok (.object (orderStrictRoot ++ [("$defs", .object orderStrictTable)])) ∧
      (∀ position ∈ (Json.object orderStrictRoot).positions, InDialect {} position) ∧
      ∀ position ∈ (Json.object [("type", .string "number")]).positions,
        InDialect {} position := by
  have read : ofJson orderJson = .ok orderDocument := rfl
  have obtained := Obtained.read read
  have compiles : orderDocument.strict {} =
      .ok (.object (orderStrictRoot ++ [("$defs", .object orderStrictTable)])) := rfl
  obtain ⟨members, same, root, definitions⟩ := obtained.strict_inDialect compiles
  cases same
  obtain ⟨table, found, -, entries⟩ := definitions (List.cons_ne_nil _ _)
  cases found
  have size : ("Size", Json.object [("type", .string "number")]) ∈ orderStrictTable :=
    .tail _ (.head _)
  exact ⟨obtained, compiles, root, entries _ size (by decide)⟩

end Document

end SchemaStream
