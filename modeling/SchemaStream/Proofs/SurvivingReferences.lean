import SchemaStream.Proofs.Schema.CompiledMembers
import SchemaStream.Proofs.Schema.Obtained
import SchemaStream.Proofs.StrictPreparation

/-!
# References that survive preparation

The references that are left in a prepared schema were written in the raw schema, and are written
again as they were.  The definitions are written in one table, whichever table they were read
from.  So a reference leads to its definition just if it is spelled with the keyword of that
table.
-/

namespace SchemaStream

namespace Pointer

/-- A token of a pointer without its escapes. -/
def unescaped : List Char → List Char
  | '~' :: '0' :: rest => '~' :: unescaped rest
  | '~' :: '1' :: rest => '/' :: unescaped rest
  | first :: rest => first :: unescaped rest
  | [] => []

/-- The path that a reference into its own document spells. -/
def tokens? (reference : String) : Option (List String) :=
  (Text.after? "#/" reference).map fun pointer =>
    (pointer.toList.splitOn '/').map fun token => String.ofList (unescaped token)

end Pointer

/-- Whether a reference, read as a path, is the address of an entry of a table. -/
def Json.Leads (value : Json) (read : String → Option (List String)) (reference : String) : Prop :=
  ∃ (table : TableKeyword) (name : String), read reference = some [table.name, name] ∧
    name ∈ Members.keys (value.entries table)

namespace Schema

/-- A node whose reference, if it has one, is good. -/
def Refers (good : String → Prop) (schema : Schema) : Prop :=
  ∀ reference, schema.reference = some reference → good reference

variable {good : String → Prop} {schema : Schema} {value : Json}

theorem keeps_refers : Expansion.Keeps (Refers good) :=
  .of_reference (R := fun own => ∀ reference, own = some reference → good reference) nofun

theorem augmentable_refers : Augmentable (Refers good) (Refers good) :=
  augmentable_reference (R := fun own => ∀ reference, own = some reference → good reference) nofun

theorem refers_of_ofJson (read : ofJson value = .ok schema)
    (written : ∀ position ∈ value.positions, ∀ reference ∈ position.references, good reference) :
    schema.Everywhere (Refers good) := by
  intro node mem reference refers
  obtain ⟨position, below, reads⟩ := exists_position_of_ofJson read mem
  exact written position below reference (mem_references_of_ofJson reads refers)

end Schema

namespace Document

open Schema (Refers)

variable {good : String → Prop} {document expanded : Document} {value : Json}

theorem refers_of_ofJson (read : ofJson value = .ok document)
    (written : ∀ reference ∈ value.allReferences [.definitions, .defs], good reference) :
    document.Everywhere (Refers good) := by
  obtain ⟨members, first, definitions, root, rfl, hf, hs, hr, rfl⟩ := ofJson_eq_ok_iff.1 read
  have position (schema : Json) (mem : schema ∈ (Json.object members).positions) :
      ∀ reference ∈ schema.references, good reference := fun reference refers =>
    written reference (List.mem_flatMap.2 ⟨schema, Json.mem_schemas_iff.2 (.inl mem), refers⟩)
  have entry {table : TableKeyword} {entry : String × Json} {body : Schema}
      (mem : entry ∈ (Json.object members).entries table)
      (reads : Schema.ofJson entry.2 = .ok body) : body.Everywhere (Refers good) := by
    refine Schema.refers_of_ofJson reads fun schema below reference refers => ?_
    have within : schema ∈ (Json.object members).schemas [.definitions, .defs] :=
      Json.mem_schemas_iff.2 (.inr ⟨table, by cases table <;> decide, entry, mem, below⟩)
    exact written reference (List.mem_flatMap.2 ⟨schema, within, refers⟩)
  refine ⟨Schema.refers_of_ofJson hr fun schema mem => ?_, fun definition mem => ?_⟩
  · rcases Json.mem_positions_of_subset (untabled_subset members) mem with rfl | mem
    · exact fun reference refers => position _ (Json.mem_positions_iff.2 (.inl rfl)) reference
        (Json.references_subset (untabled_subset members) refers)
    · exact position schema mem
  · rcases exists_entry_of_readTable hs mem with mem | ⟨own, mem, reads⟩
    · rcases exists_entry_of_readTable hf mem with mem | ⟨own, mem, reads⟩
      · exact absurd mem List.not_mem_nil
      · exact entry mem reads
    · exact entry mem reads

/-- Expansion keeps all names of definitions, or none. -/
theorem keys_definitions_of_expand (root : document.root = .apart document.schema)
    (expands : document.expand = .ok expanded) (some : expanded.definitions ≠ []) :
    Members.keys expanded.definitions = Members.keys document.definitions := by
  rw [expand_of_apart root, Outcome.bind_eq_ok_iff] at expands
  obtain ⟨schema, -, expands⟩ := expands
  split at expands
  · cases expands
    exact absurd rfl some
  · obtain ⟨definitions, second, expands⟩ := Outcome.bind_eq_ok_iff.1 expands
    cases expands
    exact keys_expandDefinitions second

theorem table_of_expand (root : document.root = .apart document.schema)
    (expands : document.expand = .ok expanded) : expanded.table = document.table := by
  rw [expand_of_apart root, Outcome.bind_eq_ok_iff] at expands
  obtain ⟨schema, -, expands⟩ := expands
  split at expands
  · cases expands
    rfl
  · obtain ⟨definitions, -, expands⟩ := Outcome.bind_eq_ok_iff.1 expands
    cases expands
    rfl

/-- No reference is left without the definitions. -/
theorem Expanded.definitions_ne_nil (expanded : document.Expanded) :
    document.Everywhere (Refers fun _ => document.definitions ≠ []) := by
  refine ⟨fun node mem reference refers bare => ?_, fun definition mem _ _ _ _ bare => ?_⟩
  · obtain ⟨name, cyclic, -⟩ := (expanded.schema node mem).reference reference refers
    have defined := Definitions.cyclic_subset_keys cyclic
    rw [bare] at defined
    exact absurd defined List.not_mem_nil
  · rw [bare] at mem
    exact absurd mem List.not_mem_nil

/-! ## What is written -/

theorem mem_positions_insert_table {members : Members Json} {table : TableKeyword}
    {value position : Json}
    (mem : position ∈ (Json.object (Members.insert members table.name value)).positions) :
    position = .object (Members.insert members table.name value) ∨
      position ∈ (Json.object members).positions := by
  refine (Json.mem_positions_iff.1 mem).imp_right ?_
  rintro ⟨child, below, under⟩
  obtain ⟨member, own, found⟩ := Json.mem_subschemas_iff.1 below
  rcases Members.mem_insert own with own | rfl
  · have below := Json.mem_subschemas_iff.2 ⟨member, own, found⟩
    exact Json.mem_positions_iff.2 (.inr ⟨child, below, under⟩)
  · have unread : Keyword.ofName table.name = .other := by cases table <;> decide
    change child ∈ Json.subschemasAt (Keyword.ofName table.name) value at found
    rw [unread] at found
    exact absurd found List.not_mem_nil

theorem references_insert_table (members : Members Json) (table : TableKeyword) (value : Json) :
    Json.references (.object (Members.insert members table.name value)) ⊆
      Json.references (.object members) := by
  intro reference mem
  rw [Json.mem_references_iff] at mem ⊢
  rcases Members.mem_insert mem with own | same
  · exact own
  · have apart : "$ref" ≠ table.name := by cases table <;> decide
    exact absurd (congrArg Prod.fst same) apart

/-- A root and entries of a table that are written for a document, with good references only. -/
structure Rendered (document : Document) (good : String → Prop) (root : Json)
    (entries : Members Json) : Prop where
  object : ∃ members, root = .object members
  names : Members.keys entries = Members.keys document.definitions
  root : ∀ position ∈ root.positions, ∀ reference ∈ position.references, good reference
  entries : ∀ entry ∈ entries, ∀ position ∈ entry.2.positions,
    ∀ reference ∈ position.references, good reference

/-- The tables that are written for a document, of which there is one at most. -/
def tables (document : Document) : List TableKeyword :=
  if document.definitions.isEmpty then [] else [document.table]

end Document

namespace Schema

variable {good : String → Prop} {schema : Schema} {context : Strict.Context} {strict : Json}

theorem Refers.of_toJson (carrying : schema.Everywhere Carrying)
    (refers : schema.Everywhere (Refers good)) :
    ∀ position ∈ schema.toJson.positions, ∀ reference ∈ position.references, good reference := by
  intro position mem reference written
  rw [positions_toJson carrying] at mem
  obtain ⟨node, below, rfl⟩ := List.mem_map.1 mem
  exact refers node below reference
    ((carrying node below).reference_eq_of_mem_references written)

theorem Refers.of_compileNode (carrying : schema.Everywhere Carrying)
    (refers : schema.Everywhere (Refers good))
    (compiles : Strict.compileNode context schema = .ok strict) :
    ∀ position ∈ strict.positions, ∀ reference ∈ position.references, good reference := by
  intro position mem reference written
  obtain ⟨node, below, compiled⟩ := Strict.exists_node_of_compileNode carrying compiles mem
  exact refers node below reference
    (Strict.reference_eq_of_mem_references (carrying node below) compiled written)

end Schema

namespace Document

open Schema (Refers)

variable {good : String → Prop} {document : Document} {options : StrictOptions}
  {root strict : Json} {entries : Members Json}

section

variable (carrying : document.Everywhere Schema.Carrying)
  (refers : document.Everywhere (Refers good))
include carrying refers

theorem rendered_toJson : document.Rendered good document.schema.toJson
    (Schema.propertiesJson document.definitions) := by
  rw [Schema.propertiesJson_eq_mapValues]
  refine ⟨⟨_, Schema.toJson_eq _⟩, Members.keys_mapValues _ _,
    Schema.Refers.of_toJson carrying.schema refers.schema, fun entry mem => ?_⟩
  obtain ⟨definition, own, rfl⟩ := List.mem_map.1 mem
  exact Schema.Refers.of_toJson (carrying.definitions definition own)
    (refers.definitions definition own)

theorem exists_rendered_of_strict (compiles : document.strict options = .ok strict) :
    ∃ root entries, document.Rendered good root entries ∧
      document.withTable root entries = strict := by
  obtain ⟨root, entries, first, second, same⟩ := strict_eq_ok_iff.1 compiles
  rw [Outcome.mapM_eq_ok_iff] at second
  refine ⟨root, entries, ⟨Strict.exists_object_of_compileNode first,
    Strict.keys_of_compileDefinition second, Refers.of_compileNode carrying.schema refers.schema
    first, fun entry mem => ?_⟩, same⟩
  obtain ⟨definition, own, compiled⟩ := Outcome.exists_of_forall₂ second.flip mem
  have carrying := carrying.definitions definition own
  have refers := refers.definitions definition own
  obtain ⟨-, ⟨-, written⟩ | ⟨-, compiled⟩⟩ := Strict.compileDefinition_eq_ok_iff.1 compiled
  · rw [written]
    exact Refers.of_toJson carrying refers
  · exact Refers.of_compileNode carrying refers compiled

end

/-- All references that are written for a document are good. -/
theorem Rendered.good_of_mem_allReferences (rendered : document.Rendered good root entries)
    {reference : String}
    (mem : reference ∈ (document.withTable root entries).allReferences document.tables) :
    good reference := by
  obtain ⟨members, rfl⟩ := rendered.object
  obtain ⟨position, within, refers⟩ := List.mem_flatMap.1 mem
  have bare := Members.isEmpty_eq_of_keys_eq rendered.names
  simp only [withTable, bare, tables] at within
  cases empty : document.definitions.isEmpty with
  | true =>
      simp only [empty, if_true, Json.mem_schemas_iff, List.not_mem_nil, false_and, exists_false,
        or_false] at within
      exact rendered.root position within reference refers
  | false =>
      simp only [empty, Bool.false_eq_true, if_false, Json.mem_schemas_iff, List.mem_singleton,
        exists_eq_left] at within
      rcases within with within | ⟨entry, own, below⟩
      · rcases mem_positions_insert_table within with rfl | within
        · exact rendered.root _ (Json.mem_positions_iff.2 (.inl rfl)) reference
            (references_insert_table members document.table _ refers)
        · exact rendered.root position within reference refers
      · rw [Json.entries_of_get? (by rw [Members.get?_insert, if_pos rfl])] at own
        exact rendered.entries entry own position below reference refers

/-- The table that is written for a document names its definitions. -/
theorem Rendered.keys_entries (rendered : document.Rendered good root entries)
    (some : document.definitions ≠ []) :
    Members.keys ((document.withTable root entries).entries document.table) =
      Members.keys document.definitions := by
  obtain ⟨members, rfl⟩ := rendered.object
  cases entries with
  | nil => exact absurd (List.map_eq_nil_iff.1 rendered.names.symm) some
  | cons entry rest =>
      have put : Members.get? (Members.insert members document.table.name
          (.object (entry :: rest))) document.table.name = .some (.object (entry :: rest)) := by
        rw [Members.get?_insert, if_pos rfl]
      rw [withTable, List.isEmpty_cons, if_neg Bool.false_ne_true, Json.entries_of_get? put]
      exact rendered.names

end Document

namespace Prepared

variable {good : String → Prop} {raw written : Json} {config : Config} {prepared : Prepared}

/-- A prepared document was obtained from its raw schema. -/
theorem obtained_of_ofJson (parsed : ofJson raw config = .ok prepared) :
    prepared.document.Obtained := by
  obtain ⟨document, expanded, read, expands, rfl⟩ := ofJson_eq_ok_iff.1 parsed
  have obtained := Document.Obtained.expanded (.read read) expands
  dsimp only
  split
  · exact obtained.augmented
  · exact obtained

/-- The references that are left were written in the raw schema, and the definitions are left
if any reference is. -/
theorem refers_of_ofJson (parsed : ofJson raw config = .ok prepared)
    (written : ∀ reference ∈ raw.allReferences [.definitions, .defs], good reference) :
    prepared.document.Everywhere (Schema.Refers fun reference =>
      good reference ∧ prepared.document.definitions ≠ []) := by
  have left := (expanded_of_ofJson parsed).1.definitions_ne_nil
  obtain ⟨document, expanded, read, expands, rfl⟩ := ofJson_eq_ok_iff.1 parsed
  have root := Document.root_eq_apart read
  have start := (Document.refers_of_ofJson read written).expand Schema.keeps_refers root expands
  have refers : (if config.augment then expanded.augment else expanded).Everywhere
      (Schema.Refers good) := by
    split
    · rw [Document.augment_of_apart (Document.root_eq_apart_of_expand root expands)]
      exact ⟨Schema.augmentable_refers.augmentNode start.schema _, start.definitions⟩
    · exact start
  exact (refers.and left).imp fun node both reference own =>
    ⟨both.1 reference own, both.2 reference own⟩

/-- The definitions of a prepared document, if any are left, are those of the raw schema, in the
table of the raw schema. -/
theorem definitions_of_ofJson (parsed : ofJson raw config = .ok prepared) :
    prepared.document.table = raw.tableKeyword ∧ (prepared.document.definitions ≠ [] →
      ∀ (table : TableKeyword), ∀ name ∈ Members.keys (raw.entries table),
        name ∈ Members.keys prepared.document.definitions) := by
  obtain ⟨document, expanded, read, expands, rfl⟩ := ofJson_eq_ok_iff.1 parsed
  have root := Document.root_eq_apart read
  have table : expanded.table = raw.tableKeyword := by
    rw [Document.table_of_expand root expands]
    obtain ⟨members, first, definitions, schema, -, -, -, -, rfl⟩ :=
      Document.ofJson_eq_ok_iff.1 read
    rfl
  have names (some : expanded.definitions ≠ []) (table : TableKeyword) (name : String)
      (mem : name ∈ Members.keys (raw.entries table)) :
      name ∈ Members.keys expanded.definitions := by
    rw [Document.keys_definitions_of_expand root expands some]
    refine (Document.mem_keys_definitions_iff read).2 ?_
    cases table with
    | definitions => exact .inl mem
    | defs => exact .inr mem
  dsimp only
  split
  · rw [Document.augment_of_apart (Document.root_eq_apart_of_expand root expands)]
    exact ⟨table, names⟩
  · exact ⟨table, names⟩

/-- Where all references of a raw schema lead to definitions, a reference that is left leads to
one exactly if it is spelled with the keyword of the table that is written, unless the root itself
carries the other keyword. -/
theorem surviving_reference_leads_iff (read : String → Option (List String))
    (parsed : ofJson raw config = .ok prepared)
    (leads : ∀ reference ∈ raw.allReferences [.definitions, .defs], raw.Leads read reference)
    (output : written = prepared.toJson ∨ prepared.strict = .ok written) :
    ∀ reference ∈ written.allReferences prepared.document.tables,
      (written.Leads read reference ↔
        (∃ name, read reference = some [raw.tableKeyword.name, name]) ∨
          ∃ table name, table ≠ raw.tableKeyword ∧
            read reference = some [TableKeyword.name table, name] ∧
              name ∈ Members.keys (written.entries table)) := by
  have carrying := (obtained_of_ofJson parsed).carrying
  have refers := refers_of_ofJson parsed leads
  obtain ⟨root, entries, rendered, rfl⟩ : ∃ root entries, prepared.document.Rendered
      (fun reference => raw.Leads read reference ∧ prepared.document.definitions ≠ [])
      root entries ∧ prepared.document.withTable root entries = written := by
    rcases output with rfl | compiles
    · exact ⟨_, _, Document.rendered_toJson carrying refers, rfl⟩
    · exact Document.exists_rendered_of_strict carrying refers compiles
  obtain ⟨table, names⟩ := definitions_of_ofJson parsed
  intro reference mem
  obtain ⟨⟨own, name, path, defined⟩, some⟩ := rendered.good_of_mem_allReferences mem
  have keys := rendered.keys_entries some
  rw [table] at keys
  constructor
  · rintro ⟨other, name, path, mem⟩
    by_cases same : other = raw.tableKeyword
    · exact .inl ⟨name, same ▸ path⟩
    · exact .inr ⟨other, name, same, path, mem⟩
  · rintro (⟨other, spelled⟩ | ⟨other, name, -, path, mem⟩)
    · obtain ⟨-, rfl⟩ : own.name = raw.tableKeyword.name ∧ name = other := by
        simpa using path.symm.trans spelled
      exact ⟨raw.tableKeyword, name, spelled, keys ▸ names some own name defined⟩
    · exact ⟨other, name, path, mem⟩

/-- Two tables, with a definition in each that refers to itself. -/
def twoTablesJson : Json :=
  .object
    [("type", .string "object"),
      ("properties", .object
        [("x", .object [("$ref", .string "#/definitions/N")]),
          ("y", .object [("$ref", .string "#/$defs/M")])]),
      ("definitions", .object
        [("N", .object
          [("type", .string "object"),
            ("properties", .object [("next", .object [("$ref", .string "#/definitions/N")])])])]),
      ("$defs", .object
        [("M", .object
          [("type", .string "object"),
            ("properties", .object [("next", .object [("$ref", .string "#/$defs/M")])])])])]

def twoTables : Document where
  root := .apart
    { types := [.object]
      properties :=
        [("x", { reference := some "#/definitions/N" }), ("y", { reference := some "#/$defs/M" })] }
  definitions :=
    [("N",
        { types := [.object], properties := [("next", { reference := some "#/definitions/N" })] }),
      ("M", { types := [.object], properties := [("next", { reference := some "#/$defs/M" })] })]
  table := .defs

theorem ofJson_twoTables : ofJson twoTablesJson {} = .ok ⟨twoTables.augment, true, {}⟩ :=
  ofJson_eq_ok_iff.2 ⟨twoTables, twoTables, rfl, rfl, rfl⟩

theorem leads_of_twoTables :
    ∀ reference ∈ twoTablesJson.allReferences [.definitions, .defs],
      twoTablesJson.Leads Pointer.tokens? reference := by
  have all : twoTablesJson.allReferences [.definitions, .defs] =
      ["#/definitions/N", "#/$defs/M", "#/definitions/N", "#/$defs/M"] := by decide
  have old : twoTablesJson.Leads Pointer.tokens? "#/definitions/N" :=
    ⟨.definitions, "N", by decide, by decide⟩
  have new : twoTablesJson.Leads Pointer.tokens? "#/$defs/M" := ⟨.defs, "M", by decide, by decide⟩
  simp [all, old, new]

/-- The table that is written leads on to its own keyword only. -/
theorem reference_of_twoTables_leads_iff :
    ∃ prepared, ofJson twoTablesJson {} = .ok prepared ∧
      prepared.toJson.Leads Pointer.tokens? "#/$defs/M" ∧
      ¬ prepared.toJson.Leads Pointer.tokens? "#/definitions/N" := by
  have leads := surviving_reference_leads_iff Pointer.tokens? ofJson_twoTables leads_of_twoTables
    (.inl rfl)
  refine ⟨_, ofJson_twoTables, (leads "#/$defs/M" (by decide)).2 (.inl ⟨"M", by decide⟩), ?_⟩
  rw [leads "#/definitions/N" (by decide)]
  rintro (⟨name, path⟩ | ⟨table, name, other, path, mem⟩)
  · have path : some ["definitions", "N"] = some ["$defs", name] := path
    simp at path
  · cases table with
    | definitions => exact absurd mem List.not_mem_nil
    | defs => exact other rfl

/-- A reference into the table that is not written leads nowhere. -/
theorem not_every_surviving_reference_leads :
    ¬ ∀ (raw : Json) (config : Config) (prepared : Prepared),
      (∀ reference ∈ raw.allReferences [.definitions, .defs],
        raw.Leads Pointer.tokens? reference) →
      ofJson raw config = .ok prepared →
      ∀ reference ∈ prepared.toJson.allReferences prepared.document.tables,
        prepared.toJson.Leads Pointer.tokens? reference := by
  intro claim
  obtain ⟨table, name, path, mem⟩ := claim twoTablesJson {} _ leads_of_twoTables ofJson_twoTables
    "#/definitions/N" (by decide)
  cases table with
  | definitions => exact absurd mem List.not_mem_nil
  | defs =>
      have path : some ["definitions", "N"] = some ["$defs", name] := path
      simp at path

end Prepared

end SchemaStream
