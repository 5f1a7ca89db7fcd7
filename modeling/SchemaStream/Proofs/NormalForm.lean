import SchemaStream.Proofs.Schema.NormalForm
import SchemaStream.Proofs.Stability

/-!
# Documents in their normal form

A document is written in the normal form of the value that it is read from: its root, and behind it
the table, each definition in its normal form.  What is written is read again, and written as it is.
-/

namespace SchemaStream

namespace Json

open Schema (tableMembers)

def hasTable (value : Json) (table : TableKeyword) : Bool :=
  match value with
  | .object members => Members.has members table.name
  | _ => false

/-- The definitions under the keyword of a table in their normal forms, if there are any. -/
def normalEntriesUnder (table : TableKeyword) (members : Members Json) : Members Json :=
  match Members.get? members table.name with
  | some value => tableMembers table.name (normalTable value)
  | none => []

/-- A written document in its normal form. -/
def normalDocument : Json → Json
  | .object members =>
      .object (grouped (normalMembers (Document.untabled members)) ++
        normalEntriesUnder .definitions members ++ normalEntriesUnder .defs members)
  | value => value

end Json

namespace Document

open Json (normalDocument normalEntriesUnder)
open Schema (tableMembers)

variable {raw : Json} {document : Document} {members : Members Json} {table : TableKeyword}

theorem toJson_eq_append {root : Schema} {written : Members Json}
    (own : root.toJson = .object written) (fresh : table.name ∉ Members.keys written)
    (definitions : Members Schema) :
    toJson { root := .apart root, definitions, table } = .object (written ++
      tableMembers table.name (Members.mapValues Schema.toJson definitions)) := by
  rw [toJson, Schema.propertiesJson_eq_mapValues]
  change withTable _ root.toJson _ = _
  rw [own, withTable, tableMembers]
  split
  · rw [List.append_nil]
  · rw [Members.insert_of_not_mem _ fresh]

/-- The definitions of a single table are written in their normal forms. -/
theorem tableMembers_of_readTable {definitions : Members Schema}
    (distinct : (Json.object members).distinct = true)
    (read : readTable members table [] = .ok definitions) :
    tableMembers table.name (Members.mapValues Schema.toJson definitions) =
      normalEntriesUnder table members := by
  rcases readTable_eq_ok_iff.1 read with ⟨absent, rfl⟩ | ⟨entries, added, found, reads, rfl⟩
  · rw [normalEntriesUnder, absent]
    rfl
  · have values := (Json.distinct_object_iff.1 distinct).2 _ (Members.mem_of_get?_eq_some found)
    obtain ⟨names, values⟩ := Json.distinct_object_iff.1 values
    have same : Members.insertAll [] added = added := by
      refine Members.ofList_eq_self ?_
      rw [Schema.keys_of_readProperties reads]
      exact names
    have below (child : Json) (mem : child ∈ Json.subschemasAt .properties (.object entries))
        (schema : Schema) (read : Schema.ofJson child = .ok schema) :
        schema.toJson = child.normal := by
      obtain ⟨entry, within, rfl⟩ := List.mem_map.1 mem
      exact Schema.toJson_of_ofJson (values entry within) read
    rw [normalEntriesUnder, found, same]
    exact congrArg (tableMembers table.name) (Schema.mapValues_of_readTable reads below)

theorem normalEntriesUnder_eq_nil (absent : Members.has members table.name = false) :
    normalEntriesUnder table members = [] := by
  rw [Members.has, Option.isSome_eq_false_iff, Option.isNone_iff_eq_none] at absent
  rw [normalEntriesUnder, absent]

theorem readTable_of_has (absent : Members.has members table.name = false)
    {before after : Members Schema} (read : readTable members table before = .ok after) :
    after = before := by
  rw [Members.has, Option.isSome_eq_false_iff, Option.isNone_iff_eq_none] at absent
  rcases readTable_eq_ok_iff.1 read with ⟨-, same⟩ | ⟨entries, added, found, -⟩
  · exact same.symm
  · rw [absent] at found
    cases found

/-- A document with one table at most is written in its normal form. -/
theorem toJson_of_ofJson (distinct : raw.distinct = true)
    (single : ¬ (raw.hasTable .definitions = true ∧ raw.hasTable .defs = true))
    (read : ofJson raw = .ok document) : document.toJson = raw.normalDocument := by
  have tableless := tableless_of_ofJson read
  have carrying := (everywhere_of_ofJson Schema.preserved_carrying trivial read).schema
  obtain ⟨members, first, definitions, root, rfl, hf, hs, schema, rfl⟩ := ofJson_eq_ok_iff.1 read
  have own := Schema.toJson_of_ofJson (distinct_untabled distinct) schema
  have absent : ∀ table : TableKeyword,
      table.name ∉ Members.keys (root.written ++ root.keywords ++ root.extensions) :=
    (Schema.everywhere_iff.1 carrying).1.table_not_mem_members tableless
  rw [Schema.toJson_eq, Json.normal, Json.object.injEq] at own
  rw [own] at absent
  have written : root.toJson = .object (Json.grouped (Json.normalMembers (untabled members))) :=
    (Schema.toJson_eq root).trans (congrArg Json.object own)
  rw [toJson_eq_append written (absent _) definitions, normalDocument, List.append_assoc]
  congr 2
  dsimp only [Json.tableKeyword]
  by_cases second : Members.has members TableKeyword.defs.name = true
  · have none : Members.has members TableKeyword.definitions.name = false :=
      Bool.eq_false_iff.2 fun both => single ⟨both, second⟩
    cases readTable_of_has none hf
    rw [if_pos second, normalEntriesUnder_eq_nil none, tableMembers_of_readTable distinct hs]
    rfl
  · have none := Bool.eq_false_iff.2 second
    cases readTable_of_has none hs
    rw [if_neg second, normalEntriesUnder_eq_nil none, tableMembers_of_readTable distinct hf,
      List.append_nil]

/-- A document that is read is written as a value that is read and written as it is. -/
theorem exists_ofJson_toJson (read : ofJson raw = .ok document) :
    ∃ again, ofJson document.toJson = .ok again ∧ again.toJson = document.toJson := by
  have tidy := everywhere_of_ofJson Schema.preserved_tidy trivial read
  exact ⟨document.reread, ofJson_toJson tidy.schema tidy.definitions (nodup_keys_definitions read)
    (tableless_of_ofJson read), toJson_reread document⟩

/-- The values that are read as documents are those of the grammar.  Such a value with one table at
most is written in its normal form, and from there on reading and writing give it back. -/
theorem reading_and_writing_is_a_normal_form (distinct : raw.distinct = true)
    (single : ¬ (raw.hasTable .definitions = true ∧ raw.hasTable .defs = true)) :
    ((∃ document, ofJson raw = .ok document) ↔ raw.IsDocument) ∧
      ∀ document, ofJson raw = .ok document → document.toJson = raw.normalDocument ∧
        ∃ again, ofJson document.toJson = .ok again ∧ again.toJson = document.toJson :=
  ⟨exists_ofJson_iff, fun _ read =>
    ⟨toJson_of_ofJson distinct single read, exists_ofJson_toJson read⟩⟩

/-- A ticket whose keywords stand in an order of their own, some of them empty. -/
def ticketJson : Json :=
  .object
    [("$defs", .object
        [("Any", .bool true),
          ("Size", .object [("enum", .array [.string "S", .string "L"]), ("type", .array [])])]),
      ("X-Note", .string "draft"),
      ("required", .array [.string "size", .string "tags", .string "size"]),
      ("properties", .object
        [("size", .object [("$ref", .string "#/$defs/Size")]),
          ("tags", .object
            [("items", .object [("type", .array [.string "string"]), ("required", .array [])]),
              ("anyOf", .array []), ("type", .string "array")])]),
      ("title", .string "Ticket"), ("type", .string "object")]

def normalTicket : Json :=
  .object
    [("type", .string "object"),
      ("properties", .object
        [("size", .object [("$ref", .string "#/$defs/Size")]),
          ("tags", .object
            [("type", .string "array"),
              ("items", .object [("type", .array [.string "string"])])])]),
      ("required", .array [.string "size", .string "tags"]),
      ("title", .string "Ticket"), ("X-Note", .string "draft"),
      ("$defs", .object
        [("Any", .object []),
          ("Size", .object [("enum", .array [.string "S", .string "L"])])])]

theorem normalDocument_ticketJson : ticketJson.normalDocument = normalTicket := by decide

theorem ticket_is_written_in_its_normal_form :
    ticketJson.distinct = true ∧
      ¬ (ticketJson.hasTable .definitions = true ∧ ticketJson.hasTable .defs = true) ∧
      ticketJson.IsDocument ∧ ∃ document, ofJson ticketJson = .ok document ∧
        document.toJson = normalTicket ∧
        ∃ again, ofJson normalTicket = .ok again ∧ again.toJson = normalTicket := by
  have distinct : ticketJson.distinct = true := by decide
  have single : ¬ (ticketJson.hasTable .definitions = true ∧
      ticketJson.hasTable .defs = true) := by decide
  obtain ⟨readable, renders⟩ := reading_and_writing_is_a_normal_form distinct single
  obtain ⟨document, read⟩ : ∃ document, ofJson ticketJson = .ok document := ⟨_, rfl⟩
  obtain ⟨written, again⟩ := renders document read
  rw [normalDocument_ticketJson] at written
  rw [written] at again
  exact ⟨distinct, single, readable.1 ⟨document, read⟩, document, read, written, again⟩

end Document

end SchemaStream
