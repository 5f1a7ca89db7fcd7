import SchemaStream.Proofs.Json.Reordering
import SchemaStream.Proofs.Schema.Reading
import SchemaStream.Schema.Document

/-!
# Where documents are read from

The definitions of a document are read from the two tables of a value, the nodes of its root
from what is left of the value without them.
-/

namespace SchemaStream

namespace Json

/-- The entries of a table of a written document. -/
def entries (value : Json) (table : TableKeyword) : Members Json :=
  match value with
  | .object members => ((Members.get? members table.name).bind Json.object?).getD []
  | _ => []

theorem entries_of_get? {members entries : Members Json} {table : TableKeyword}
    (found : Members.get? members table.name = some (.object entries)) :
    (Json.object members).entries table = entries := by
  rw [Json.entries, found]
  rfl

/-- The keyword that the table of a document has if it is read from a value. -/
def tableKeyword (value : Json) : TableKeyword :=
  match value with
  | .object members =>
      if Members.has members TableKeyword.defs.name then .defs else .definitions
  | _ => .definitions

/-- The schemas of a written document, those below its root and those below the entries of some
tables. -/
def schemas (value : Json) (tables : List TableKeyword) : List Json :=
  value.positions ++ tables.flatMap fun table =>
    (value.entries table).flatMap fun entry => entry.2.positions

theorem mem_schemas_iff {value schema : Json} {tables : List TableKeyword} :
    schema ∈ value.schemas tables ↔ schema ∈ value.positions ∨
      ∃ table ∈ tables, ∃ entry ∈ value.entries table, schema ∈ entry.2.positions := by
  simp [schemas]

/-- All references of a written document. -/
def allReferences (value : Json) (tables : List TableKeyword) : List String :=
  (value.schemas tables).flatMap references

end Json

namespace Document

variable {members : Members Json} {table : TableKeyword} {before after : Members Schema}
  {value : Json} {document : Document} {name : String}

/-- Reading a table puts what is read from its entries on top of the definitions read before. -/
theorem readTable_eq_ok_iff :
    readTable members table before = .ok after ↔
      (Members.get? members table.name = none ∧ before = after) ∨
        ∃ entries added, Members.get? members table.name = some (.object entries) ∧
          Schema.readProperties entries = .ok added ∧ Members.insertAll before added = after := by
  rw [readTable]
  cases found : Members.get? members table.name with
  | none => simp
  | some value =>
      cases value with
      | object entries => simp [Outcome.bind_eq_ok_iff, pure, Except.pure]
      | _ => simp

theorem exists_entry_of_readTable (read : readTable members table before = .ok after)
    {definition : String × Schema} (mem : definition ∈ after) :
    definition ∈ before ∨
      ∃ entry ∈ (Json.object members).entries table, Schema.ofJson entry.2 = .ok definition.2 := by
  rcases readTable_eq_ok_iff.1 read with ⟨-, rfl⟩ | ⟨entries, added, found, reads, rfl⟩
  · exact .inl mem
  · rw [Json.entries_of_get? found]
    exact (Members.mem_insertAll mem).imp_right (Schema.exists_of_readProperties reads)

theorem mem_keys_readTable_iff (read : readTable members table before = .ok after) :
    name ∈ Members.keys after ↔ name ∈ Members.keys before ∨
      name ∈ Members.keys ((Json.object members).entries table) := by
  rcases readTable_eq_ok_iff.1 read with ⟨absent, rfl⟩ | ⟨entries, added, found, reads, rfl⟩
  · simp [Json.entries, absent, Members.keys]
  · rw [Json.entries_of_get? found, Members.mem_keys_insertAll, Schema.keys_of_readProperties reads]

theorem nodup_keys_readTable (read : readTable members table before = .ok after)
    (distinct : (Members.keys before).Nodup) : (Members.keys after).Nodup := by
  rcases readTable_eq_ok_iff.1 read with ⟨-, rfl⟩ | ⟨entries, added, -, -, rfl⟩
  · exact distinct
  · exact Members.nodup_keys_insertAll added distinct

/-- What is left of a written document without its tables. -/
def untabled (members : Members Json) : Members Json :=
  Members.erase (Members.erase members TableKeyword.definitions.name) TableKeyword.defs.name

theorem untabled_subset (members : Members Json) : untabled members ⊆ members :=
  fun _ mem => (List.mem_filter.1 (List.mem_filter.1 mem).1).1

theorem ofJson_eq_ok_iff :
    ofJson value = .ok document ↔
      ∃ members first definitions root, value = .object members ∧
        readTable members .definitions [] = .ok first ∧
        readTable members .defs first = .ok definitions ∧
        Schema.ofJson (.object (untabled members)) = .ok root ∧
        document = { root := .apart root, definitions, table := value.tableKeyword } := by
  cases value with
  | object members =>
      simp only [ofJson, Outcome.bind_eq_ok_iff, pure, Except.pure, Except.ok.injEq,
        Json.object.injEq]
      constructor
      · rintro ⟨first, hf, definitions, hs, root, hr, rfl⟩
        refine ⟨members, first, definitions, root, rfl, hf, hs, ?_, rfl⟩
        rwa [Schema.ofJson, untabled]
      · rintro ⟨members, first, definitions, root, rfl, hf, hs, hr, rfl⟩
        rw [Schema.ofJson] at hr
        exact ⟨first, hf, definitions, hs, root, hr, rfl⟩
  | _ => simp [ofJson]

theorem nodup_keys_definitions (read : ofJson value = .ok document) :
    (Members.keys document.definitions).Nodup := by
  obtain ⟨members, first, definitions, root, -, hf, hs, -, rfl⟩ := ofJson_eq_ok_iff.1 read
  exact nodup_keys_readTable hs (nodup_keys_readTable hf List.nodup_nil)

theorem root_eq_apart (read : ofJson value = .ok document) :
    document.root = .apart document.schema := by
  obtain ⟨members, first, definitions, root, -, -, -, -, rfl⟩ := ofJson_eq_ok_iff.1 read
  rfl

theorem mem_keys_definitions_iff (read : ofJson value = .ok document) :
    name ∈ Members.keys document.definitions ↔ name ∈ Members.keys (value.entries .definitions) ∨
      name ∈ Members.keys (value.entries .defs) := by
  obtain ⟨members, first, definitions, root, rfl, hf, hs, -, rfl⟩ := ofJson_eq_ok_iff.1 read
  rw [mem_keys_readTable_iff hs, mem_keys_readTable_iff hf]
  simp [Members.keys]

end Document

end SchemaStream
