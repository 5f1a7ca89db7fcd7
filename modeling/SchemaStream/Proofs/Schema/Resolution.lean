import SchemaStream.Proofs.Json.Distinct
import SchemaStream.Proofs.Schema.Expansion
import SchemaStream.Proofs.Schema.Tables

/-!
# What a reference leads to

The entries of both tables of a schema become definitions under their own names, and a reference
is followed by that name alone.  So a reference leads to the entry that it spells, unless the
entry has a namesake in the table that is read last.
-/

namespace SchemaStream

namespace Text

theorem after?_eq_some_iff {start text rest : String} :
    after? start text = some rest ↔ text = start ++ rest := by
  rw [after?, Option.map_eq_some_iff]
  constructor
  · rintro ⟨chars, found, rfl⟩
    rw [List.isPrefixOf?_eq_some_iff_append_eq] at found
    rw [← String.toList_inj, String.toList_append, String.toList_ofList, found]
  · rintro rfl
    refine ⟨rest.toList, ?_, String.ofList_toList⟩
    rw [List.isPrefixOf?_eq_some_iff_append_eq, String.toList_append]

end Text

namespace Reference

variable {table : TableKeyword} {name : String}

/-- The reference that spells an entry of a table. -/
def spelled (table : TableKeyword) (name : String) : String := "#/" ++ table.name ++ "/" ++ name

/-- A name that can be told from a path. -/
def Nameable (name : String) : Prop := name ≠ "" ∧ '/' ∉ name.toList

instance (name : String) : Decidable (Nameable name) := inferInstanceAs (Decidable (_ ∧ _))

/-- The keyword of the table is left behind, so both spellings of a name are one. -/
theorem name?_spelled (table : TableKeyword) (name : String) :
    name? (spelled table name) = if Nameable name then some name else none := by
  have stripped : (Text.after? "#/definitions/" (spelled table name)).or
      (Text.after? "#/$defs/" (spelled table name)) = some name := by
    cases table with
    | definitions =>
        have own : Text.after? "#/definitions/" (spelled .definitions name) = some name :=
          Text.after?_eq_some_iff.2 rfl
        rw [own, Option.some_or]
    | defs =>
        have other : Text.after? "#/definitions/" (spelled .defs name) = none := by
          rw [Option.eq_none_iff_forall_ne_some]
          intro rest found
          have same := congrArg String.toList (Text.after?_eq_some_iff.1 found)
          simp [spelled, TableKeyword.name] at same
        rw [other, Option.none_or]
        exact Text.after?_eq_some_iff.2 rfl
  rw [name?, stripped, Option.filter_some]
  by_cases nameable : Nameable name
  · rw [if_pos nameable]
    simpa [Nameable] using nameable
  · rw [if_neg nameable]
    simpa [Nameable] using nameable

end Reference

/-- The entry of a written document that gives a name its definition. -/
def Json.definition? (value : Json) (name : String) : Option Json :=
  (Members.get? (value.entries .defs) name).or (Members.get? (value.entries .definitions) name)

namespace Schema

theorem rel_get?_of_readProperties {entries : Members Json} {table : Members Schema}
    (read : readProperties entries = .ok table) (name : String) :
    Option.Rel ReadFrom (Members.get? entries name) (Members.get? table name) :=
  Members.rel_get? (forall₂_of_readProperties read) name

end Schema

namespace Document

variable {members : Members Json} {table : TableKeyword} {before after : Members Schema}
  {raw written : Json} {document : Document} {name reference : String} {node : Schema}

theorem distinct_entries (distinct : raw.distinct = true) (table : TableKeyword) :
    (Json.object (raw.entries table)).distinct = true := by
  have bare : (Json.object []).distinct = true := rfl
  cases raw with
  | object members =>
      rw [Json.entries]
      cases found : Members.get? members table.name with
      | none => exact bare
      | some value =>
          have inside := (Json.distinct_object_iff.1 distinct).2 _
            (Members.mem_of_get?_eq_some found)
          cases value with
          | object entries => exact inside
          | _ => exact bare
  | _ => exact bare

theorem distinct_definition? (distinct : raw.distinct = true)
    (entry : raw.definition? name = some written) : written.distinct = true := by
  have inside {table : TableKeyword}
      (found : Members.get? (raw.entries table) name = some written) : written.distinct = true :=
    (Json.distinct_object_iff.1 (distinct_entries distinct table)).2 _
      (Members.mem_of_get?_eq_some found)
  rcases Option.or_eq_some_iff.1 entry with found | ⟨-, found⟩
  · exact inside found
  · exact inside found

/-- What a table gives a name goes before what it was given earlier. -/
theorem exists_get?_readTable (distinct : (Json.object members).distinct = true)
    (read : readTable members table before = .ok after) (name : String) :
    ∃ added, Option.Rel Schema.ReadFrom (Members.get? ((Json.object members).entries table) name)
        added ∧ Members.get? after name = added.or (Members.get? before name) := by
  have names := (Json.distinct_object_iff.1 (distinct_entries distinct table)).1
  rcases readTable_eq_ok_iff.1 read with ⟨absent, rfl⟩ | ⟨entries, added, found, reads, rfl⟩
  · refine ⟨none, ?_, rfl⟩
    rw [Json.entries, absent]
    exact .none
  · rw [Json.entries_of_get? found] at names ⊢
    rw [← Schema.keys_of_readProperties reads] at names
    exact ⟨Members.get? added name, Schema.rel_get?_of_readProperties reads name,
      Members.get?_insertAll before names name⟩

/-- Both tables are read to the end, and the second goes before the first. -/
theorem exists_get?_definitions (distinct : raw.distinct = true)
    (parsed : ofJson raw = .ok document) (name : String) :
    ∃ old new, Option.Rel Schema.ReadFrom (Members.get? (raw.entries .definitions) name) old ∧
      Option.Rel Schema.ReadFrom (Members.get? (raw.entries .defs) name) new ∧
        Members.get? document.definitions name = new.or old := by
  obtain ⟨members, first, definitions, root, rfl, hf, hs, -, rfl⟩ := ofJson_eq_ok_iff.1 parsed
  obtain ⟨old, below, early⟩ := exists_get?_readTable distinct hf name
  obtain ⟨new, above, late⟩ := exists_get?_readTable distinct hs name
  rw [Members.get?, Option.or_none] at early
  exact ⟨old, new, below, above, early ▸ late⟩

/-- Every entry of a table was read, also one that a namesake takes the place of. -/
theorem exists_readFrom_entry (distinct : raw.distinct = true) (parsed : ofJson raw = .ok document)
    (entry : Members.get? (raw.entries table) name = some written) :
    ∃ node, Schema.ofJson written = .ok node := by
  obtain ⟨old, new, below, above, -⟩ := exists_get?_definitions distinct parsed name
  cases table with
  | definitions =>
      rw [entry] at below
      cases below with
      | some reads => exact ⟨_, reads⟩
  | defs =>
      rw [entry] at above
      cases above with
      | some reads => exact ⟨_, reads⟩

theorem rel_definition? (distinct : raw.distinct = true) (parsed : ofJson raw = .ok document)
    (name : String) :
    Option.Rel Schema.ReadFrom (raw.definition? name)
      (Members.get? document.definitions name) := by
  obtain ⟨old, new, below, above, found⟩ := exists_get?_definitions distinct parsed name
  rw [Json.definition?, found]
  generalize Members.get? (raw.entries .defs) name = late at above
  cases above with
  | none => exact below
  | some reads => exact .some reads

theorem exists_readFrom_definition? (distinct : raw.distinct = true)
    (parsed : ofJson raw = .ok document) (entry : raw.definition? name = some written) :
    ∃ body, Members.get? document.definitions name = some body ∧
      Schema.ofJson written = .ok body := by
  have read := rel_definition? distinct parsed name
  rw [entry] at read
  generalize Members.get? document.definitions name = body at read
  cases read with
  | some reads => exact ⟨_, rfl, reads⟩

/-- A reference is followed to what was read from the entry that defines its name. -/
theorem resolve_eq_ok_iff_definition? (distinct : raw.distinct = true)
    (parsed : ofJson raw = .ok document) :
    document.resolve reference = .ok node ↔ ∃ name written,
      Reference.name? reference = some name ∧ raw.definition? name = some written ∧
        Schema.ofJson written = .ok node := by
  rw [resolve, Expansion.resolve_eq_ok_iff]
  refine exists_congr fun name => ?_
  constructor
  · rintro ⟨named, found⟩
    have read := rel_definition? distinct parsed name
    rw [found] at read
    generalize raw.definition? name = entry at read
    cases read with
    | some reads => exact ⟨_, named, rfl, reads⟩
  · rintro ⟨written, named, entry, reads⟩
    obtain ⟨body, found, reads'⟩ := exists_readFrom_definition? distinct parsed entry
    cases reads'.symm.trans reads
    exact ⟨named, found⟩

theorem exists_resolve_spelled_iff {P : Schema → Prop} (distinct : raw.distinct = true)
    (parsed : ofJson raw = .ok document) :
    (∃ node, document.resolve (Reference.spelled table name) = .ok node ∧ P node) ↔
      Reference.Nameable name ∧ ∃ written, raw.definition? name = some written ∧
        ∃ node, Schema.ofJson written = .ok node ∧ P node := by
  simp only [resolve_eq_ok_iff_definition? distinct parsed, Reference.name?_spelled]
  by_cases nameable : Reference.Nameable name
  · rw [if_pos nameable]
    constructor
    · rintro ⟨node, ⟨_, written, same, entry, reads⟩, holds⟩
      cases same
      exact ⟨nameable, written, entry, node, reads, holds⟩
    · rintro ⟨-, written, entry, node, reads, holds⟩
      exact ⟨node, ⟨name, written, rfl, entry, reads⟩, holds⟩
  · simp [nameable]

/-- A reference that spells an entry is followed to a node that is written as the entry is, just if
its name is one, and the entry has no namesake in the other table that goes before it and is
written differently. -/
theorem resolve_spelled_iff (distinct : raw.distinct = true) (parsed : ofJson raw = .ok document)
    (entry : Members.get? (raw.entries table) name = some written) :
    ∃ canonical, Schema.ofJson written = .ok canonical ∧
      ((∃ node, document.resolve (Reference.spelled table name) = .ok node ∧
          node.toJson = canonical.toJson) ↔
        Reference.Nameable name ∧ (table = .defs ∨
          ∀ other, Members.get? (raw.entries .defs) name = some other →
            ∃ node, Schema.ofJson other = .ok node ∧ node.toJson = canonical.toJson)) := by
  obtain ⟨canonical, reads⟩ := exists_readFrom_entry distinct parsed entry
  refine ⟨canonical, reads, ?_⟩
  rw [exists_resolve_spelled_iff distinct parsed]
  refine and_congr_right fun _ => ?_
  have self : ∃ node, Schema.ofJson written = .ok node ∧ node.toJson = canonical.toJson :=
    ⟨canonical, reads, rfl⟩
  cases table with
  | defs =>
      have own : raw.definition? name = some written := by
        rw [Json.definition?, entry, Option.some_or]
      simpa [own] using self
  | definitions =>
      cases found : Members.get? (raw.entries .defs) name with
      | none =>
          have own : raw.definition? name = some written := by
            rw [Json.definition?, found, entry, Option.none_or]
          simpa [own] using self
      | some other =>
          have namesake : raw.definition? name = some other := by
            rw [Json.definition?, found, Option.some_or]
          simp [namesake]

/-- Each table has an entry of the same name. -/
def namesakesJson : Json :=
  .object
    [("type", .string "object"), ("properties", .object []),
      ("definitions", .object [("A", .object [("type", .string "string")])]),
      ("$defs", .object [("A", .object [("type", .string "integer")])])]

def namesakes : Document where
  root := .apart { types := [.object] }
  definitions := [("A", { types := [.integer] })]
  table := .defs

theorem ofJson_namesakes : ofJson namesakesJson = .ok namesakes := rfl

theorem resolve_spelled_namesakes :
    ∃ canonical, Schema.ofJson (.object [("type", .string "string")]) = .ok canonical ∧
      ¬ ∃ node, namesakes.resolve "#/definitions/A" = .ok node ∧
        node.toJson = canonical.toJson := by
  have entry : Members.get? (namesakesJson.entries .definitions) "A" =
      some (.object [("type", .string "string")]) := rfl
  obtain ⟨canonical, reads, exactly⟩ := resolve_spelled_iff (by decide) ofJson_namesakes entry
  refine ⟨canonical, reads, fun found => ?_⟩
  obtain ⟨-, last | same⟩ := exactly.1 found
  · cases last
  · obtain ⟨node, read, written⟩ := same _ rfl
    cases reads
    cases read
    exact absurd written (by decide)

/-- An entry with a namesake is not what its reference leads to. -/
theorem not_every_reference_leads_to_its_entry :
    ¬ ∀ (raw : Json) (document : Document) (table : TableKeyword) (name : String)
      (written : Json), raw.distinct = true → ofJson raw = .ok document →
      Reference.Nameable name → Members.get? (raw.entries table) name = some written →
      ∃ canonical node, Schema.ofJson written = .ok canonical ∧
        document.resolve (Reference.spelled table name) = .ok node ∧
          node.toJson = canonical.toJson := by
  intro claim
  obtain ⟨canonical, node, reads, found, written⟩ := claim namesakesJson namesakes .definitions "A"
    _ (by decide) ofJson_namesakes (by decide) rfl
  cases reads
  cases found
  exact absurd written (by decide)

end Document

end SchemaStream
