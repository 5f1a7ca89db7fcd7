import SchemaStream.Proofs.Schema.Recompiling
import SchemaStream.Proofs.Stability

/-!
# Strict schemas are stable

A strict schema is read as a document with the same cycles: the definitions that lead into cycles
were written as they are, and no other definition refers to anything.  So the same references are
tolerated, and the document compiles to the schema that it was read from.
-/

namespace SchemaStream

namespace Strict

variable {context : Context} {schema : Schema} {members : Members Json}

/-- Nothing is compiled under the name of a table, unless a node carries it along. -/
theorem table_not_mem_keys_of_compileNode (carrying : schema.Carrying)
    (tableless : schema.Tableless)
    (compiles : compileNode context schema = .ok (.object members)) (table : TableKeyword) :
    table.name ∉ Members.keys members := by
  have unread : table.name ∉ statedNames ∧ table.name ∉ ["$ref"] ∧
      Keyword.ofName table.name = .other := by
    cases table <;> decide
  obtain ⟨apart, reference, kind⟩ := unread
  cases refers : schema.reference with
  | some text =>
      obtain ⟨-, -, -, -, same⟩ := (compileNode_eq_ok_iff_of_reference refers).1 compiles
      cases same
      exact reference
  | none =>
      obtain ⟨object, items, anyOf, oneOf, allOf, placed, same⟩ :=
        exists_placed_of_compileNode refers compiles
      cases same
      intro mem
      rcases mem_keys_assembled placed mem with mem | mem | mem
      · exact apart mem
      · exact tableless table mem
      · cases kind.symm.trans (carrying.extensions.kinds _ mem)

end Strict

namespace Document

open Strict (Agrees Stays TableAgain)

variable {raw strict : Json} {options : StrictOptions} {document : Document}
  {again : Members Schema}

theorem keys_of_stays {context : Strict.Context} {definitions : Members Schema}
    (stays : List.Forall₂ (Stays context) definitions again) :
    Members.keys again = Members.keys definitions :=
  (Members.keys_eq_of_forall₂ (stays.imp fun _ _ own => own.name)).symm

/-- Definitions that are read again have the cycles that they had. -/
theorem cyclic_of_stays (distinct : (Members.keys document.definitions).Nodup)
    (stays : List.Forall₂ (Stays (document.strictContext options)) document.definitions again) :
    Definitions.cyclic again = document.cyclicDefinitions := by
  have names := keys_of_stays stays
  have origin (name : String) (body : Schema) (found : Members.get? again name = some body) :
      ∃ own, (name, own) ∈ document.definitions ∧
        Stays (document.strictContext options) (name, own) (name, body) := by
    obtain ⟨⟨first, own⟩, mem, stays⟩ :=
      Outcome.exists_of_forall₂ stays.flip (Members.mem_of_get?_eq_some found)
    cases stays.name
    exact ⟨own, mem, stays⟩
  -- the definitions as they are read back have the same cycles, and on these nothing changes
  rw [← cyclicDefinitions_reread, cyclicDefinitions]
  refine Definitions.cyclic_eq_of_stays ?_ ?_ ?_ ?_
  · rwa [reread, Members.keys_mapValues]
  · rwa [reread, Members.keys_mapValues]
  · intro name (mem : name ∈ document.reread.cyclicDefinitions)
    rw [cyclicDefinitions_reread] at mem
    have defined : name ∈ Members.keys again := names ▸ Definitions.cyclic_subset_keys mem
    obtain ⟨body, found⟩ := Members.mem_keys_iff_exists_get?.1 defined
    obtain ⟨own, below, stays⟩ := origin name body found
    have same : body = own.reread := stays.tolerated mem
    rw [found, reread, Members.get?_mapValues, Members.get?_eq_some_of_mem distinct below, same]
    rfl
  · intro name body (absent : name ∉ document.reread.cyclicDefinitions) found
    rw [cyclicDefinitions_reread] at absent
    obtain ⟨own, mem, stays⟩ := origin name body found
    refine List.eq_nil_iff_forall_not_mem.2 fun other refers => ?_
    obtain ⟨below, tolerated⟩ := stays.refers absent other refers
    exact avoids_of_not_mem_cyclicDefinitions distinct mem absent other below tolerated

/-- A root with a table behind it is read, and the table is written where it was. -/
theorem exists_ofJson_withTable (document : Document) {members entries : Members Json}
    {root : Schema}
    (absent : ∀ table : TableKeyword, table.name ∉ Members.keys members)
    (reads : Schema.readKeywords {} members = .ok root)
    (read : Schema.readProperties entries = .ok again) (distinct : (Members.keys again).Nodup) :
    ∃ result : Document, ofJson (document.withTable (.object members) entries) = .ok result ∧
      result.schema = root ∧ result.definitions = again ∧
        result.withTable (.object members) entries =
          document.withTable (.object members) entries := by
  cases entries with
  | nil =>
      cases read
      exact ⟨_, ofJson_of_absent absent reads, rfl, rfl, rfl⟩
  | cons entry rest =>
      have written : document.withTable (.object members) (entry :: rest) =
          .object (members ++ [(document.table.name, .object (entry :: rest))]) :=
        congrArg Json.object (Members.insert_of_not_mem _ (absent document.table))
      have restored := ofJson_of_table absent reads document.table read distinct
      exact ⟨_, (congrArg ofJson written).trans restored, rfl, rfl, rfl⟩

/-- What a document is compiled to is read as a document that is compiled to it. -/
theorem strict_schema_compiles_to_itself (distinct : raw.distinct = true)
    (read : ofJson raw = .ok document) (compiles : document.strict options = .ok strict) :
    ∃ again, ofJson strict = .ok again ∧ again.strict options = .ok strict := by
  have tidy := everywhere_of_ofJson Schema.preserved_tidy trivial read
  have named := everywhere_of_ofJson Schema.preserved_named distinct read
  have carrying := tidy.schema.imp fun _ => Schema.Tidy.carrying
  have names := nodup_keys_definitions read
  obtain ⟨root, entries, first, second, rfl⟩ := strict_eq_ok_iff.1 compiles
  rw [Outcome.mapM_eq_ok_iff] at second
  obtain ⟨members, rfl⟩ := Strict.exists_object_of_compileNode first
  have absent := Strict.table_not_mem_keys_of_compileNode (Schema.everywhere_iff.1 carrying).1
    (tableless_of_ofJson read) first
  obtain ⟨root, reads, compilesRoot⟩ := Strict.recompiles_of_compileNode carrying named.schema first
  obtain ⟨definitions, table⟩ := Strict.exists_tableAgain tidy.definitions named.definitions second
  have same := keys_of_stays table.stays
  obtain ⟨again, restored, rfl, rfl, written⟩ :=
    document.exists_ofJson_withTable absent reads table.reads (same ▸ names)
  have agrees : Agrees (document.strictContext options) (again.strictContext options) :=
    ⟨rfl, cyclic_of_stays names table.stays, same⟩
  exact ⟨again, restored, strict_eq_ok_iff.2 ⟨.object members, entries, compilesRoot _ agrees,
    table.compiles _ agrees, written⟩⟩

theorem strict_order_compiles_to_itself :
    orderJson.distinct = true ∧ ofJson orderJson = .ok orderDocument ∧
      orderDocument.strict {} =
        .ok (.object (orderStrictRoot ++ [("$defs", .object orderStrictTable)])) ∧
      ∃ again, ofJson (.object (orderStrictRoot ++ [("$defs", .object orderStrictTable)])) =
          .ok again ∧
        again.strict {} =
          .ok (.object (orderStrictRoot ++ [("$defs", .object orderStrictTable)])) :=
  have distinct : orderJson.distinct = true := by decide
  have read : ofJson orderJson = .ok orderDocument := rfl
  have compiles : orderDocument.strict {} =
      .ok (.object (orderStrictRoot ++ [("$defs", .object orderStrictTable)])) := rfl
  ⟨distinct, read, compiles, strict_schema_compiles_to_itself distinct read compiles⟩

end Document

end SchemaStream
