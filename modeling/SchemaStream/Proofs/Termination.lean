import SchemaStream.Proofs.Typing.ArenaTyping

/-!
# Expansion and typing end

Nothing bounds how deep references are followed in an arena, but those that are followed lead to
definitions of ever lower rank.  So whatever the references of a document lead to, its expansion
and the synthesis of its type end with a result or a fault.
-/

namespace SchemaStream

open Outcome (Agrees Ends)

/-- Ranked by the round in which it is settled, each definition of a document leads down. -/
theorem Layout.leadsDown_definition {layout : Layout} (table : TableKeyword)
    (distinct : (Members.keys layout.bodies).Nodup) {name : String} {body : Placed}
    (found : Members.get? layout.bodies name = some body) :
    (layout.document table).expansion.LeadsDown
      (Definitions.round (layout.document table).definitions) (some name) body.schema := by
  intro other refers inlines
  refine Guard.descending_iff.2 fun above mem => ?_
  obtain rfl : name = above := by simpa using mem
  refine Definitions.round_lt_round ?_ (Definitions.refers_iff.2 ⟨inlines.1, _, ?_, refers⟩)
    inlines.2
  · rwa [Layout.document, Members.keys_mapValues]
  · exact Layout.get?_expansion found (layout.document table).cyclicDefinitions

namespace Arena

/-- Expansion and typing end on every document that is read.  All references that they follow lead
to definitions of lower rank, but for one that the root of a type is itself. -/
theorem expansion_and_typing_end {value : Json} {document : Document}
    (read : Document.ofJson value = .ok document) (rootName : String) :
    ∃ arena rank outcome, ofJson value = .ok arena ∧ arena.Expresses document ∧
      (∀ depth > document.definitions.length,
        document.searchCyclic depth = some document.cyclicDefinitions) ∧
      (∀ name other, Definitions.Refers document.definitions name other →
        other ∉ document.cyclicDefinitions → rank other < rank name) ∧
      Agrees Expresses outcome document.expand ∧
      Ends (fun depth => arena.expand document.cyclicDefinitions depth) outcome ∧
      Ends (fun depth => arena.expandGuarded (.descending rank) document.cyclicDefinitions depth)
        outcome ∧
      Ends (fun depth => arena.recordType .free document.cyclicDefinitions rootName depth)
        (document.recordType rootName) ∧
      Ends (fun depth => arena.recordType (.descending rank) document.cyclicDefinitions rootName
        depth) (document.recordType rootName) := by
  have agrees := ofJson_agrees value
  rw [read] at agrees
  obtain ⟨arena, reads, layout, lays, rfl⟩ := agrees.exists_of_ok_left
  have distinct := Document.nodup_keys_definitions read
  have distinct' : (Members.keys layout.bodies).Nodup := by
    rwa [Layout.document, Members.keys_mapValues] at distinct
  have grounded := Document.grounded_expansion distinct
  obtain ⟨outcome, ends, expands⟩ := lays.ends_expandGuarded distinct' grounded
  have down (name : String) (body : Placed) (found : Members.get? layout.bodies name = some body) :=
    Layout.leadsDown_definition arena.table distinct' found
  refine ⟨arena, _, outcome, reads, ⟨layout, lays, rfl⟩,
    fun depth enough => Document.searchCyclic_eq distinct enough,
    fun name other => Definitions.round_lt_round distinct, expands, ?_, ends, ?_, ?_⟩
  · exact ends.extend fun depth => expandGuarded_extends _ _ depth arena
  · exact lays.ends_recordType grounded (fun _ _ _ => rfl) rfl down rootName
  · exact lays.ends_recordType grounded (fun _ _ low => low) rfl down rootName

/-- A tree, two definitions that refer to each other, and two that lead nowhere else.  References
stand in an `allOf`, in a union and beside a reference. -/
def forestJson : Json :=
  let ref (name : String) : String × Json := ("$ref", .string ("#/definitions/" ++ name))
  .object
    [("type", .string "object"),
      ("properties", .object
        [("tree", .object [ref "Tree", ("items", .object [ref "Leaf"])]),
          ("unit", .object [("allOf", .array [.object [ref "Unit"]])]),
          ("leaf", .object [("anyOf", .array
            [.object [ref "Leaf"], .object [("type", .string "null")]])]),
          ("ping", .object [ref "Ping"])]),
      ("definitions", .object
        [("Tree", .object
          [("properties", .object
            [("left", .object [ref "Tree"]), ("leaf", .object [ref "Leaf"])])]),
          ("Ping", .object [("items", .object [ref "Pong"])]),
          ("Pong", .object [("oneOf", .array [.object [ref "Ping"], .object [ref "Unit"]])]),
          ("Leaf", .object [("properties", .object [("unit", .object [ref "Unit"])])]),
          ("Unit", .object [("type", .string "string")])])]

def forest : Document where
  root := .apart
    { types := [.object]
      properties :=
        [("tree",
            { reference := some "#/definitions/Tree"
              items := some { reference := some "#/definitions/Leaf" } }),
          ("unit", { allOf := [{ reference := some "#/definitions/Unit" }] }),
          ("leaf", { anyOf := [{ reference := some "#/definitions/Leaf" }, .ofType .null] }),
          ("ping", { reference := some "#/definitions/Ping" })] }
  definitions :=
    [("Tree",
        { properties :=
            [("left", { reference := some "#/definitions/Tree" }),
              ("leaf", { reference := some "#/definitions/Leaf" })] }),
      ("Ping", { items := some { reference := some "#/definitions/Pong" } }),
      ("Pong", { oneOf := [{ reference := some "#/definitions/Ping" },
        { reference := some "#/definitions/Unit" }] }),
      ("Leaf", { properties := [("unit", { reference := some "#/definitions/Unit" })] }),
      ("Unit", .ofType .string)]

def forestExpanded : Document :=
  let leaf : Schema := { properties := [("unit", .ofType .string)] }
  { root := .apart
      { types := [.object]
        properties :=
          [("tree", { reference := some "#/definitions/Tree", items := some leaf }),
            ("unit", .ofType .string),
            ("leaf", { anyOf := [leaf, .ofType .null] }),
            ("ping", { reference := some "#/definitions/Ping" })] }
    definitions :=
      [("Tree",
          { properties :=
              [("left", { reference := some "#/definitions/Tree" }),
                ("leaf", { reference := some "#/definitions/Leaf" })] }),
        ("Ping", { items := some { reference := some "#/definitions/Pong" } }),
        ("Pong", { oneOf := [{ reference := some "#/definitions/Ping" },
          { reference := some "#/definitions/Unit" }] }),
        ("Leaf", leaf),
        ("Unit", .ofType .string)] }

def forestType : RecordType where
  name := "Forest"
  fields :=
    [⟨"tree", .union, true, none⟩, ⟨"unit", .scalar .string, true, none⟩,
      ⟨"leaf", .nullable (.record "Leaf" [⟨"unit", .scalar .string, true, none⟩]), true, none⟩,
      ⟨"ping", .union, true, none⟩]

theorem forest_is_expanded_and_typed : ∃ arena rank result,
    Document.ofJson forestJson = .ok forest ∧ ofJson forestJson = .ok arena ∧
    forest.cyclicDefinitions = ["Tree", "Ping", "Pong"] ∧
    rank "Unit" < rank "Leaf" ∧ rank "Leaf" < rank "Tree" ∧
    Ends (fun depth => arena.expand forest.cyclicDefinitions depth) (.ok result) ∧
    result.Expresses forestExpanded ∧
    Ends (fun depth => arena.recordType (.descending rank) forest.cyclicDefinitions "Forest" depth)
      (.ok forestType) := by
  have read : Document.ofJson forestJson = .ok forest := rfl
  have expands : forest.expand = .ok forestExpanded := rfl
  have typed : forest.recordType "Forest" = .ok forestType := by decide +kernel
  have cyclic : forest.cyclicDefinitions = ["Tree", "Ping", "Pong"] := by decide
  obtain ⟨arena, rank, outcome, reads, -, -, descends, agrees, ends, -, -, types⟩ :=
    expansion_and_typing_end read "Forest"
  rw [expands] at agrees
  obtain ⟨result, rfl, expresses⟩ := agrees.exists_of_ok_right
  rw [typed] at types
  refine ⟨arena, rank, result, read, reads, cyclic, descends "Leaf" "Unit" ?_ (by decide),
    descends "Tree" "Leaf" ?_ (by decide), ends, expresses, types⟩
  · exact Definitions.refers_iff.2 ⟨by decide, _, rfl, by decide⟩
  · exact Definitions.refers_iff.2 ⟨by decide, _, rfl, by decide⟩

end Arena

end SchemaStream
