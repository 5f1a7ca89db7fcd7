import SchemaStream.Preparation
import SchemaStream.Proofs.Schema.Compilation
import SchemaStream.Proofs.Schema.Grounding
import SchemaStream.Proofs.Schema.WellFormed
import SchemaStream.Proofs.Typing.Acceptance

/-!
# Strict values of prepared documents

An acyclic document has no definitions left once it is prepared.  So the objects that conform
to its strict schema are accepted by its record type if all nodes below the root are explicit.
-/

namespace SchemaStream

open Strict (conformsTo integral)

namespace Document

variable {document : Document} {options : StrictOptions} {strict value : Json}

theorem compileNode_of_strict (bare : document.definitions = [])
    (compiles : document.strict options = .ok strict) :
    Strict.compileNode (document.strictContext options) document.schema = .ok strict := by
  obtain ⟨root, compiled, rest⟩ := Outcome.bind_eq_ok_iff.1 compiles
  have same : root = strict := by
    rw [bare] at rest
    cases rest
    cases root <;> rfl
  exact same ▸ compiled

/-- A record type accepts the objects that conform to the strict schema. -/
theorem issues_recordType (bare : document.definitions = [])
    (compiles : document.strict options = .ok strict) {rootName : String} {record : RecordType}
    (typed : document.recordType rootName = .ok record)
    (conforming : Strict.conforms strict value = true)
    (whole : integral (document.strictContext options) document.schema value = true)
    {members : Members Json} (isObject : value = .object members)
    (explicit : ∀ child ∈ document.schema.children, child.Everywhere Schema.Explicit) :
    record.issues value = [] := by
  have conformingRoot : conformsTo (document.strictContext options) document.schema value = true :=
    Strict.conformsTo_iff.2 ⟨strict, compileNode_of_strict bare compiles, conforming⟩
  have obeys := Strict.obeys_of_conformsTo bare conformingRoot
  have integral := Strict.integralAt_of_integral whole
  unfold recordType at typed
  rw [obeys.reference] at typed
  obtain ⟨root, found, typed⟩ := Outcome.bind_eq_ok_iff.1 typed
  cases found
  dsimp only at typed
  split at typed
  · next describes =>
      cases typed
      have own := Schema.hasProperties_of_describesObject describes
      refine Schema.issues_record_of_obeys obeys integral own (fun property mem => ?_) isObject
      exact Schema.accepts_of_explicit bare
        (explicit property.2 (Schema.mem_children_of_properties mem))
  · cases typed

end Document

namespace Prepared

variable {raw strict value : Json} {config : Config} {prepared : Prepared} {record : RecordType}

/-- Without a cycle, nothing is left of the definitions. -/
theorem definitions_of_acyclic (parsed : ofJson raw config = .ok prepared)
    (acyclic : prepared.cyclic = false) : prepared.document.definitions = [] := by
  obtain ⟨document, read, rest⟩ := Outcome.bind_eq_ok_iff.1 parsed
  obtain ⟨expanded, expands, rest⟩ := Outcome.bind_eq_ok_iff.1 rest
  cases rest
  have none : document.cyclicDefinitions.isEmpty = true := by
    simpa [Document.hasCycle] using acyclic
  rw [Document.expand_of_apart (Document.root_eq_apart read)] at expands
  obtain ⟨root, -, expands⟩ := Outcome.bind_eq_ok_iff.1 expands
  rw [if_pos none] at expands
  cases expands
  dsimp only
  split <;> rfl

/-- What the strict schema of an acyclic document lets the model say is accepted, if it is an
object and all nodes below the root are explicit. -/
theorem validate_of_conforms (parsed : ofJson raw config = .ok prepared)
    (acyclic : prepared.cyclic = false) (compiles : prepared.strict = .ok strict)
    (typed : prepared.recordType = .ok record) (conforming : Strict.conforms strict value = true)
    (whole : integral (prepared.document.strictContext prepared.config.strict)
      prepared.document.schema value = true)
    (isObject : value.kind = .object)
    (explicit : ∀ child ∈ prepared.document.schema.children, child.Everywhere Schema.Explicit) :
    record.validate value = .ok () := by
  cases value with
  | object members =>
      have accepted := Document.issues_recordType (definitions_of_acyclic parsed acyclic) compiles
        typed conforming whole rfl explicit
      simp [RecordType.validate, RecordType.accepts, accepted]
  | _ => cases isObject

/-! ## Documents with one property -/

def holdingJson (type property : Json) : Json :=
  .object
    [("type", type), ("properties", .object [("p", property)]), ("required", .strings ["p"])]

def holding (types : List JsonType) (listed : Bool) (property : Schema) : Prepared where
  document :=
    { root := .apart
        { types, typesListed := listed, properties := [("p", property)], required := ["p"] } }
  cyclic := false
  config := {}

def holdingStrict (type property : Json) : Json :=
  .object
    [("type", type), ("properties", .object [("p", property)]), ("required", .strings ["p"]),
      ("additionalProperties", .bool false)]

def holdingRecord (type : FieldType) : RecordType where
  name := "Extraction"
  fields := [⟨"p", type, false, none⟩]

/-- A length as an object with a unit and a whole or missing count. -/
def lengthJson : Json :=
  .object
    [("type", .string "object"),
      ("properties", .object
        [("unit", .object [("enum", .strings ["m", "ft"])]),
          ("count", .object [("type", .strings ["integer", "null"])])])]

def length : Schema where
  types := [.object]
  properties :=
    [("unit", { enumeration := some [.string "m", .string "ft"] }),
      ("count", { types := [.integer, .null], typesListed := true })]

theorem lengths_are_validated :
    (holdingRecord (.list (.record "PItem"
      [⟨"unit", .literal [.string "m", .string "ft"], true, none⟩,
        ⟨"count", .nullable (.scalar .integer), true, none⟩]))).validate
      (.object
        [("p", .array
          [.object [("unit", .string "m"), ("count", .number (.natural 3))],
            .object [("count", .null), ("unit", .string "ft")]])]) = .ok () :=
  validate_of_conforms
    (show ofJson (holdingJson (.string "object")
      (.object [("type", .string "array"), ("items", lengthJson)])) {} =
        .ok (holding [.object] false { types := [.array], items := some length }) from rfl)
    rfl rfl (by decide +kernel) (by decide) (by decide) rfl (by decide)

/-- That what conforms to strict schemas is accepted under a condition. -/
def ConformingAccepted (condition : Schema → Json → Prop) : Prop :=
  ∀ (raw : Json) (config : Config) (prepared : Prepared) (strict value : Json)
    (record : RecordType), ofJson raw config = .ok prepared → prepared.cyclic = false →
    prepared.strict = .ok strict → prepared.recordType = .ok record →
    Strict.conforms strict value = true →
    integral (prepared.document.strictContext prepared.config.strict)
      prepared.document.schema value = true →
    condition prepared.document.schema value → record.validate value = .ok ()

theorem not_conformingAccepted {condition : Schema → Json → Prop}
    (parsed : ofJson raw config = .ok prepared) (acyclic : prepared.cyclic = false)
    (compiles : prepared.strict = .ok strict) (typed : prepared.recordType = .ok record)
    (conforming : Strict.conforms strict value = true)
    (whole : integral (prepared.document.strictContext prepared.config.strict)
      prepared.document.schema value = true)
    (refused : record.accepts value = false)
    (holds : condition prepared.document.schema value) : ¬ ConformingAccepted condition := by
  intro claim
  have accepted := claim raw config prepared strict value record parsed acyclic compiles typed
    conforming whole holds
  rw [RecordType.validate, refused] at accepted
  cases accepted

/-- Texts that stand for numbers conform, but are no members of the enumeration. -/
theorem not_accepted_of_numbers {condition : Schema → Json → Prop}
    (holds : condition
      (holding [.object] false { enumeration := some [.nat 1, .nat 2] }).document.schema
      (.object [("p", .string "1")])) : ¬ ConformingAccepted condition :=
  not_conformingAccepted
    (show ofJson (holdingJson (.string "object") (.object [("enum", .array [.nat 1, .nat 2])]))
        {} = .ok (holding [.object] false { enumeration := some [.nat 1, .nat 2] }) from rfl)
    rfl
    (show strict (holding [.object] false { enumeration := some [.nat 1, .nat 2] }) =
        .ok (holdingStrict (.string "object")
          (.object [("type", .string "string"), ("enum", .strings ["1", "2"])])) from rfl)
    (show recordType (holding [.object] false { enumeration := some [.nat 1, .nat 2] }) =
        .ok (holdingRecord (.literal [.nat 1, .nat 2])) by decide +kernel)
    (by decide) (by decide) (by decide) holds

/-- Numbers conform where properties are listed without a type, but are no records. -/
theorem not_accepted_of_untyped {condition : Schema → Json → Prop}
    (holds : condition
      (holding [.object] false { properties := [("a", .ofType .string)] }).document.schema
      (.object [("p", .nat 5)])) : ¬ ConformingAccepted condition :=
  not_conformingAccepted
    (show ofJson (holdingJson (.string "object")
        (.object [("properties", .object [("a", .object [("type", .string "string")])])])) {} =
          .ok (holding [.object] false { properties := [("a", .ofType .string)] }) from rfl)
    rfl
    (show strict (holding [.object] false { properties := [("a", .ofType .string)] }) =
        .ok (holdingStrict (.string "object")
          (.object (Strict.objectMembers [("a", .object [("type", .string "string")])])))
      from rfl)
    (show recordType (holding [.object] false { properties := [("a", .ofType .string)] }) =
        .ok (holdingRecord (.record "P" [⟨"a", .scalar .string, true, none⟩])) by decide +kernel)
    (by decide) (by decide) (by decide) holds

/-- Null conforms where the root may be null besides, but is no record. -/
theorem not_accepted_of_null {condition : Schema → Json → Prop}
    (holds : condition
      (holding [.object, .null] true (.ofType .string)).document.schema .null) :
    ¬ ConformingAccepted condition :=
  not_conformingAccepted
    (show ofJson (holdingJson (.strings ["object", "null"])
        (.object [("type", .string "string")])) {} =
          .ok (holding [.object, .null] true (.ofType .string)) from rfl)
    rfl
    (show strict (holding [.object, .null] true (.ofType .string)) =
        .ok (holdingStrict (.strings ["object", "null"])
          (.object [("type", .string "string")])) from rfl)
    (show recordType (holding [.object, .null] true (.ofType .string)) =
        .ok (holdingRecord (.scalar .string)) by decide +kernel)
    (by decide) (by decide) (by decide) holds

/-- None of the conditions can go: texts stand for other members of an enumeration, objects
need not state their type, and a root may be null besides. -/
theorem not_all_conforming_accepted :
    ¬ ConformingAccepted (fun _ _ => True) ∧
      ¬ ConformingAccepted (fun schema value => value.kind = .object ∧
        ∀ child ∈ schema.children, child.Everywhere fun node =>
          node.kind = .ofType .object → node.types ≠ []) ∧
      ¬ ConformingAccepted (fun schema value => value.kind = .object ∧
        ∀ child ∈ schema.children, child.Everywhere fun node =>
          ∀ member ∈ node.enumeration.getD [],
            .string (Strict.memberText member) ∈ node.enumeration.getD []) ∧
      ¬ ConformingAccepted (fun schema _ =>
        ∀ child ∈ schema.children, child.Everywhere Schema.Explicit) :=
  ⟨not_accepted_of_numbers trivial, not_accepted_of_numbers (by decide),
    not_accepted_of_untyped (by decide), not_accepted_of_null (by decide)⟩

end Prepared

end SchemaStream
