import SchemaStream.Proofs.Preparation
import SchemaStream.Proofs.Schema.Expanded
import SchemaStream.Proofs.Schema.ReferenceChains

/-!
# Faulty references

A reference is at fault if it has no form that is supported or names no definition.  No
document is prepared in which expansion comes by such a reference, on its way from the root or,
where definitions are kept, in one of those that are expanded in their place.  It does not come
by what stands in a definition that leads into a cycle.
-/

namespace SchemaStream

namespace Expansion

variable {expansion : Expansion} {root node : Schema}

/-- The nodes below a node that expansion sees before anything is put in. -/
inductive Below (expansion : Expansion) (root : Schema) : Schema → Prop
  | root : Below expansion root root
  | child {node child : Schema} (above : Below expansion root node)
      (stays : expansion.inlined? node = .ok none) (mem : child ∈ node.children) :
      Below expansion root child

theorem Below.of_keys {definitions : Members Schema} (below : expansion.Below root node)
    (same : Members.keys definitions = Members.keys expansion.definitions) :
    Below ⟨definitions, expansion.kept⟩ root node := by
  induction below with
  | root => exact .root
  | child above stays mem ih =>
      refine .child ih (inlined?_eq_none_iff.2 ?_) mem
      rw [same]
      exact inlined?_eq_none_iff.1 stays

theorem Below.expands (below : expansion.Below root node) {expanded : Schema}
    (ok : expansion.expand root = .ok expanded) :
    ∃ put result, expandNode expansion put node = .ok result := by
  obtain ⟨put, first⟩ : ∃ put, expandNode expansion put root = .ok expanded := by
    rw [expand] at ok
    cases h : expansion.definitions.length with
    | zero => exact ⟨.ok, by rwa [h] at ok⟩
    | succ depth => exact ⟨expansion.expandWithin depth, by rwa [h] at ok⟩
  refine ⟨put, ?_⟩
  induction below with
  | root => exact ⟨expanded, first⟩
  | child above stays mem ih =>
      obtain ⟨result, h⟩ := ih
      rcases expandNode_eq_ok_iff.1 h with ⟨definition, found, -⟩ | ⟨-, parts, hp, -⟩
      · cases stays.symm.trans found
      · obtain ⟨part, -, hc⟩ := Outcome.exists_of_forall₂ (expandParts_eq_ok_iff.1 hp).2.all mem
        exact ⟨part, hc⟩

end Expansion

namespace Document

/-- A reference without a supported form, or to a definition that is not there. -/
def Faulty (document : Document) (reference : String) : Prop :=
  Reference.name? reference = none ∨
    ∃ name, Reference.name? reference = some name ∧ name ∉ Members.keys document.definitions

/-- The nodes of a document, and of the definitions that its references lead to. -/
inductive Linked (document : Document) : Schema → Prop
  | root : Linked document document.schema
  | child {node child : Schema} (above : Linked document node)
      (mem : child ∈ ({ node with allOf := [] } : Schema).children) : Linked document child
  | sole {node member : Schema} (above : Linked document node) (only : node.allOf = [member]) :
      Linked document member
  | followed {node body : Schema} {reference : String} (above : Linked document node)
      (refers : node.reference = some reference) (found : document.resolve reference = .ok body) :
      Linked document body

theorem Faulty.not_defined {document : Document} {reference : String}
    (faulty : document.Faulty reference) :
    ¬ ∃ name body, Reference.name? reference = some name ∧
      Members.get? document.definitions name = some body := by
  rintro ⟨name, body, named, found⟩
  rcases faulty with unsupported | ⟨other, same, absent⟩
  · rw [unsupported] at named
    cases named
  · cases named.symm.trans same
    exact absent (Members.mem_keys_iff_exists_get?.2 ⟨body, found⟩)

/-- The nodes that expansion comes by, in the root and what is put in there, or else in a
definition that is expanded in its place. -/
inductive Passed (document : Document) (node : Schema) : Prop
  | root (reached : document.expansion.Reached document.schema node)
  | definition {name : String} {body : Schema} (cycle : document.cyclicDefinitions ≠ [])
      (acyclic : name ∉ document.cyclicDefinitions)
      (found : Members.get? document.definitions name = some body)
      (below : document.expansion.Below body node)

end Document

namespace Prepared

variable {raw : Json} {document : Document} {node : Schema} {reference : String}

/-- No schema is prepared in which expansion comes by a faulty reference. -/
theorem faulty_reference_fails (read : Document.ofJson raw = .ok document)
    (passed : document.Passed node) (refers : node.reference = some reference)
    (faulty : document.Faulty reference) (config : Config) :
    ∃ fault, ofJson raw config = .error fault := by
  cases parsed : ofJson raw config with
  | error fault => exact ⟨fault, rfl⟩
  | ok prepared =>
      obtain ⟨document', expanded, read', expands, -⟩ := ofJson_eq_ok_iff.1 parsed
      cases read.symm.trans read'
      cases passed with
      | root reached =>
          have grounded := Document.grounded_expansion (Document.nodup_keys_definitions read)
          obtain ⟨root, first, -⟩ := Outcome.bind_eq_ok_iff.1 expands
          obtain ⟨result, step⟩ := reached.expands grounded first
          rw [grounded.expand_eq] at step
          exact absurd (Expansion.exists_definition_of_expandNode refers step) faulty.not_defined
      | definition cycle acyclic found below =>
          obtain ⟨before, after, turn⟩ :=
            Document.exists_turn acyclic (Members.mem_keys_iff_exists_get?.2 ⟨_, found⟩)
          obtain ⟨table, result, names, -, -, own⟩ :=
            Document.exists_expand_of_turn (Document.root_eq_apart read)
              (Document.nodup_keys_definitions read) expands cycle turn found
          obtain ⟨put, result, step⟩ := (below.of_keys names).expands own
          obtain ⟨name, body, named, defined⟩ :=
            Expansion.exists_definition_of_expandNode refers step
          obtain ⟨body, defined⟩ := Members.mem_keys_iff_exists_get?.1
            (names ▸ Members.mem_keys_iff_exists_get?.2 ⟨body, defined⟩)
          exact absurd ⟨name, body, named, defined⟩ faulty.not_defined

/-- Lists whose items refer to a definition that is not there, or nothing. -/
def misdirectedJson : Json :=
  .object
    [("properties", .object
        [("x", .object
          [("anyOf", .array
            [.object [("$ref", .string "#/definitions/List")],
              .object [("type", .string "null")]])])]),
      ("definitions", .object
        [("List", .object
          [("type", .string "array"),
            ("items", .object [("$ref", .string "#/definitions/Missing")])])])]

def misdirected : Document where
  root := .apart
    { properties :=
        [("x", { anyOf := [{ reference := some "#/definitions/List" }, .ofType .null] })] }
  definitions :=
    [("List", { types := [.array], items := some { reference := some "#/definitions/Missing" } })]

theorem misdirected_items_fail :
    misdirected.expansion.Reached misdirected.schema
        { reference := some "#/definitions/Missing" } ∧
      misdirected.Faulty "#/definitions/Missing" ∧
      ∃ fault, ofJson misdirectedJson {} = .error fault := by
  have read : Document.ofJson misdirectedJson = .ok misdirected := rfl
  have list : misdirected.expansion.Reached misdirected.schema
      { reference := some "#/definitions/List" } :=
    .child (.child .root rfl (.head _)) rfl (.head _)
  have inlined : misdirected.expansion.inlined? { reference := some "#/definitions/List" } =
      .ok (some
        { types := [.array], items := some { reference := some "#/definitions/Missing" } }) := rfl
  have reached := Expansion.Reached.child (.inlined list inlined) rfl (.head _)
  have faulty : misdirected.Faulty "#/definitions/Missing" := .inr ⟨"Missing", by decide, by decide⟩
  exact ⟨reached, faulty, faulty_reference_fails read (.root reached) rfl faulty {}⟩

/-- A node of a cycle that also refers to a definition that is not there. -/
def straying : Schema where
  types := [.object]
  properties :=
    [("next", { reference := some "#/definitions/N" }),
      ("other", { reference := some "#/definitions/Missing" })]

def strayingJson : Json :=
  .object
    [("type", .string "object"),
      ("properties", .object [("x", .object [("$ref", .string "#/definitions/N")])]),
      ("definitions", .object
        [("N", .object
          [("type", .string "object"),
            ("properties", .object
              [("next", .object [("$ref", .string "#/definitions/N")]),
                ("other", .object [("$ref", .string "#/definitions/Missing")])])])])]

def strayingDocument : Document where
  root := .apart
    { types := [.object], properties := [("x", { reference := some "#/definitions/N" })] }
  definitions := [("N", straying)]

/-- What stands in a definition on a cycle is not looked at. -/
theorem not_every_faulty_reference_fails :
    ¬ ∀ (raw : Json) (document : Document) (node : Schema) (reference : String) (config : Config),
      Document.ofJson raw = .ok document → document.Linked node →
      node.reference = some reference → document.Faulty reference →
      ∃ fault, ofJson raw config = .error fault := by
  intro claim
  have first : strayingDocument.Linked { reference := some "#/definitions/N" } :=
    .child .root (.head _)
  have body : strayingDocument.Linked straying := .followed first rfl rfl
  have linked : strayingDocument.Linked { reference := some "#/definitions/Missing" } :=
    .child body (.tail _ (.head _))
  obtain ⟨fault, fails⟩ := claim strayingJson strayingDocument _ "#/definitions/Missing" {} rfl
    linked rfl (.inr ⟨"Missing", by decide, by decide⟩)
  have prepares : ofJson strayingJson {} =
      .ok { document := strayingDocument.augment, cyclic := true, config := {} } := rfl
  rw [prepares] at fails
  cases fails

end Prepared

end SchemaStream
