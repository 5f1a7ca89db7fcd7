import SchemaStream.Proofs.Schema.Conformance
import SchemaStream.Proofs.Schema.Expanded

/-!
# Strict schemas of documents

A document is compiled root first, then definition by definition.  Where all references left
are to tolerated definitions, as in an expanded document, this cannot fail.
-/

namespace SchemaStream

namespace Strict

variable {context : Context} {schema : Schema}

/-- What a definition is compiled to. -/
def compileDefinition (context : Context) (definition : String × Schema) :
    Except SchemaError (String × Json) :=
  Prod.mk definition.1 <$>
    if context.tolerated.contains definition.1 then .ok definition.2.toJson
    else compileNode context definition.2

theorem compileDefinitions_eq_mapM (definitions : Members Schema) :
    compileDefinitions context definitions = definitions.mapM (compileDefinition context) := by
  induction definitions with
  | nil => rfl
  | cons definition rest ih =>
      obtain ⟨name, schema⟩ := definition
      rw [compileDefinitions, List.mapM_cons, compileDefinition, ih]
      by_cases tolerated : name ∈ context.tolerated
      · simp [tolerated, Functor.map, Except.map, bind, Except.bind, pure, Except.pure]
      · cases compileNode context schema <;> simp [tolerated] <;> rfl

theorem compileDefinition_eq_ok_iff {definition : String × Schema} {compiled : String × Json} :
    compileDefinition context definition = .ok compiled ↔
      compiled.1 = definition.1 ∧
        (definition.1 ∈ context.tolerated ∧ compiled.2 = definition.2.toJson ∨
          definition.1 ∉ context.tolerated ∧
            compileNode context definition.2 = .ok compiled.2) := by
  obtain ⟨name, strict⟩ := compiled
  rw [compileDefinition, Outcome.map_eq_ok_iff]
  by_cases tolerated : definition.1 ∈ context.tolerated
  · simp [tolerated, eq_comm]
  · simp [tolerated, eq_comm, and_comm]

theorem keys_of_compileDefinition {definitions : Members Schema} {compiled : Members Json}
    (compiles : List.Forall₂ (fun definition entry =>
      compileDefinition context definition = .ok entry) definitions compiled) :
    Members.keys compiled = Members.keys definitions :=
  (Members.keys_eq_of_forall₂ (compiles.imp fun _ _ own =>
    (compileDefinition_eq_ok_iff.1 own).1.symm)).symm

/-! ## Success -/

theorem exists_compileMembers {members : List Schema}
    (each : ∀ member ∈ members, ∃ strict, compileNode context member = .ok strict) :
    ∃ compiled, compileMembers context members = .ok compiled := by
  rw [compileMembers_eq_mapM]
  exact Outcome.exists_mapM each

theorem exists_compileProperties {properties : List (String × Schema)}
    (each : ∀ property ∈ properties, ∃ strict, compileNode context property.2 = .ok strict) :
    ∃ compiled, compileProperties context properties = .ok compiled := by
  rw [compileProperties_eq_mapM]
  refine Outcome.exists_mapM fun property mem => ?_
  obtain ⟨strict, compiles⟩ := each property mem
  exact ⟨(property.1, strict), Outcome.bind_eq_ok_iff.2 ⟨strict, compiles, rfl⟩⟩

/-- A schema compiles if the references in it are to tolerated definitions. -/
theorem exists_compileNode (defined : context.tolerated ⊆ Members.keys context.definitions)
    (everywhere : schema.Everywhere (Schema.Expanded context.tolerated)) :
    ∃ strict, compileNode context schema = .ok strict := by
  induction schema using Schema.induct with
  | node schema ih =>
      obtain ⟨own, children⟩ := Schema.everywhere_iff.1 everywhere
      have each (child : Schema) (mem : child ∈ schema.children) :=
        ih child mem (children child mem)
      cases refers : schema.reference with
      | some reference =>
          obtain ⟨name, tolerated, named⟩ := own.reference reference refers
          exact ⟨_, (compileNode_eq_ok_iff_of_reference refers).2
            ⟨name, named, defined tolerated, tolerated, rfl⟩⟩
      | none =>
          obtain ⟨object, hobject⟩ : ∃ object, (if hasProperties schema then
              (compileProperties context schema.properties).map objectMembers
              else .ok []) = .ok object := by
            obtain ⟨properties, compiles⟩ := exists_compileProperties fun property mem =>
              each property.2 (Schema.mem_children_of_properties mem)
            split
            · exact ⟨_, Outcome.map_eq_ok_iff.2 ⟨properties, compiles, rfl⟩⟩
            · exact ⟨[], rfl⟩
          obtain ⟨items, hitems⟩ : ∃ items, compileItems context schema.items = .ok items := by
            cases own : schema.items with
            | none => exact ⟨[], rfl⟩
            | some item =>
                obtain ⟨strict, compiles⟩ := each item (Schema.mem_children_of_items own)
                exact ⟨_, compileItems_eq_ok_iff.2 (.inr ⟨item, strict, rfl, compiles, rfl⟩)⟩
          obtain ⟨anyOf, hany⟩ := exists_compileMembers fun member mem =>
            each member (Schema.mem_children_of_anyOf mem)
          obtain ⟨oneOf, hone⟩ := exists_compileMembers fun member mem =>
            each member (Schema.mem_children_of_oneOf mem)
          obtain ⟨allOf, hall⟩ := exists_compileMembers fun member mem =>
            each member (Schema.mem_children_of_allOf mem)
          exact ⟨_, (compileNode_eq_ok_iff_of_no_reference refers).2
            ⟨object, items, anyOf, oneOf, allOf, hobject, hitems, hany, hone, hall, rfl⟩⟩

end Strict

namespace Document

/-- What references mean when the strict schema of a document is made. -/
def strictContext (document : Document) (options : StrictOptions) : Strict.Context where
  definitions := document.definitions
  tolerated := document.cyclicDefinitions
  options := options

variable {document : Document} {options : StrictOptions} {strict : Json}

theorem strict_eq_ok_iff :
    document.strict options = .ok strict ↔
      ∃ root definitions,
        Strict.compileNode (document.strictContext options) document.schema = .ok root ∧
        document.definitions.mapM (Strict.compileDefinition (document.strictContext options)) =
          .ok definitions ∧
        document.withTable root definitions = strict := by
  change (do
    let root ← Strict.compileNode (document.strictContext options) document.schema
    let definitions ← Strict.compileDefinitions _ document.definitions
    return document.withTable root definitions) = .ok strict ↔ _
  simp only [Strict.compileDefinitions_eq_mapM, Outcome.bind_eq_ok_iff, pure, Except.pure,
    Except.ok.injEq]
  constructor
  · rintro ⟨root, first, definitions, second, same⟩
    exact ⟨root, definitions, first, second, same⟩
  · rintro ⟨root, definitions, first, second, same⟩
    exact ⟨root, first, definitions, second, same⟩

theorem Expanded.exists_strict (expanded : document.Expanded)
    (distinct : (Members.keys document.definitions).Nodup) (options : StrictOptions) :
    ∃ strict, document.strict options = .ok strict := by
  have defined : (document.strictContext options).tolerated ⊆
      Members.keys (document.strictContext options).definitions := Definitions.cyclic_subset_keys
  obtain ⟨root, first⟩ := Strict.exists_compileNode defined expanded.schema
  have each : ∀ definition ∈ document.definitions, ∃ compiled,
      Strict.compileDefinition (document.strictContext options) definition = .ok compiled := by
    intro definition mem
    by_cases tolerated : definition.1 ∈ document.cyclicDefinitions
    · exact ⟨(definition.1, definition.2.toJson),
        Strict.compileDefinition_eq_ok_iff.2 ⟨rfl, .inl ⟨tolerated, rfl⟩⟩⟩
    · have found := Members.get?_eq_some_of_mem distinct mem
      obtain ⟨compiled, compiles⟩ := Strict.exists_compileNode defined
        (expanded.definitions definition.1 definition.2 tolerated found)
      exact ⟨(definition.1, compiled),
        Strict.compileDefinition_eq_ok_iff.2 ⟨rfl, .inr ⟨tolerated, compiles⟩⟩⟩
  obtain ⟨definitions, second⟩ := Outcome.exists_mapM each
  exact ⟨_, strict_eq_ok_iff.2 ⟨root, definitions, first, second, rfl⟩⟩

end Document

end SchemaStream
