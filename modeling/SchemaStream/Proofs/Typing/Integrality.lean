import SchemaStream.Proofs.Schema.Conformance

/-!
# Integers in conforming values

A strict schema has numbers where its source has integers.  Here is what a value owes to
the source besides: its numbers have no fraction wherever the source only has integers.
-/

namespace SchemaStream

namespace Strict

/-- Whether a number is integral if the types of a node have integers but no numbers. -/
def integralFor (types : List JsonType) (value : Json) : Bool :=
  match value with
  | .number number =>
      !types.contains .integer || types.contains .number || number.isIntegral
  | _ => true

mutual

/-- Whether all numbers are integral that a node wants so.  In a union, this is asked of some
member that the value conforms to. -/
def integral (context : Context) (schema : Schema) (value : Json) : Bool :=
  match schema with
  | { types, properties, items, anyOf, oneOf, allOf, .. } =>
      integralFor types value && integralProperties context properties value &&
        integralItems context items value &&
        (anyOf.isEmpty || integralForSome context anyOf value) &&
        (oneOf.isEmpty || integralForSome context oneOf value) &&
        integralForEvery context allOf value
termination_by structural schema

def integralProperties (context : Context) (properties : List (String × Schema)) (value : Json) :
    Bool :=
  match properties with
  | [] => true
  | (name, schema) :: rest =>
      (match value with
        | .object members =>
            match Members.get? members name with
            | some found => integral context schema found
            | none => true
        | _ => true) && integralProperties context rest value
termination_by structural properties

def integralItems (context : Context) (items : Option Schema) (value : Json) : Bool :=
  match items with
  | none => true
  | some schema =>
      match value with
      | .array elements => elements.all fun element => integral context schema element
      | _ => true
termination_by structural items

def integralForSome (context : Context) (members : List Schema) (value : Json) : Bool :=
  match members with
  | [] => false
  | schema :: rest =>
      (conformsTo context schema value && integral context schema value) ||
        integralForSome context rest value
termination_by structural members

def integralForEvery (context : Context) (members : List Schema) (value : Json) : Bool :=
  match members with
  | [] => true
  | schema :: rest => integral context schema value && integralForEvery context rest value
termination_by structural members

end

variable {context : Context} {schema : Schema} {value : Json}

theorem integralForSome_iff {members : List Schema} :
    integralForSome context members value = true ↔ ∃ member ∈ members,
      conformsTo context member value = true ∧ integral context member value = true := by
  induction members with
  | nil => simp [integralForSome]
  | cons member rest ih => simp [integralForSome, ih]

theorem integralForEvery_iff {members : List Schema} :
    integralForEvery context members value = true ↔
      ∀ member ∈ members, integral context member value = true := by
  induction members with
  | nil => simp [integralForEvery]
  | cons member rest ih => simp [integralForEvery, ih]

theorem integralProperties_object_iff {properties : List (String × Schema)}
    {members : Members Json} :
    integralProperties context properties (.object members) = true ↔
      ∀ property ∈ properties, ∀ found, Members.get? members property.1 = some found →
        integral context property.2 found = true := by
  induction properties with
  | nil => simp [integralProperties]
  | cons property rest ih =>
      rw [integralProperties, Bool.and_eq_true, ih, List.forall_mem_cons]
      cases Members.get? members property.1 <;> simp

/-- What integrality at a node means for a value and what is below it. -/
structure IntegralAt (context : Context) (schema : Schema) (value : Json) : Prop where
  own : integralFor schema.types value = true
  properties : ∀ members, value = .object members → ∀ property ∈ schema.properties, ∀ found,
    Members.get? members property.1 = some found → integral context property.2 found = true
  items : ∀ item, schema.items = some item → ∀ elements, value = .array elements →
    ∀ element ∈ elements, integral context item element = true
  anyOf : schema.anyOf ≠ [] → ∃ member ∈ schema.anyOf,
    conformsTo context member value = true ∧ integral context member value = true
  oneOf : schema.oneOf ≠ [] → ∃ member ∈ schema.oneOf,
    conformsTo context member value = true ∧ integral context member value = true
  allOf : ∀ member ∈ schema.allOf, integral context member value = true

theorem integralAt_of_integral (h : integral context schema value = true) :
    IntegralAt context schema value := by
  obtain ⟨types, listed, schemaProperties, required, schemaItems, anyOf, oneOf, allOf, enumeration,
    reference, description, extensions, keywords⟩ := schema
  simp only [integral, Bool.and_eq_true, Bool.or_eq_true, List.isEmpty_iff, integralForSome_iff,
    integralForEvery_iff] at h
  obtain ⟨⟨⟨⟨⟨own, properties⟩, items⟩, any⟩, one⟩, all⟩ := h
  refine ⟨own, ?_, ?_, fun some => any.resolve_left some, fun some => one.resolve_left some, all⟩
  · rintro members rfl
    exact integralProperties_object_iff.1 properties
  · intro item found elements isArray
    dsimp only at found
    rw [found, isArray, integralItems, List.all_eq_true] at items
    exact items

end Strict

end SchemaStream
