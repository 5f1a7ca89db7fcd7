import SchemaStream.Json.Printer

/-!
# Structural types

A record type lists the fields of an object with their types.  A union that is not just
"this or null" is not taken apart, and accepts any value.  The partial form of a record
type makes every field optional at every depth.
-/

namespace SchemaStream

inductive ScalarKind where
  | string | number | integer | boolean | null | any
  deriving DecidableEq, Repr

def ScalarKind.name : ScalarKind → String
  | .string => "string"
  | .number => "number"
  | .integer => "integer"
  | .boolean => "boolean"
  | .null => "null"
  | .any => "any"

/-- An optional field may be absent or null. -/
structure Field (α : Type) where
  name : String
  type : α
  optional : Bool
  description : Option String
  deriving DecidableEq

inductive FieldType where
  | scalar (kind : ScalarKind)
  | literal (values : List Json)
  | record (name : String) (fields : List (Field FieldType))
  | list (element : FieldType)
  | nullable (inner : FieldType)
  | union

namespace FieldType

mutual

def decEq : (a b : FieldType) → Decidable (a = b)
  | .scalar a, .scalar b => decidable_of_iff (a = b) (by simp)
  | .literal a, .literal b => decidable_of_iff (a = b) (by simp)
  | .record name a, .record other b =>
      have := decEqFields a b
      decidable_of_iff (name = other ∧ a = b) (by simp)
  | .list a, .list b =>
      have := decEq a b
      decidable_of_iff (a = b) (by simp)
  | .nullable a, .nullable b =>
      have := decEq a b
      decidable_of_iff (a = b) (by simp)
  | .union, .union => isTrue rfl
  | .scalar _, .literal _ | .scalar _, .record _ _ | .scalar _, .list _ | .scalar _, .nullable _
  | .scalar _, .union | .literal _, .scalar _ | .literal _, .record _ _ | .literal _, .list _
  | .literal _, .nullable _ | .literal _, .union | .record _ _, .scalar _
  | .record _ _, .literal _ | .record _ _, .list _ | .record _ _, .nullable _
  | .record _ _, .union | .list _, .scalar _ | .list _, .literal _ | .list _, .record _ _
  | .list _, .nullable _ | .list _, .union | .nullable _, .scalar _ | .nullable _, .literal _
  | .nullable _, .record _ _ | .nullable _, .list _ | .nullable _, .union | .union, .scalar _
  | .union, .literal _ | .union, .record _ _ | .union, .list _ | .union, .nullable _ =>
      isFalse nofun

def decEqFields : (a b : List (Field FieldType)) → Decidable (a = b)
  | [], [] => isTrue rfl
  | [], _ :: _ | _ :: _, [] => isFalse nofun
  | ⟨name, a, optional, description⟩ :: as, ⟨other, b, optional', description'⟩ :: bs =>
      have := decEq a b
      have := decEqFields as bs
      decidable_of_iff
        (name = other ∧ a = b ∧ optional = optional' ∧ description = description' ∧ as = bs)
        (by simp [and_assoc])

end

instance : DecidableEq FieldType := decEq

/-- To show something of every type, show it of a record from the types of its fields. -/
@[elab_as_elim, induction_eliminator]
theorem induct {motive : FieldType → Prop} (scalar : ∀ kind, motive (.scalar kind))
    (literal : ∀ values, motive (.literal values))
    (record : ∀ name fields, (∀ field ∈ fields, motive field.type) → motive (.record name fields))
    (list : ∀ element, motive element → motive (.list element))
    (nullable : ∀ inner, motive inner → motive (.nullable inner)) (union : motive .union)
    (type : FieldType) : motive type :=
  @FieldType.rec motive (fun fields => ∀ field ∈ fields, motive field.type)
    (fun field => motive field.type) scalar literal record list nullable union
    nofun (fun _ _ first rest => List.forall_mem_cons.2 ⟨first, rest⟩)
    (fun _ _ _ _ type => type) type

def isNullable : FieldType → Bool
  | .nullable _ | .union | .scalar .null | .scalar .any => true
  | _ => false

/-- The type that accepts null besides. -/
def orNull (type : FieldType) : FieldType := if type.isNullable then type else .nullable type

/-- How a type is named in messages. -/
def display : FieldType → String
  | .scalar kind => kind.name
  | .literal values => "one of [" ++ String.intercalate ", " (values.map Json.text) ++ "]"
  | .record name _ => name
  | .list element => "list of " ++ element.display
  | .nullable inner => inner.display ++ " or null"
  | .union => "union"

def partialName (name : String) : String := name ++ "Partial"

mutual

def toPartial : FieldType → FieldType
  | .record name fields => .record (partialName name) (partialFields fields)
  | .list element => .list element.toPartial.orNull
  | .nullable inner => inner.toPartial.orNull
  | other => other

def partialFields : List (Field FieldType) → List (Field FieldType)
  | [] => []
  | ⟨name, type, _, description⟩ :: rest =>
      ⟨name, type.toPartial.orNull, true, description⟩ :: partialFields rest

end

theorem partialFields_eq_map (fields : List (Field FieldType)) :
    partialFields fields = fields.map fun field =>
      ⟨field.name, field.type.toPartial.orNull, true, field.description⟩ := by
  induction fields with
  | nil => rfl
  | cons field rest ih => rw [partialFields, ih, List.map_cons]

end FieldType

structure RecordType where
  name : String
  fields : List (Field FieldType)
  deriving DecidableEq

namespace RecordType

def toPartial (record : RecordType) : RecordType :=
  ⟨FieldType.partialName record.name, FieldType.partialFields record.fields⟩

def field? (record : RecordType) (name : String) : Option (Field FieldType) :=
  record.fields.find? fun field => field.name = name

end RecordType

end SchemaStream
