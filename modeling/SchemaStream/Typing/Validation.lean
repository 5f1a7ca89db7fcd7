import SchemaStream.Flat.Key
import SchemaStream.Typing.FieldType

/-!
# Validation

A value is checked against a type as a whole: every mismatch is reported, under the flat
key of the value that does not fit, in the order of the fields and items.
-/

namespace SchemaStream

inductive Mismatch where
  | notObject (record : String) (found : ValueKind)
  | missing
  | notScalar (expected : ScalarKind) (found : ValueKind)
  | notMember (values : List Json) (found : Json)
  | notList (found : ValueKind)
  deriving DecidableEq

def Mismatch.message : Mismatch → String
  | .notObject record found => "expected object " ++ record ++ ", found " ++ found.name
  | .missing => "missing required field"
  | .notScalar expected found => "expected " ++ expected.name ++ ", found " ++ found.name
  | .notMember values found =>
      "expected " ++ (FieldType.literal values).display ++ ", found " ++ found.text
  | .notList found => "expected list, found " ++ found.name

structure Issue where
  key : String
  mismatch : Mismatch
  deriving DecidableEq

def Issue.message (issue : Issue) : String :=
  (if issue.key = "" then "<root>" else issue.key) ++ ": " ++ issue.mismatch.message

structure ValidationError where
  type : String
  issues : List Issue
  deriving DecidableEq

def ValidationError.message (error : ValidationError) : String :=
  "validation failed for " ++ error.type ++ ": " ++
    String.intercalate "; " (error.issues.map Issue.message)

/-- An integer may be written as any number without a fraction. -/
def ScalarKind.accepts (kind : ScalarKind) (value : Json) : Bool :=
  match kind, value with
  | .any, _ => true
  | .string, .string _ => true
  | .number, .number _ => true
  | .integer, .number value => value.isIntegral
  | .boolean, .bool _ => true
  | .null, .null => true
  | _, _ => false

namespace FieldType

mutual

def issues (type : FieldType) (key : String) (value : Json) : List Issue :=
  match type with
  | .union => []
  | .scalar kind => if kind.accepts value then [] else [⟨key, .notScalar kind value.kind⟩]
  | .literal values =>
      if values.any fun member => member.same value then []
      else [⟨key, .notMember values value⟩]
  | .record name fields =>
      match value with
      | .object members => fieldIssues fields key members
      | other => [⟨key, .notObject name other.kind⟩]
  | .list element =>
      match value with
      | .array items =>
          items.zipIdx.flatMap fun (item, index) =>
            issues element (FlatKey.join key (FlatKey.ofIndex index)) item
      | other => [⟨key, .notList other.kind⟩]
  | .nullable inner =>
      match value with
      | .null => []
      | other => issues inner key other

def fieldIssues (fields : List (Field FieldType)) (key : String) (members : Members Json) :
    List Issue :=
  match fields with
  | [] => []
  | field :: rest => issuesAt field key members ++ fieldIssues rest key members

def issuesAt (field : Field FieldType) (key : String) (members : Members Json) : List Issue :=
  match field with
  | ⟨name, type, optional, _⟩ =>
      match Members.get? members name with
      | none => if optional then [] else [⟨FlatKey.join key name, .missing⟩]
      | some .null => if optional then [] else issues type (FlatKey.join key name) .null
      | some value => issues type (FlatKey.join key name) value

end

theorem fieldIssues_eq_flatMap (fields : List (Field FieldType)) (key : String)
    (members : Members Json) :
    fieldIssues fields key members = fields.flatMap fun field => issuesAt field key members := by
  induction fields with
  | nil => rfl
  | cons field rest ih => rw [fieldIssues, ih, List.flatMap_cons]

end FieldType

namespace RecordType

def issues (record : RecordType) (value : Json) : List Issue :=
  (FieldType.record record.name record.fields).issues "" value

def accepts (record : RecordType) (value : Json) : Bool := (record.issues value).isEmpty

def validate (record : RecordType) (value : Json) : Except ValidationError Unit :=
  if record.accepts value then .ok () else .error ⟨record.name, record.issues value⟩

end RecordType

end SchemaStream
