import SchemaStream.Typing.Validation
import Mathlib.Data.List.Basic

/-!
# Values that a type admits

A type admits a value if checking the value reports no issue.  Where the value stands only
tells under which key an issue would be reported, so admission is a matter of the type and the
value alone, and each kind of type says what it asks of a value and of what is inside.
-/

namespace SchemaStream

namespace FieldType

variable {type inner element : FieldType} {key : String} {value : Json}

def Admits (type : FieldType) (value : Json) : Prop := type.issues "" value = []

instance (type : FieldType) (value : Json) : Decidable (type.Admits value) :=
  inferInstanceAs (Decidable (_ = _))

/-- An optional field may be absent, and null whatever its type. -/
def AdmitsAt (field : Field FieldType) (found : Option Json) : Prop :=
  match found with
  | none => field.optional = true
  | some value => field.optional = true ∧ value = .null ∨ field.type.Admits value

/-! ## Where a value stands -/

theorem issuesAt_eq_nil_iff {field : Field FieldType} {members : Members Json}
    (anywhere : ∀ value key, field.type.issues key value = [] ↔ field.type.Admits value) :
    issuesAt field key members = [] ↔ AdmitsAt field (Members.get? members field.name) := by
  obtain ⟨name, type, optional, description⟩ := field
  dsimp only at anywhere ⊢
  rw [issuesAt]
  cases Members.get? members name with
  | none => cases optional <;> simp [AdmitsAt]
  | some value => cases value <;> cases optional <;> simp [AdmitsAt, anywhere]

theorem issues_eq_nil_iff : type.issues key value = [] ↔ type.Admits value := by
  induction type generalizing key value with
  | scalar kind =>
      simp only [Admits, issues]
      split <;> simp
  | literal values =>
      simp only [Admits, issues]
      split <;> simp
  | record name fields ih =>
      cases value with
      | object members =>
          simp only [Admits, issues, fieldIssues_eq_flatMap, List.flatMap_eq_nil_iff]
          refine forall₂_congr fun field mem => ?_
          have anywhere (value : Json) (key : String) := @ih field mem key value
          rw [issuesAt_eq_nil_iff anywhere, issuesAt_eq_nil_iff anywhere]
      | _ => simp [Admits, issues]
  | list element ih =>
      cases value with
      | array items =>
          simp only [Admits, issues, List.flatMap_eq_nil_iff]
          exact forall₂_congr fun item _ => ih.trans ih.symm
      | _ => simp [Admits, issues]
  | nullable inner ih =>
      cases value with
      | null => simp [Admits, issues]
      | _ =>
          rw [Admits, issues, issues]
          · exact ih.trans ih.symm
          all_goals simp
  | union => simp [Admits, issues]

/-! ## What each kind of type asks -/

@[simp] theorem admits_union : union.Admits value := by rw [Admits, issues]

@[simp] theorem admits_scalar_iff {kind : ScalarKind} :
    (scalar kind).Admits value ↔ kind.accepts value = true := by
  rw [Admits, issues]
  split <;> simp_all

@[simp] theorem admits_literal_iff {values : List Json} :
    (literal values).Admits value ↔ ∃ member ∈ values, member.same value = true := by
  rw [Admits, issues]
  split <;> simp_all

theorem admits_record_iff {name : String} {fields : List (Field FieldType)} :
    (record name fields).Admits value ↔ ∃ members, value = .object members ∧
      ∀ field ∈ fields, AdmitsAt field (Members.get? members field.name) := by
  cases value with
  | object members =>
      simp only [Admits, issues, fieldIssues_eq_flatMap, List.flatMap_eq_nil_iff]
      have each : (∀ field ∈ fields, issuesAt field "" members = []) ↔
          ∀ field ∈ fields, AdmitsAt field (Members.get? members field.name) :=
        forall₂_congr fun field _ => issuesAt_eq_nil_iff fun _ _ => issues_eq_nil_iff
      rw [each]
      simp
  | _ => simp [Admits, issues]

theorem admits_list_iff :
    (list element).Admits value ↔ ∃ items, value = .array items ∧
      ∀ item ∈ items, element.Admits item := by
  cases value with
  | array items =>
      rw [Admits, issues, List.flatMap_eq_nil_iff]
      simp only [Prod.forall, issues_eq_nil_iff, List.mem_zipIdx_iff_getElem?]
      constructor
      · intro every
        refine ⟨items, rfl, fun item mem => ?_⟩
        obtain ⟨index, found⟩ := List.getElem?_of_mem mem
        exact every item index found
      · rintro ⟨_, same, every⟩ item index found
        cases same
        exact every item (List.mem_of_getElem? found)
  | _ => simp [Admits, issues]

theorem admits_nullable_iff :
    (nullable inner).Admits value ↔ value = .null ∨ inner.Admits value := by
  cases value with
  | null => simp [Admits, issues]
  | _ => simp [Admits, issues]

theorem admits_null_of_isNullable (nullable : type.isNullable = true) : type.Admits .null := by
  cases type with
  | scalar kind => cases kind <;> simp_all [isNullable, ScalarKind.accepts]
  | nullable inner => exact admits_nullable_iff.2 (.inl rfl)
  | union => exact admits_union
  | literal values => cases nullable
  | record name fields => cases nullable
  | list element => cases nullable

theorem admits_orNull_iff : type.orNull.Admits value ↔ value = .null ∨ type.Admits value := by
  rw [orNull]
  split
  · next nullable =>
      constructor
      · exact .inr
      · rintro (rfl | admits)
        · exact admits_null_of_isNullable nullable
        · exact admits
  · exact admits_nullable_iff

end FieldType

namespace RecordType

variable {record : RecordType} {value : Json}

def Admits (record : RecordType) (value : Json) : Prop :=
  (FieldType.record record.name record.fields).Admits value

theorem accepts_iff : record.accepts value = true ↔ record.Admits value := by
  rw [accepts, List.isEmpty_iff, issues, Admits, FieldType.Admits]

theorem validate_eq_ok_iff : record.validate value = .ok () ↔ record.Admits value := by
  rw [validate, ← accepts_iff]
  split <;> simp_all

end RecordType

end SchemaStream
