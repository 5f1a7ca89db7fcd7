import SchemaStream.Proofs.Typing.Admission

/-!
# Partial types

The partial form of a type asks less: whatever a type admits, its partial form admits too.
-/

namespace SchemaStream

namespace FieldType

variable {type : FieldType} {value : Json}

theorem mem_partialFields_iff {fields : List (Field FieldType)} {field : Field FieldType} :
    field ∈ partialFields fields ↔ ∃ own ∈ fields,
      field = ⟨own.name, own.type.toPartial.orNull, true, own.description⟩ := by
  rw [partialFields_eq_map, List.mem_map]
  simp only [eq_comm]

/-- A field of a partial record only asks something of a value other than null. -/
theorem admitsAt_partial_iff {name : String} {description : Option String}
    {found : Option Json} :
    AdmitsAt ⟨name, type.orNull, true, description⟩ found ↔
      ∀ value, found = some value → value ≠ .null → type.Admits value := by
  cases found with
  | none => simp [AdmitsAt]
  | some value => simp [AdmitsAt, admits_orNull_iff, or_iff_not_imp_left]

theorem admits_toPartial (admits : type.Admits value) : type.toPartial.Admits value := by
  induction type generalizing value with
  | scalar kind => exact admits
  | literal values => exact admits
  | record name fields ih =>
      obtain ⟨members, rfl, each⟩ := admits_record_iff.1 admits
      refine admits_record_iff.2 ⟨members, rfl, fun field mem => ?_⟩
      obtain ⟨own, below, rfl⟩ := mem_partialFields_iff.1 mem
      refine admitsAt_partial_iff.2 fun value found some => ?_
      have own' := each own below
      rw [found] at own'
      exact ih own below (own'.resolve_left fun null => some null.2)
  | list element ih =>
      obtain ⟨items, rfl, each⟩ := admits_list_iff.1 admits
      refine admits_list_iff.2 ⟨items, rfl, fun item mem => ?_⟩
      exact admits_orNull_iff.2 (.inr (ih (each item mem)))
  | nullable inner ih =>
      exact admits_orNull_iff.2 ((admits_nullable_iff.1 admits).imp_right ih)
  | union => exact admits

end FieldType

namespace RecordType

variable {record : RecordType} {value : Json}

theorem admits_toPartial (admits : record.Admits value) : record.toPartial.Admits value :=
  FieldType.admits_toPartial admits

end RecordType

end SchemaStream
