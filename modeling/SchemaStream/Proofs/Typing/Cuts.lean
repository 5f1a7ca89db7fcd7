import SchemaStream.Proofs.Flat.FirstLeaves
import SchemaStream.Proofs.Typing.PartialTypes
import SchemaStream.Proofs.Typing.Vocabulary

/-!
# Cuts of admitted values

A partial type asks nothing of what is missing.  So it admits every cut of a value that it
admits, if no enumeration has a member that could itself be cut.
-/

namespace SchemaStream

namespace Json

def isScalar : Json → Bool
  | .array _ | .object _ => false
  | _ => true

theorem isScalar_of_same {member value : Json} (scalar : member.isScalar = true)
    (same : member.same value = true) : value.isScalar = true := by
  cases member <;> cases value <;> simp_all [isScalar, Json.same]

theorem firstLeaves_of_isScalar {value : Json} (scalar : value.isScalar = true) (count : Nat) :
    value.firstLeaves count = value := by
  cases value with
  | null | bool | number | string => rfl
  | array items => cases scalar
  | object members => cases scalar

theorem firstLeaves_eq_null_iff {value : Json} {count : Nat} :
    value.firstLeaves count = .null ↔ value = .null := by
  cases value <;> simp [firstLeaves]

end Json

namespace FieldType

/-- A type in whose enumerations there are only scalars. -/
abbrev ListsScalars (type : FieldType) : Prop :=
  type.Uses (fun _ => True) fun member => member.isScalar = true

variable {type : FieldType} {value : Json}

theorem admits_firstLeaves (lists : type.ListsScalars) (admits : type.toPartial.Admits value)
    (count : Nat) : type.toPartial.Admits (value.firstLeaves count) := by
  induction type generalizing value count with
  | scalar kind =>
      -- A scalar type is its own partial form.
      change (scalar kind).Admits value at admits
      change (scalar kind).Admits (value.firstLeaves count)
      rw [admits_scalar_iff] at admits ⊢
      cases kind <;> cases value <;> simp_all [ScalarKind.accepts, Json.firstLeaves]
  | literal values =>
      obtain ⟨member, mem, same⟩ := admits_literal_iff.1 admits
      cases lists with
      | literal each =>
          rw [Json.firstLeaves_of_isScalar (Json.isScalar_of_same (each member mem) same)]
          exact admits
  | record name fields ih =>
      cases lists with
      | record own inside =>
          obtain ⟨members, rfl, each⟩ := admits_record_iff.1 admits
          refine admits_record_iff.2 ⟨_, rfl, fun field mem => ?_⟩
          obtain ⟨whole, below, rfl⟩ := mem_partialFields_iff.1 mem
          -- A member that is cut away, or was null, asks for nothing.
          refine admitsAt_partial_iff.2 fun part found some => ?_
          obtain ⟨left, value, held, rfl⟩ := Json.get?_firstMembers found
          rw [ne_eq, Json.firstLeaves_eq_null_iff] at some
          have own := admitsAt_partial_iff.1 (each _ mem) value held some
          exact ih whole below (inside whole below) own left
  | list element ih =>
      cases lists with
      | list inside =>
          obtain ⟨items, rfl, each⟩ := admits_list_iff.1 admits
          refine admits_list_iff.2 ⟨_, rfl, fun item mem => ?_⟩
          obtain ⟨left, whole, below, rfl⟩ := Json.mem_firstItems mem
          rw [admits_orNull_iff, Json.firstLeaves_eq_null_iff]
          exact (admits_orNull_iff.1 (each whole below)).imp_right fun own => ih inside own left
  | nullable inner ih =>
      cases lists with
      | nullable inside =>
          rw [toPartial, admits_orNull_iff] at admits ⊢
          rw [Json.firstLeaves_eq_null_iff]
          exact admits.imp_right fun own => ih inside own count
  | union => exact admits_union

end FieldType

namespace RecordType

variable {record : RecordType} {value : Json}

/-- What an accepted value leaves behind when it is cut is accepted while in progress. -/
theorem accepts_firstLeaves (lists : record.asField.ListsScalars) (admits : record.Admits value)
    (count : Nat) : record.toPartial.accepts (value.firstLeaves count) = true :=
  accepts_iff.2 (FieldType.admits_firstLeaves lists (FieldType.admits_toPartial admits) count)

end RecordType

end SchemaStream
