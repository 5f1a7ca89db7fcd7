import SchemaStream.Json.Basic

/-!
# Values without repeated names

The text of a value never gives two members of one object the same name, as a repeated
name takes the place of the earlier one.
-/

namespace SchemaStream

namespace Json

mutual

/-- Whether no object within a value names a member twice. -/
def distinct : Json → Bool
  | .array items => distinctItems items
  | .object members => decide (Members.keys members).Nodup && distinctMembers members
  | _ => true

def distinctItems : List Json → Bool
  | [] => true
  | item :: rest => distinct item && distinctItems rest

def distinctMembers : List (String × Json) → Bool
  | [] => true
  | (_, value) :: rest => distinct value && distinctMembers rest

end

theorem distinct_array_iff {items : List Json} :
    (array items).distinct = true ↔ ∀ item ∈ items, item.distinct = true := by
  rw [distinct]
  induction items with
  | nil => simp [distinctItems]
  | cons item rest ih => simp [distinctItems, ih]

theorem distinct_object_iff {members : List (String × Json)} :
    (object members).distinct = true ↔
      (Members.keys members).Nodup ∧ ∀ member ∈ members, member.2.distinct = true := by
  rw [distinct, Bool.and_eq_true, decide_eq_true_iff]
  refine and_congr_right fun names => ?_
  clear names
  induction members with
  | nil => simp [distinctMembers]
  | cons member rest ih =>
      obtain ⟨name, value⟩ := member
      rw [distinctMembers, Bool.and_eq_true, ih, List.forall_mem_cons]

end Json

end SchemaStream
