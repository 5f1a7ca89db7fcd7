import SchemaStream.Json.Members
import SchemaStream.Proofs.Outcome
import Mathlib.Data.List.Basic
import Mathlib.Data.List.Perm.Subperm

/-!
# Members with their values mapped

Where a member is put depends on the names alone.  So to put in members and to map their values
is the same in either order, and a traversal of the values goes by the names.
-/

namespace SchemaStream

namespace Members

variable {ε α β : Type}

theorem map_snd_mapValues (f : α → β) (members : Members α) :
    (mapValues f members).map Prod.snd = (members.map Prod.snd).map f := by
  simp [mapValues]

theorem mapValues_append (f : α → β) (members others : Members α) :
    mapValues f (members ++ others) = mapValues f members ++ mapValues f others :=
  List.map_append

theorem has_mapValues (f : α → β) (members : Members α) (name : String) :
    has (mapValues f members) name = has members name := by
  rw [has, has, get?_mapValues, Option.isSome_map]

theorem insertAllNew_mapValues (f : α → β) (members added : Members α) :
    insertAllNew (mapValues f members) (mapValues f added) =
      mapValues f (insertAllNew members added) := by
  induction added generalizing members with
  | nil => rfl
  | cons member rest ih =>
      have step : insertNew (mapValues f members) member.1 (f member.2) =
          mapValues f (insertNew members member.1 member.2) := by
        rw [insertNew, insertNew, has_mapValues]
        split
        · rfl
        · simp [mapValues]
      change insertAllNew (insertNew (mapValues f members) member.1 (f member.2))
        (mapValues f rest) = _
      rw [step, ih]
      rfl

theorem zip_keys_append (f : α → β) (members : Members α) (rest : List β) :
    (keys members).zip ((members.map Prod.snd).map f ++ rest) = mapValues f members := by
  induction members with
  | nil => rfl
  | cons member more ih => exact congrArg ((member.1, f member.2) :: ·) ih

theorem map_snd_zip_keys (members : Members α) (values : List β) :
    ((keys members).zip values).map Prod.snd = values.take members.length := by
  induction members generalizing values with
  | nil => simp [keys]
  | cons member more ih =>
      cases values with
      | nil => simp
      | cons value values => exact congrArg (value :: ·) (ih values)

theorem mapM_eq_zip_keys (f : α → Except ε β) (members : Members α) :
    (members.mapM fun member => do return (member.1, ← f member.2)) =
      (keys members).zip <$> (members.map Prod.snd).mapM f := by
  induction members with
  | nil => rfl
  | cons member rest ih =>
      simp only [List.mapM_cons, List.map_cons, ih, bind_assoc, pure_bind, map_eq_pure_bind]
      rfl

theorem insert_mapValues (f : α → β) (members : Members α) (name : String) (value : α) :
    insert (mapValues f members) name (f value) = mapValues f (insert members name value) := by
  induction members with
  | nil => rfl
  | cons member rest ih =>
      obtain ⟨key, old⟩ := member
      change insert ((key, f old) :: mapValues f rest) name (f value) = _
      rw [insert, insert, ih]
      split <;> rfl

theorem insertAll_mapValues (f : α → β) (members added : Members α) :
    insertAll (mapValues f members) (mapValues f added) =
      mapValues f (insertAll members added) := by
  induction added generalizing members with
  | nil => rfl
  | cons member rest ih =>
      change insertAll (insert (mapValues f members) member.1 (f member.2)) (mapValues f rest) = _
      rw [insert_mapValues, ih]
      rfl

theorem insert_subperm (members : Members α) (name : String) (value : α) :
    (insert members name value).Subperm (members ++ [(name, value)]) := by
  induction members with
  | nil => exact List.Subperm.refl _
  | cons member rest ih =>
      obtain ⟨key, old⟩ := member
      rw [insert]
      split
      · next same =>
          have moved : ((key, value) :: rest).Perm (rest ++ [(name, value)]) := by
            rw [same]
            exact (List.perm_append_singleton _ _).symm
          exact moved.subperm.trans (List.sublist_cons_self _ _).subperm
      · exact (List.subperm_cons _).2 ih

/-- What is put in for a name that is there takes the place of what was there. -/
theorem insertAll_subperm (members added : Members α) :
    (insertAll members added).Subperm (members ++ added) := by
  induction added generalizing members with
  | nil => exact (List.append_nil members).symm ▸ List.Subperm.refl _
  | cons member rest ih =>
      refine (ih (insert members member.1 member.2)).trans ?_
      have step := (List.subperm_append_right rest).2 (insert_subperm members member.1 member.2)
      simpa using step

/-- New members are put behind those that are there, by whose names alone they are chosen. -/
theorem exists_insertAllNew_eq (members added : Members α) :
    ∃ new, new.Sublist added ∧ ∀ others : Members α, keys others = keys members →
      insertAllNew others added = others ++ new := by
  induction added generalizing members with
  | nil => exact ⟨[], .slnil, fun others _ => (List.append_nil _).symm⟩
  | cons member rest ih =>
      have named (others : Members α) (same : keys others = keys members) :
          has others member.1 = has members member.1 := by
        rw [Bool.eq_iff_iff, has_iff_mem_keys, has_iff_mem_keys, same]
      obtain ⟨new, sub, appends⟩ := ih (insertNew members member.1 member.2)
      cases present : has members member.1 with
      | true =>
          rw [insertNew, if_pos present] at appends
          refine ⟨new, sub.cons _, fun others same => ?_⟩
          change insertAllNew (insertNew others member.1 member.2) rest = _
          rw [insertNew, if_pos ((named others same).trans present), appends others same]
      | false =>
          rw [insertNew, if_neg (present ▸ Bool.false_ne_true)] at appends
          refine ⟨member :: new, sub.cons_cons _, fun others same => ?_⟩
          change insertAllNew (insertNew others member.1 member.2) rest = _
          rw [insertNew, if_neg ((named others same).trans present ▸ Bool.false_ne_true), appends]
          · exact List.append_assoc _ _ _
          · simpa [keys] using same

end Members

end SchemaStream
