import SchemaStream.Proofs.Json.Order
import Mathlib.Data.List.Forall2
import Mathlib.Data.List.Nodup

/-!
# Members in another order

Where names do not repeat, the order of members only shows in what is written: two lists of
members are the same up to order as soon as every name has the same value in both.
-/

namespace SchemaStream

namespace Members

variable {α : Type} {members members' members'' added added' : Members α}

/-! ## Adding only what is new -/

theorem get?_insertNew (members : Members α) (name other : String) (value : α) :
    get? (insertNew members name value) other =
      (get? members other).or (if name = other then some value else none) := by
  rw [insertNew]
  split
  · next there =>
      by_cases h : name = other
      · subst h
        rw [has, Option.isSome_iff_exists] at there
        obtain ⟨old, found⟩ := there
        simp [found]
      · simp [h]
  · next absent => rw [get?_append, get?, get?]

theorem get?_insertAllNew (members added : Members α) (name : String) :
    get? (insertAllNew members added) name = (get? members name).or (get? added name) := by
  induction added generalizing members with
  | nil => simp [insertAllNew, get?]
  | cons member rest ih =>
      obtain ⟨key, value⟩ := member
      change get? (insertAllNew (insertNew members key value) rest) name = _
      rw [ih (insertNew members key value), get?_insertNew, get?, Option.or_assoc]
      split <;> simp

theorem mem_keys_insertAllNew {name : String} :
    name ∈ keys (insertAllNew members added) ↔ name ∈ keys members ∨ name ∈ keys added := by
  simp only [← has_iff_mem_keys, has, get?_insertAllNew, Option.isSome_or, Bool.or_eq_true]

theorem nodup_keys_insertNew (name : String) (value : α) (distinct : (keys members).Nodup) :
    (keys (insertNew members name value)).Nodup := by
  rw [insertNew]
  split
  · exact distinct
  · next absent =>
      have new : name ∉ keys members := fun mem => absent (has_iff_mem_keys.2 mem)
      rw [← insert_of_not_mem value new]
      exact nodup_keys_insert name value distinct

theorem nodup_keys_insertAllNew (added : Members α) (distinct : (keys members).Nodup) :
    (keys (insertAllNew members added)).Nodup := by
  induction added generalizing members with
  | nil => exact distinct
  | cons member rest ih => exact ih (nodup_keys_insertNew member.1 member.2 distinct)

theorem mem_insertAllNew {member : String × α} (mem : member ∈ insertAllNew members added) :
    member ∈ members ∨ member ∈ added := by
  induction added generalizing members with
  | nil => exact .inl mem
  | cons first rest ih =>
      rcases ih mem with mem | mem
      · change member ∈ insertNew members first.1 first.2 at mem
        rw [insertNew] at mem
        split at mem
        · exact .inl mem
        · rcases List.mem_append.1 mem with mem | mem
          · exact .inl mem
          · rw [List.mem_singleton] at mem
            exact .inr (mem ▸ List.mem_cons_self)
      · exact .inr (List.mem_cons_of_mem _ mem)

theorem insertAllNew_eq_append (distinct : (keys (members ++ added)).Nodup) :
    insertAllNew members added = members ++ added := by
  induction added generalizing members with
  | nil => simp [insertAllNew]
  | cons member rest ih =>
      have absent : has members member.1 = false := by
        rw [Bool.eq_false_iff, ne_eq, has_iff_mem_keys]
        intro mem
        rw [keys, List.map_append, List.nodup_append] at distinct
        exact distinct.2.2 _ mem _ List.mem_cons_self rfl
      have step : insertNew members member.1 member.2 = members ++ [member] := by
        simp [insertNew, absent]
      change insertAllNew (insertNew members member.1 member.2) rest = _
      rw [step, ih (by simpa using distinct), List.append_assoc, List.singleton_append]

/-! ## Members of the same names -/

section

variable {β : Type} {R : α → β → Prop} {others more : Members β}

theorem keys_eq_of_forall₂
    (h : List.Forall₂ (fun member other => member.1 = other.1) members others) :
    keys members = keys others := by
  induction h with
  | nil => rfl
  | cons first rest ih => simpa [keys, first] using ih

theorem keys_filter_eq_of_forall₂ {keep : String × α → Bool} {keep' : String × β → Bool}
    (h : List.Forall₂ (fun member other => member.1 = other.1 ∧ keep member = keep' other)
      members others) : keys (members.filter keep) = keys (others.filter keep') := by
  induction h with
  | nil => rfl
  | cons first rest ih =>
      rw [List.filter_cons, List.filter_cons, first.2]
      split
      · rw [keys, List.map_cons, first.1]
        exact congrArg _ ih
      · exact ih

theorem forall₂_iff :
    List.Forall₂ (fun member other => member.1 = other.1 ∧ R member.2 other.2)
        members others ↔
      keys members = keys others ∧
        List.Forall₂ R (members.map Prod.snd) (others.map Prod.snd) := by
  induction members generalizing others with
  | nil => cases others <;> simp [keys]
  | cons member rest ih =>
      cases others with
      | nil => simp [keys]
      | cons other others =>
          simp only [List.forall₂_cons, ih, keys, List.map_cons, List.cons.injEq]
          tauto

theorem rel_get?_of_name {S : String → α → β → Prop}
    (h : List.Forall₂ (fun member other => member.1 = other.1 ∧ S member.1 member.2 other.2)
      members others) (name : String) :
    Option.Rel (S name) (get? members name) (get? others name) := by
  induction h with
  | nil => exact .none
  | @cons member other _ _ first rest ih =>
      rw [get?, get?, ← first.1]
      split
      · next same => exact .some (same ▸ first.2)
      · exact ih

theorem rel_get?
    (h : List.Forall₂ (fun member other => member.1 = other.1 ∧ R member.2 other.2)
      members others) (name : String) : Option.Rel R (get? members name) (get? others name) :=
  rel_get?_of_name (S := fun _ => R) h name

theorem forall₂_of_rel_get? (names : keys members = keys others)
    (distinct : (keys members).Nodup)
    (h : ∀ name, Option.Rel R (get? members name) (get? others name)) :
    List.Forall₂ (fun member other => member.1 = other.1 ∧ R member.2 other.2)
      members others := by
  induction members generalizing others with
  | nil =>
      cases others with
      | nil => exact .nil
      | cons other rest => simp [keys] at names
  | cons member rest ih =>
      cases others with
      | nil => simp [keys] at names
      | cons other rest' =>
          obtain ⟨name, value⟩ := member
          obtain ⟨name', value'⟩ := other
          simp only [keys, List.map_cons, List.cons.injEq, List.nodup_cons] at names distinct
          obtain ⟨rfl, names⟩ := names
          have first : R value value' := by simpa [get?] using h name
          refine .cons ⟨rfl, first⟩ (ih names distinct.2 fun key => ?_)
          have below := h key
          rw [get?, get?] at below
          split at below
          · next same =>
              subst same
              have absent : name ∉ keys rest' := by
                rw [keys, ← names]
                exact distinct.1
              rw [get?_eq_none_iff.2 distinct.1, get?_eq_none_iff.2 absent]
              exact .none
          · exact below

theorem forall₂_insert {name : String} {value : α} {other : β}
    (h : List.Forall₂ (fun member other => member.1 = other.1 ∧ R member.2 other.2)
      members others) (h' : R value other) :
    List.Forall₂ (fun member other => member.1 = other.1 ∧ R member.2 other.2)
      (insert members name value) (insert others name other) := by
  induction h with
  | nil => exact .cons ⟨rfl, h'⟩ .nil
  | @cons first first' _ _ same rest ih =>
      rw [insert, insert, same.1]
      split
      · exact .cons ⟨rfl, h'⟩ rest
      · exact .cons ⟨rfl, same.2⟩ ih

theorem forall₂_insertAllNew
    (h : List.Forall₂ (fun member other => member.1 = other.1 ∧ R member.2 other.2)
      members others)
    (h' : List.Forall₂ (fun member other => member.1 = other.1 ∧ R member.2 other.2)
      added more) :
    List.Forall₂ (fun member other => member.1 = other.1 ∧ R member.2 other.2)
      (insertAllNew members added) (insertAllNew others more) := by
  induction h' generalizing members others with
  | nil => exact h
  | @cons member other _ _ first rest ih =>
      refine ih ?_
      change List.Forall₂ _ (insertNew members member.1 member.2)
        (insertNew others other.1 other.2)
      have same : has members member.1 = has others other.1 := by
        have names := keys_eq_of_forall₂ (h.imp fun _ _ both => both.1)
        rw [Bool.eq_iff_iff, has_iff_mem_keys, has_iff_mem_keys, names, first.1]
      rw [insertNew, insertNew, same]
      split
      · exact h
      · exact List.rel_append h (.cons first .nil)

end

/-! ## The same members in two orders -/

structure Reordered (members others : Members α) : Prop where
  distinct : (keys members).Nodup
  perm : members.Perm others

namespace Reordered

theorem refl (distinct : (keys members).Nodup) : Reordered members members :=
  ⟨distinct, .refl members⟩

theorem distinct_right (h : Reordered members members') : (keys members').Nodup :=
  (h.perm.map Prod.fst).nodup_iff.1 h.distinct

theorem symm (h : Reordered members members') : Reordered members' members :=
  ⟨h.distinct_right, h.perm.symm⟩

theorem trans (h : Reordered members members') (h' : Reordered members' members'') :
    Reordered members members'' :=
  ⟨h.distinct, h.perm.trans h'.perm⟩

theorem get?_eq (h : Reordered members members') (name : String) :
    get? members name = get? members' name := by
  cases found : get? members' name with
  | none =>
      rw [get?_eq_none_iff] at found ⊢
      exact fun mem => found ((h.perm.map Prod.fst).mem_iff.1 mem)
  | some value =>
      exact get?_eq_some_of_mem h.distinct (h.perm.mem_iff.2 (mem_of_get?_eq_some found))

theorem of_get?_eq (distinct : (keys members).Nodup) (distinct' : (keys members').Nodup)
    (same : ∀ name, get? members name = get? members' name) : Reordered members members' := by
  refine ⟨distinct, ?_⟩
  rw [List.perm_ext_iff_of_nodup distinct.of_map distinct'.of_map]
  rintro ⟨name, value⟩
  constructor
  · intro mem
    exact mem_of_get?_eq_some (same name ▸ get?_eq_some_of_mem distinct mem)
  · intro mem
    exact mem_of_get?_eq_some ((same name).symm ▸ get?_eq_some_of_mem distinct' mem)

theorem insertAll (h : Reordered members members') (more : Reordered added added') :
    Reordered (insertAll members added) (Members.insertAll members' added') := by
  refine of_get?_eq (nodup_keys_insertAll _ h.distinct)
    (nodup_keys_insertAll _ h.distinct_right) fun name => ?_
  rw [get?_insertAll members more.distinct, get?_insertAll members' more.distinct_right,
    h.get?_eq, more.get?_eq]

theorem insertAllNew (h : Reordered members members') (more : Reordered added added') :
    Reordered (insertAllNew members added) (Members.insertAllNew members' added') := by
  refine of_get?_eq (nodup_keys_insertAllNew _ h.distinct)
    (nodup_keys_insertAllNew _ h.distinct_right) fun name => ?_
  rw [get?_insertAllNew, get?_insertAllNew, h.get?_eq, more.get?_eq]

/-- It does not matter whether what overrides is put in before or after what only fills up. -/
theorem insertAllNew_insertAll (distinct : (keys members).Nodup)
    (distinct' : (keys added).Nodup) (filling : Members α) :
    Reordered (Members.insertAllNew (Members.insertAll members added) filling)
      (Members.insertAll (Members.insertAllNew members filling) added) := by
  refine of_get?_eq (nodup_keys_insertAllNew _ (nodup_keys_insertAll _ distinct))
    (nodup_keys_insertAll _ (nodup_keys_insertAllNew _ distinct)) fun name => ?_
  rw [get?_insertAllNew, get?_insertAll _ distinct', get?_insertAll _ distinct',
    get?_insertAllNew, Option.or_assoc]

/-- Filling up one list from the other is overriding the other by the one. -/
theorem insertAllNew_of_insertAll (distinct : (keys added).Nodup)
    (h : Reordered members members') :
    Reordered (Members.insertAllNew added members) (Members.insertAll members' added) := by
  refine of_get?_eq (nodup_keys_insertAllNew _ distinct)
    (nodup_keys_insertAll _ h.distinct_right) fun name => ?_
  rw [get?_insertAllNew, get?_insertAll _ distinct, h.get?_eq]

end Reordered

end Members

end SchemaStream
