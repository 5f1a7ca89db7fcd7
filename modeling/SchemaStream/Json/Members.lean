/-!
# Members in insertion order

A list of named values in the order in which the names were first put in.  Putting a
name in again replaces its value where it stands; taking it out closes the gap.  A list
made by these operations names nothing twice.
-/

namespace SchemaStream

abbrev Members (α : Type) := List (String × α)

namespace Members

variable {α β : Type}

def keys (members : Members α) : List String := members.map Prod.fst

def get? (members : Members α) (name : String) : Option α :=
  match members with
  | [] => none
  | (key, value) :: rest => if key = name then some value else get? rest name

def has (members : Members α) (name : String) : Bool := (get? members name).isSome

def insert (members : Members α) (name : String) (value : α) : Members α :=
  match members with
  | [] => [(name, value)]
  | (key, old) :: rest =>
      if key = name then (key, value) :: rest else (key, old) :: insert rest name value

/-- Keeps the value of a name that is already there. -/
def insertNew (members : Members α) (name : String) (value : α) : Members α :=
  if has members name then members else members ++ [(name, value)]

def erase (members : Members α) (name : String) : Members α :=
  members.filter fun member => member.1 ≠ name

def insertAll (members added : Members α) : Members α :=
  added.foldl (fun all member => insert all member.1 member.2) members

def insertAllNew (members added : Members α) : Members α :=
  added.foldl (fun all member => insertNew all member.1 member.2) members

/-- The members named by a list in which names may repeat: a repeated name keeps its first
position and its last value. -/
def ofList (named : List (String × α)) : Members α := insertAll [] named

def mapValues (f : α → β) (members : Members α) : Members β :=
  members.map fun member => (member.1, f member.2)

/-! ## Names -/

theorem get?_eq_none_iff {members : Members α} {name : String} :
    get? members name = none ↔ name ∉ keys members := by
  induction members with
  | nil => simp [get?, keys]
  | cons member rest ih =>
      obtain ⟨key, value⟩ := member
      rw [get?]
      split
      · next h => simp [keys, h]
      · next h =>
          rw [ih, keys, keys, List.map_cons, List.mem_cons, not_or]
          exact ⟨fun hr => ⟨Ne.symm h, hr⟩, fun hr => hr.2⟩

theorem has_iff_mem_keys {members : Members α} {name : String} :
    has members name = true ↔ name ∈ keys members := by
  rw [has, Option.isSome_iff_ne_none, ne_eq, get?_eq_none_iff, Decidable.not_not]

theorem mem_keys_iff_exists_get? {members : Members α} {name : String} :
    name ∈ keys members ↔ ∃ value, get? members name = some value := by
  rw [← has_iff_mem_keys, has, Option.isSome_iff_exists]

theorem mem_of_get?_eq_some {members : Members α} {name : String} {value : α}
    (h : get? members name = some value) : (name, value) ∈ members := by
  induction members with
  | nil => simp [get?] at h
  | cons member rest ih =>
      obtain ⟨key, old⟩ := member
      rw [get?] at h
      split at h
      · next hk =>
          cases h
          simp [hk]
      · exact List.mem_cons_of_mem _ (ih h)

theorem get?_eq_some_of_mem {members : Members α} {name : String} {value : α}
    (distinct : (keys members).Nodup) (h : (name, value) ∈ members) :
    get? members name = some value := by
  induction members with
  | nil => simp at h
  | cons member rest ih =>
      obtain ⟨key, old⟩ := member
      rw [keys, List.map_cons, List.nodup_cons] at distinct
      rw [get?]
      rcases List.mem_cons.1 h with h | h
      · cases h
        simp
      · have hr : name ∈ rest.map Prod.fst := List.mem_map.2 ⟨(name, value), h, rfl⟩
        have hk : key ≠ name := by
          rintro rfl
          exact distinct.1 hr
        rw [if_neg hk]
        exact ih distinct.2 h

/-! ## Putting in -/

theorem get?_insert (members : Members α) (name other : String) (value : α) :
    get? (insert members name value) other =
      if name = other then some value else get? members other := by
  induction members with
  | nil => simp [insert, get?]
  | cons member rest ih =>
      obtain ⟨key, old⟩ := member
      rw [insert]
      split
      · next h =>
          subst h
          by_cases ho : key = other <;> simp [get?, ho]
      · next h =>
          rw [get?, ih, get?]
          by_cases ho : key = other
          · subst ho
            simp [Ne.symm h]
          · simp [ho]

theorem keys_insert_of_mem {members : Members α} {name : String} (value : α)
    (h : name ∈ keys members) : keys (insert members name value) = keys members := by
  induction members with
  | nil => simp [keys] at h
  | cons member rest ih =>
      obtain ⟨key, old⟩ := member
      rw [insert]
      split
      · rfl
      · next hk =>
          have hr : name ∈ keys rest := by
            rcases List.mem_cons.1 h with h | h
            · exact absurd h.symm hk
            · exact h
          simpa [keys] using ih hr

theorem insert_of_not_mem {members : Members α} {name : String} (value : α)
    (h : name ∉ keys members) : insert members name value = members ++ [(name, value)] := by
  induction members with
  | nil => rfl
  | cons member rest ih =>
      obtain ⟨key, old⟩ := member
      rw [keys, List.map_cons, List.mem_cons, not_or] at h
      rw [insert, if_neg (Ne.symm h.1), ih h.2, List.cons_append]

theorem nodup_keys_insert {members : Members α} (name : String) (value : α)
    (distinct : (keys members).Nodup) : (keys (insert members name value)).Nodup := by
  by_cases h : name ∈ keys members
  · rw [keys_insert_of_mem value h]
    exact distinct
  · rw [insert_of_not_mem value h]
    simp only [keys, List.map_append, List.map_cons, List.map_nil]
    exact List.nodup_append.2 ⟨distinct, by simp, by
      intro a ha b hb
      rw [List.mem_singleton] at hb
      rintro rfl
      exact h (hb ▸ ha)⟩

theorem nodup_keys_insertAll {members : Members α} (added : Members α)
    (distinct : (keys members).Nodup) : (keys (insertAll members added)).Nodup := by
  induction added generalizing members with
  | nil => exact distinct
  | cons member rest ih => exact ih (nodup_keys_insert member.1 member.2 distinct)

theorem nodup_keys_ofList (named : List (String × α)) : (keys (ofList named)).Nodup :=
  nodup_keys_insertAll named List.nodup_nil

theorem get?_append (members others : Members α) (name : String) :
    get? (members ++ others) name = (get? members name).or (get? others name) := by
  induction members with
  | nil => rfl
  | cons member rest ih =>
      obtain ⟨key, value⟩ := member
      rw [List.cons_append, get?, get?, ih]
      split <;> rfl

theorem insertAll_append (members first second : Members α) :
    insertAll members (first ++ second) = insertAll (insertAll members first) second :=
  List.foldl_append

/-- Distinct names put into an empty list stand as they came. -/
theorem ofList_eq_self {members : Members α} (distinct : (keys members).Nodup) :
    ofList members = members := by
  suffices ∀ before : Members α, (keys (before ++ members)).Nodup →
      insertAll before members = before ++ members from this [] distinct
  intro before
  induction members generalizing before with
  | nil => intro; simp [insertAll]
  | cons member rest ih =>
      intro h
      have hm : member.1 ∉ keys before := by
        rw [keys, List.map_append, List.nodup_append] at h
        intro hk
        exact h.2.2 _ hk _ (List.mem_cons_self ..) rfl
      have hr : insertAll before (member :: rest) = insertAll (before ++ [member]) rest := by
        rw [insertAll, List.foldl_cons, insert_of_not_mem _ hm]
        rfl
      rw [hr, ih (List.nodup_cons.1 distinct).2 (before ++ [member]) (by simpa using h)]
      simp

/-! ## Taking out -/

theorem get?_erase (members : Members α) (name other : String) :
    get? (erase members name) other = if name = other then none else get? members other := by
  induction members with
  | nil => simp [erase, get?]
  | cons member rest ih =>
      obtain ⟨key, value⟩ := member
      rw [erase, List.filter_cons]
      by_cases hk : key = name
      · subst hk
        rw [if_neg (by simp)]
        rw [erase] at ih
        rw [ih, get?]
        split <;> simp_all
      · rw [if_pos (by simpa using hk), get?]
        rw [erase] at ih
        rw [ih, get?]
        by_cases ho : key = other
        · subst ho
          simp [Ne.symm hk]
        · simp [ho]

theorem keys_erase (members : Members α) (name : String) :
    keys (erase members name) = (keys members).filter (· ≠ name) := by
  rw [keys, erase, keys, List.filter_map]
  rfl

theorem nodup_keys_erase {members : Members α} (name : String)
    (distinct : (keys members).Nodup) : (keys (erase members name)).Nodup := by
  rw [keys_erase]
  exact distinct.filter _

theorem isEmpty_eq_of_keys_eq {members : Members α} {others : Members β}
    (same : keys members = keys others) : members.isEmpty = others.isEmpty := by
  have empty := congrArg List.isEmpty same
  rwa [keys, keys, List.isEmpty_map, List.isEmpty_map] at empty

/-! ## Changing values -/

theorem keys_mapValues (f : α → β) (members : Members α) :
    keys (mapValues f members) = keys members := by
  simp [keys, mapValues]

theorem get?_mapValues (f : α → β) (members : Members α) (name : String) :
    get? (mapValues f members) name = (get? members name).map f := by
  induction members with
  | nil => rfl
  | cons member rest ih =>
      obtain ⟨key, value⟩ := member
      rw [mapValues] at ih
      rw [mapValues, List.map_cons, get?, get?, ih]
      split <;> rfl

end Members

end SchemaStream
