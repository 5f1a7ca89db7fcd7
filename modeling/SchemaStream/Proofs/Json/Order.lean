import SchemaStream.Json.Members
import Mathlib.Data.List.Basic

/-!
# The order of members

Where a name stands after others were put in: names that were there keep their places, new
ones follow in the order in which they came.
-/

namespace SchemaStream

namespace Members

variable {α : Type}

/-- The names that stand behind a name. -/
def behind (names : List String) (name : String) : List String :=
  match names with
  | [] => []
  | first :: rest => if first = name then rest else behind rest name

theorem insert_insert (members : Members α) (name : String) (first second : α) :
    insert (insert members name first) name second = insert members name second := by
  induction members with
  | nil => simp [insert]
  | cons member rest ih =>
      obtain ⟨key, old⟩ := member
      by_cases h : key = name
      · simp [insert, h]
      · simp [insert, h, ih]

theorem insert_append_cons_self {front back : Members α} {name : String} {old : α} (value : α)
    (absent : name ∉ keys front) :
    insert (front ++ (name, old) :: back) name value = front ++ (name, value) :: back := by
  induction front with
  | nil => simp [insert]
  | cons member rest ih =>
      simp only [keys, List.map_cons, List.mem_cons, not_or] at absent
      simp [insert, Ne.symm absent.1, ih absent.2]

theorem erase_of_not_mem {members : Members α} {name : String} (absent : name ∉ keys members) :
    erase members name = members := by
  refine List.filter_eq_self.2 fun member mem => ?_
  simp only [ne_eq, decide_not, Bool.not_eq_true', decide_eq_false_iff_not]
  rintro rfl
  exact absent (List.mem_map.2 ⟨member, mem, rfl⟩)

theorem erase_insert (members : Members α) (name : String) (value : α) :
    erase (insert members name value) name = erase members name := by
  induction members with
  | nil => simp [insert, erase]
  | cons member rest ih =>
      obtain ⟨key, old⟩ := member
      rw [insert]
      split
      · next same => simp [erase, same]
      · simp only [erase, List.filter_cons] at ih ⊢
        rw [ih]

theorem erase_append_singleton {members : Members α} {name : String} {value : α}
    (absent : name ∉ keys members) : erase (members ++ [(name, value)]) name = members := by
  rw [erase, List.filter_append, ← erase, erase_of_not_mem absent]
  simp

/-- Putting in what is there already changes nothing. -/
theorem insert_eq_self {members : Members α} {name : String} {value : α}
    (found : get? members name = some value) : insert members name value = members := by
  induction members with
  | nil => cases found
  | cons member rest ih =>
      obtain ⟨key, old⟩ := member
      rw [get?] at found
      rw [insert]
      split at found
      · next same =>
          cases found
          rw [if_pos same]
      · next other => rw [if_neg other, ih found]

theorem mem_keys_insert {members : Members α} {name other : String} {value : α} :
    other ∈ keys (insert members name value) ↔ other = name ∨ other ∈ keys members := by
  rw [← has_iff_mem_keys, ← has_iff_mem_keys, has, get?_insert, has]
  by_cases h : name = other
  · simp [h]
  · simp [h, Ne.symm h]

/-- A name that is there keeps its place, whatever else is put in first. -/
theorem insert_comm_of_mem {members : Members α} {name other : String} (first second : α)
    (mem : name ∈ keys members) (ne : name ≠ other) :
    insert (insert members name first) other second =
      insert (insert members other second) name first := by
  induction members with
  | nil => simp [keys] at mem
  | cons member rest ih =>
      obtain ⟨key, old⟩ := member
      by_cases h : key = name
      · subst h
        simp [insert, ne]
      · have mem : name ∈ keys rest := by
          simpa [keys, Ne.symm h] using mem
        by_cases ho : key = other
        · subst ho
          simp [insert, h]
        · simp [insert, h, ho, ih mem]

theorem insert_insertAll {members added : Members α} {name : String} (value : α)
    (mem : name ∈ keys members) (absent : name ∉ keys added) :
    insert (insertAll members added) name value = insertAll (insert members name value) added := by
  induction added generalizing members with
  | nil => rfl
  | cons member rest ih =>
      obtain ⟨key, new⟩ := member
      simp only [keys, List.map_cons, List.mem_cons, not_or] at absent
      have inside : name ∈ keys (insert members key new) := mem_keys_insert.2 (.inr mem)
      change insert (insertAll (insert members key new) rest) name value =
        insertAll (insert (insert members name value) key new) rest
      rw [ih inside absent.2, insert_comm_of_mem value new mem absent.1]

/-- Changing a value before putting all in is changing it afterwards. -/
theorem insertAll_insert {members added : Members α} {name : String} (value : α)
    (distinct : (keys added).Nodup) (mem : name ∈ keys added) :
    insertAll members (insert added name value) = insert (insertAll members added) name value := by
  induction added generalizing members with
  | nil => simp [keys] at mem
  | cons member rest ih =>
      obtain ⟨key, old⟩ := member
      simp only [keys, List.map_cons, List.nodup_cons] at distinct
      by_cases h : key = name
      · subst h
        have there : key ∈ keys (insert members key old) := mem_keys_insert.2 (.inl rfl)
        have step : insert (insertAll (insert members key old) rest) key value =
            insertAll (insert members key value) rest := by
          rw [insert_insertAll value there distinct.1, insert_insert]
        simpa [insert, insertAll] using step.symm
      · have mem : name ∈ keys rest := by
          simpa [keys, Ne.symm h] using mem
        have step : insertAll (insert members key old) (insert rest name value) =
            insert (insertAll (insert members key old) rest) name value := ih distinct.2 mem
        simpa [insert, insertAll, h] using step

theorem keys_insertAll (members : Members α) {added : Members α}
    (distinct : (keys added).Nodup) :
    keys (insertAll members added) =
      keys members ++ (keys added).filter (· ∉ keys members) := by
  induction added generalizing members with
  | nil => simp [insertAll, keys]
  | cons member rest ih =>
      obtain ⟨key, value⟩ := member
      simp only [keys, List.map_cons, List.nodup_cons] at distinct
      have tail := ih (insert members key value) distinct.2
      change keys (insertAll (insert members key value) rest) = _
      by_cases h : key ∈ keys members
      · rw [tail, keys_insert_of_mem value h]
        simp only [keys, List.map_cons] at h ⊢
        simp [h]
      · have names : keys (insert members key value) = keys members ++ [key] := by
          simp [insert_of_not_mem value h, keys]
        have same : (keys rest).filter (· ∉ keys members ++ [key]) =
            (keys rest).filter (· ∉ keys members) := by
          apply List.filter_congr
          intro name mem
          have ne : name ≠ key := fun same => distinct.1 (same ▸ mem)
          simp [ne]
        rw [tail, names, same]
        simp only [keys, List.map_cons] at h ⊢
        simp [h]

theorem get?_insertAll (members : Members α) {added : Members α}
    (distinct : (keys added).Nodup) (name : String) :
    get? (insertAll members added) name = (get? added name).or (get? members name) := by
  induction added generalizing members with
  | nil => rfl
  | cons member rest ih =>
      obtain ⟨key, value⟩ := member
      simp only [keys, List.map_cons, List.nodup_cons] at distinct
      change get? (insertAll (insert members key value) rest) name = _
      rw [ih (insert members key value) distinct.2, get?_insert, get?]
      by_cases h : key = name
      · subst h
        have absent : get? rest key = none := get?_eq_none_iff.2 distinct.1
        simp [absent]
      · simp [h]

/-- Of entries with one name, the first has its place. -/
theorem keys_insertAll_of_repeated (members added : Members α) :
    keys (insertAll members added) =
      keys members ++ ((keys added).filter (· ∉ keys members)).eraseDups := by
  induction added generalizing members with
  | nil => simp [insertAll, keys]
  | cons member rest ih =>
      obtain ⟨key, value⟩ := member
      have names : keys ((key, value) :: rest) = key :: keys rest := rfl
      change keys (insertAll (insert members key value) rest) = _
      rw [ih, names]
      by_cases there : key ∈ keys members
      · rw [keys_insert_of_mem value there, List.filter_cons_of_neg (by simpa using there)]
      · have more : keys (insert members key value) = keys members ++ [key] := by
          simp [insert_of_not_mem value there, keys]
        rw [more, List.filter_cons_of_pos (by simpa using there), List.eraseDups_cons,
          List.filter_filter, List.append_assoc, List.singleton_append]
        congr 3
        refine List.filter_congr fun name _ => ?_
        by_cases same : name = key <;> simp [same]

/-- Of entries with one name, the last has its value. -/
theorem get?_insertAll_of_repeated (members added : Members α) (name : String) :
    get? (insertAll members added) name = (get? added.reverse name).or (get? members name) := by
  induction added generalizing members with
  | nil => rfl
  | cons member rest ih =>
      obtain ⟨key, value⟩ := member
      change get? (insertAll (insert members key value) rest) name = _
      rw [ih, get?_insert, List.reverse_cons, get?_append, Option.or_assoc, get?, get?]
      split <;> rfl

theorem keys_ofList (named : List (String × α)) :
    keys (ofList named) = (keys named).eraseDups := by
  rw [ofList, keys_insertAll_of_repeated, List.filter_eq_self.2 (by simp [keys])]
  rfl

theorem get?_ofList (named : List (String × α)) (name : String) :
    get? (ofList named) name = get? named.reverse name := by
  rw [ofList, get?_insertAll_of_repeated, get?, Option.or_none]

theorem mem_insert {members : Members α} {name : String} {value : α} {member : String × α}
    (mem : member ∈ insert members name value) : member ∈ members ∨ member = (name, value) := by
  induction members with
  | nil => simpa [insert] using mem
  | cons first rest ih =>
      obtain ⟨key, old⟩ := first
      rw [insert] at mem
      split at mem
      · next same =>
          subst same
          rcases List.mem_cons.1 mem with rfl | mem
          · exact .inr rfl
          · exact .inl (List.mem_cons_of_mem _ mem)
      · rcases List.mem_cons.1 mem with rfl | mem
        · exact .inl List.mem_cons_self
        · exact (ih mem).imp_left (List.mem_cons_of_mem _)

theorem mem_insertAll {members added : Members α} {member : String × α}
    (mem : member ∈ insertAll members added) : member ∈ members ∨ member ∈ added := by
  induction added generalizing members with
  | nil => exact .inl mem
  | cons first rest ih =>
      rcases ih mem with mem | mem
      · rcases mem_insert mem with mem | rfl
        · exact .inl mem
        · exact .inr List.mem_cons_self
      · exact .inr (List.mem_cons_of_mem _ mem)

theorem mem_keys_insertAll {members added : Members α} {name : String} :
    name ∈ keys (insertAll members added) ↔ name ∈ keys members ∨ name ∈ keys added := by
  induction added generalizing members with
  | nil => simp [insertAll, keys]
  | cons first rest ih =>
      have all : name ∈ keys (first :: rest) ↔ name = first.1 ∨ name ∈ keys rest := List.mem_cons
      refine ih.trans ?_
      rw [mem_keys_insert, all, or_left_comm, or_assoc]

/-! ## What stands behind a name -/

theorem behind_subset (names : List String) (name : String) : behind names name ⊆ names := by
  induction names with
  | nil => exact List.Subset.refl _
  | cons first rest ih =>
      rw [behind]
      split
      · exact List.subset_cons_self first rest
      · exact List.subset_cons_of_subset first ih

theorem behind_append_of_mem {names : List String} {name : String} (more : List String)
    (mem : name ∈ names) : behind (names ++ more) name = behind names name ++ more := by
  induction names with
  | nil => simp at mem
  | cons first rest ih =>
      by_cases h : first = name
      · simp [behind, h]
      · have mem : name ∈ rest := by simpa [Ne.symm h] using mem
        simp [behind, h, ih mem]

theorem behind_append_of_not_mem {names : List String} {name : String} (more : List String)
    (absent : name ∉ names) : behind (names ++ more) name = behind more name := by
  induction names with
  | nil => rfl
  | cons first rest ih =>
      rw [List.mem_cons, not_or] at absent
      simp [behind, Ne.symm absent.1, ih absent.2]

theorem behind_filter {names : List String} {name : String} {keep : String → Bool}
    (kept : keep name = true) :
    behind (names.filter keep) name = (behind names name).filter keep := by
  induction names with
  | nil => rfl
  | cons first rest ih =>
      by_cases h : first = name
      · subst h
        simp [behind, kept]
      · by_cases hk : keep first = true <;> simp [behind, h, hk, ih]

/-- Members are cut in two where a name stands. -/
theorem exists_eq_append_behind {members : Members α} {name : String} {value : α}
    (h : get? members name = some value) :
    ∃ front back, members = front ++ (name, value) :: back ∧
      keys back = behind (keys members) name := by
  induction members with
  | nil => simp [get?] at h
  | cons member rest ih =>
      obtain ⟨key, old⟩ := member
      rw [get?] at h
      split at h
      · next same =>
          cases h
          exact ⟨[], rest, by simp [same], by simp [keys, behind, same]⟩
      · next ne =>
          obtain ⟨front, back, rfl, names⟩ := ih h
          exact ⟨(key, old) :: front, back, rfl, by simpa [keys, behind, ne] using names⟩

end Members

end SchemaStream
