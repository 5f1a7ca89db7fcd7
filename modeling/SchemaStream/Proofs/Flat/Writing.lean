import SchemaStream.Proofs.Flat.Reading
import SchemaStream.Proofs.Json.Order
import Mathlib.Data.List.Infix

/-!
# Writing along flat keys

Two flat keys conflict when one leads below the other.  Writes along keys that do not
conflict leave each other alone; of two that do, the later undoes the earlier.  So an entry
of a flat map is found in the rebuilt value if no entry behind it conflicts with it, and
otherwise leaves no trace.
-/

namespace SchemaStream

namespace FlatKey

theorem splitChars_ne_nil (chars : List Char) : splitChars chars ≠ [] := by
  cases chars with
  | nil => simp [splitChars]
  | cons c rest =>
      rw [splitChars]
      split
      · simp
      · split <;> simp

theorem intercalate_splitChars (chars : List Char) :
    [separator].intercalate (splitChars chars) = chars := by
  induction chars with
  | nil => rfl
  | cons c rest ih =>
      rw [splitChars]
      cases h : splitChars rest with
      | nil => exact absurd h (splitChars_ne_nil rest)
      | cons segment segments =>
          rw [h] at ih
          split
          · next same =>
              subst same
              simpa [List.intercalate_cons_cons] using ih
          · cases segments with
            | nil => simpa using ih
            | cons next segments => simpa [List.intercalate_cons_cons] using ih

theorem segments_injective : Function.Injective segments := by
  intro first second h
  have chars : splitChars first.toList = splitChars second.toList :=
    List.map_injective_iff.2 (fun _ _ => String.ofList_injective) h
  rw [← String.toList_inj, ← intercalate_splitChars first.toList, chars,
    intercalate_splitChars]

/-- One key leads below the other. -/
def Conflicts (key other : String) : Prop :=
  key ≠ other ∧ (segments key <+: segments other ∨ segments other <+: segments key)

instance (key other : String) : Decidable (Conflicts key other) :=
  inferInstanceAs (Decidable (_ ∧ _))

theorem unrelated_of_not_conflicts {key other : String} (ne : key ≠ other)
    (h : ¬ Conflicts key other) :
    ¬ segments key <+: segments other ∧ ¬ segments other <+: segments key := by
  rw [Conflicts, not_and, not_or] at h
  exact h ne

theorem below_or_above_of_conflicts {key other : String} (h : Conflicts key other) :
    (∃ segment rest, segments other = segments key ++ segment :: rest) ∨
      ∃ segment rest, segments key = segments other ++ segment :: rest := by
  obtain ⟨ne, ⟨rest, h⟩ | ⟨rest, h⟩⟩ := h
  · cases rest with
    | nil => exact absurd (segments_injective (by simpa using h)) ne
    | cons segment rest => exact .inl ⟨segment, rest, h.symm⟩
  · cases rest with
    | nil => exact absurd (segments_injective (by simpa using h)).symm ne
    | cons segment rest => exact .inr ⟨segment, rest, h.symm⟩

end FlatKey

namespace FlatTree

@[simp] theorem children_branch (children : List (String × FlatTree)) :
    (branch children).children = children := rfl

theorem write_cons (tree : FlatTree) (segment : String) (rest : List String) (value : Json) :
    tree.write (segment :: rest) value =
      .branch (Members.insert tree.children segment
        (((Members.get? tree.children segment).getD (.branch [])).write rest value)) := rfl

theorem at?_cons (tree : FlatTree) (segment : String) (rest : List String) :
    tree.at? (segment :: rest) =
      (Members.get? tree.children segment).bind fun child => child.at? rest := rfl

theorem at?_write_self (tree : FlatTree) (path : List String) (value : Json) :
    (tree.write path value).at? path = some (.leaf value) := by
  induction path generalizing tree with
  | nil => rfl
  | cons segment rest ih => simp [write_cons, at?_cons, Members.get?_insert, ih]

theorem at?_write_of_unrelated {path other : List String} (tree : FlatTree) (value : Json)
    (above : ¬ path <+: other) (below : ¬ other <+: path) :
    (tree.write other value).at? path = tree.at? path := by
  induction path generalizing tree other with
  | nil => simp at above
  | cons segment rest ih =>
      cases other with
      | nil => simp at below
      | cons first others =>
          by_cases h : first = segment
          · subst h
            rw [List.cons_prefix_cons, not_and] at above below
            have step (child : FlatTree) := ih child (above rfl) (below rfl)
            cases held : Members.get? tree.children first with
            | some child => simp [write_cons, at?_cons, Members.get?_insert, held, step]
            | none =>
                have empty : (branch []).at? rest = none := by
                  cases rest with
                  | nil => simp at above
                  | cons => rfl
                simp [write_cons, at?_cons, Members.get?_insert, held, step, empty]
          · simp [write_cons, at?_cons, Members.get?_insert, h]

/-- A write below a leaf forgets the leaf. -/
theorem write_write_below {tree : FlatTree} {path : List String} {old : Json} (value : Json)
    (segment : String) (rest : List String) (below : Json)
    (leaf : tree.at? path = some (.leaf old)) :
    (tree.write path value).write (path ++ segment :: rest) below =
      tree.write (path ++ segment :: rest) below := by
  induction path generalizing tree with
  | nil =>
      cases leaf
      rfl
  | cons first path ih =>
      rw [at?_cons, Option.bind_eq_some_iff] at leaf
      obtain ⟨child, held, leaf⟩ := leaf
      have step := ih leaf
      simp [write_cons, held, Members.get?_insert, Members.insert_insert, step]

/-- A write above a leaf forgets the leaf. -/
theorem write_write_above (tree : FlatTree) (path rest : List String) (value above : Json) :
    (tree.write (path ++ rest) value).write path above = tree.write path above := by
  induction path generalizing tree with
  | nil => cases rest <;> rfl
  | cons first path ih =>
      simp [write_cons, Members.get?_insert, Members.insert_insert, ih]

/-- What is found along a path can be changed before or after an unrelated write. -/
theorem write_comm_of_unrelated {tree found : FlatTree} {path other : List String}
    (value written : Json) (here : tree.at? path = some found) (above : ¬ path <+: other)
    (below : ¬ other <+: path) :
    (tree.write path value).write other written = (tree.write other written).write path value := by
  induction path generalizing tree other with
  | nil => simp at above
  | cons segment rest ih =>
      cases other with
      | nil => simp at below
      | cons first others =>
          rw [at?_cons, Option.bind_eq_some_iff] at here
          obtain ⟨child, held, here⟩ := here
          by_cases h : first = segment
          · subst h
            rw [List.cons_prefix_cons, not_and] at above below
            have step := ih here (above rfl) (below rfl)
            simp [write_cons, held, Members.get?_insert, Members.insert_insert, step]
          · have mem := Members.mem_keys_iff_exists_get?.2 ⟨_, held⟩
            simp [write_cons, held, Members.get?_insert, h, Ne.symm h,
              Members.insert_comm_of_mem _ _ mem (Ne.symm h)]

def writeAll (tree : FlatTree) (entries : FlatMap) : FlatTree :=
  entries.foldl (fun tree entry => tree.write (FlatKey.segments entry.1) entry.2) tree

theorem ofFlat_append_cons (front back : FlatMap) (key : String) (value : Json) :
    ofFlat (front ++ (key, value) :: back) =
      ((ofFlat front).write (FlatKey.segments key) value).writeAll back := by
  rw [ofFlat, List.foldl_append, List.foldl_cons]
  rfl

/-- A leaf stays through writes that do not conflict with it. -/
theorem at?_writeAll_of_no_conflict {tree : FlatTree} {key : String} {value : Json}
    {entries : FlatMap} (leaf : tree.at? (FlatKey.segments key) = some (.leaf value))
    (absent : key ∉ Members.keys entries)
    (none : ∀ other ∈ Members.keys entries, ¬ FlatKey.Conflicts key other) :
    (tree.writeAll entries).at? (FlatKey.segments key) = some (.leaf value) := by
  induction entries generalizing tree with
  | nil => exact leaf
  | cons entry rest ih =>
      obtain ⟨other, written⟩ := entry
      simp only [Members.keys, List.map_cons, List.mem_cons, not_or] at absent none
      obtain ⟨above, below⟩ :=
        FlatKey.unrelated_of_not_conflicts absent.1 (none other (.inl rfl))
      apply ih _ absent.2 fun name mem => none name (.inr mem)
      rw [at?_write_of_unrelated tree written above below, leaf]

/-- After a write that conflicts with a leaf, nothing tells what the leaf held. -/
theorem writeAll_write_of_conflict {tree : FlatTree} {key other : String} {old : Json}
    {entries : FlatMap} (value : Json)
    (leaf : tree.at? (FlatKey.segments key) = some (.leaf old))
    (absent : key ∉ Members.keys entries) (mem : other ∈ Members.keys entries)
    (conflict : FlatKey.Conflicts key other) :
    (tree.write (FlatKey.segments key) value).writeAll entries = tree.writeAll entries := by
  induction entries generalizing tree with
  | nil => simp [Members.keys] at mem
  | cons entry rest ih =>
      obtain ⟨first, written⟩ := entry
      simp only [Members.keys, List.map_cons, List.mem_cons, not_or] at absent mem
      change ((tree.write (FlatKey.segments key) value).write (FlatKey.segments first)
          written).writeAll rest = (tree.write (FlatKey.segments first) written).writeAll rest
      by_cases h : FlatKey.Conflicts key first
      · -- From here on both sides are one tree.
        congr 1
        obtain ⟨segment, more, h⟩ | ⟨segment, more, h⟩ := FlatKey.below_or_above_of_conflicts h
        · rw [h, write_write_below value segment more written leaf]
        · rw [h, write_write_above]
      · obtain ⟨above, below⟩ := FlatKey.unrelated_of_not_conflicts absent.1 h
        have later : other ∈ Members.keys rest := by
          rcases mem with rfl | mem
          · exact absurd conflict h
          · exact mem
        rw [write_comm_of_unrelated value written leaf above below]
        apply ih _ absent.2 later
        rw [at?_write_of_unrelated tree written above below, leaf]

end FlatTree

namespace Json

theorem unflatten_eq_value {flat : FlatMap} {key : String} (mem : key ∈ Members.keys flat)
    (nonempty : key ≠ "") : unflatten flat = (FlatTree.ofFlat flat).value := by
  rw [unflatten]
  rintro value rfl
  exact nonempty (by simpa [Members.keys] using mem)

/-- A value with no conflicting entry behind it is read where it was put. -/
theorem read?_unflatten {flat : FlatMap} {key : String} {value : Json}
    (distinct : (Members.keys flat).Nodup) (nonempty : key ≠ "")
    (held : Members.get? flat key = some value)
    (none : ∀ other ∈ Members.behind (Members.keys flat) key, ¬ FlatKey.Conflicts key other) :
    (unflatten flat).read? (FlatKey.segments key) = some value := by
  obtain ⟨front, back, rfl, names⟩ := Members.exists_eq_append_behind held
  have absent : key ∉ Members.keys back := by
    simp only [Members.keys, List.map_append, List.map_cons, List.nodup_append,
      List.nodup_cons] at distinct
    exact distinct.2.1.1
  rw [unflatten_eq_value (by simp [Members.keys]) nonempty, FlatTree.ofFlat_append_cons]
  have found := FlatTree.at?_writeAll_of_no_conflict
    (FlatTree.at?_write_self (FlatTree.ofFlat front) (FlatKey.segments key) value) absent
    (by rwa [names])
  rw [FlatTree.read?_value found, FlatTree.value]

/-- A value with a conflicting entry behind it leaves no trace. -/
theorem unflatten_insert_of_conflict {flat : FlatMap} {key other : String} (value : Json)
    (distinct : (Members.keys flat).Nodup) (nonempty : key ≠ "")
    (mem : key ∈ Members.keys flat)
    (behind : other ∈ Members.behind (Members.keys flat) key)
    (conflict : FlatKey.Conflicts key other) :
    unflatten (Members.insert flat key value) = unflatten flat := by
  obtain ⟨old, held⟩ := Members.mem_keys_iff_exists_get?.1 mem
  obtain ⟨front, back, rfl, names⟩ := Members.exists_eq_append_behind held
  have absent : key ∉ Members.keys front ∧ key ∉ Members.keys back := by
    simp only [Members.keys, List.map_append, List.map_cons, List.nodup_append,
      List.nodup_cons] at distinct
    exact ⟨fun h => distinct.2.2 key h key (List.mem_cons_self ..) rfl, distinct.2.1.1⟩
  rw [unflatten_eq_value (Members.mem_keys_insert.2 (.inl rfl)) nonempty,
    unflatten_eq_value mem nonempty, Members.insert_append_cons_self value absent.1,
    FlatTree.ofFlat_append_cons, FlatTree.ofFlat_append_cons]
  rw [← names] at behind
  have changed := FlatTree.writeAll_write_of_conflict value
    (FlatTree.at?_write_self (FlatTree.ofFlat front) (FlatKey.segments key) old) absent.2 behind
    conflict
  have twice (tree : FlatTree) (path : List String) :
      (tree.write path old).write path value = tree.write path value := by
    simpa using FlatTree.write_write_above tree path [] old value
  rw [twice] at changed
  rw [changed]

end Json

end SchemaStream
