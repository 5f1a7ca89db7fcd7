import SchemaStream.Proofs.Json.Reordering
import SchemaStream.Proofs.Schema.Grounding

/-!
# The rounds that settle definitions

No round unsettles a definition, and each that changes anything settles one more.  So after
as many rounds as there are definitions nothing changes any more: settled are exactly the
definitions that only lead to settled ones, and each of the others leads to another such.
-/

namespace SchemaStream

namespace Definitions

variable {definitions others : Members Schema} {name : String} {body : Schema}

theorem settles_mono {before after : List String} (more : before ⊆ after)
    (settles : Definitions.settles definitions before body = true) :
    Definitions.settles definitions after body = true := by
  simp only [Definitions.settles, List.all_eq_true, Bool.or_eq_true, List.contains_iff_mem] at *
  exact fun name refers => (settles name refers).imp_right fun mem => more mem

theorem settledAfter_sublist_succ (definitions : Members Schema) (rounds : Nat) :
    (settledAfter definitions rounds).Sublist (settledAfter definitions (rounds + 1)) := by
  induction rounds with
  | zero => exact List.nil_sublist _
  | succ rounds ih =>
      refine List.Sublist.map Prod.fst (List.monotone_filter_right definitions fun entry => ?_)
      exact settles_mono ih.subset

theorem settledAfter_sublist_keys (definitions : Members Schema) (rounds : Nat) :
    (settledAfter definitions rounds).Sublist (Members.keys definitions) := by
  cases rounds with
  | zero => exact List.nil_sublist _
  | succ rounds => exact List.filter_sublist.map Prod.fst

/-- As long as the rounds bring in anything, there are no more rounds than definitions settled. -/
theorem le_length_settledAfter (definitions : Members Schema) (rounds : Nat) :
    rounds ≤ (settledAfter definitions rounds).length ∨
      settledAfter definitions (rounds + 1) = settledAfter definitions rounds := by
  induction rounds with
  | zero => exact .inl (Nat.zero_le _)
  | succ rounds ih =>
      have grows := settledAfter_sublist_succ definitions rounds
      by_cases same : settledAfter definitions (rounds + 1) = settledAfter definitions rounds
      · have next : settledAfter definitions (rounds + 1 + 1) = Members.keys (definitions.filter
            fun entry => settles definitions (settledAfter definitions (rounds + 1)) entry.2) := rfl
        rw [same] at next
        exact .inr next
      · have enough := ih.resolve_right same
        have more : (settledAfter definitions rounds).length ≠
            (settledAfter definitions (rounds + 1)).length := fun count =>
          same (grows.eq_of_length count).symm
        have bound := grows.length_le
        exact .inl (by omega)

/-- One more round changes nothing. -/
theorem settledAfter_length_succ (definitions : Members Schema) :
    settledAfter definitions (definitions.length + 1) = settled definitions := by
  rcases le_length_settledAfter definitions definitions.length with full | same
  · have grows := settledAfter_sublist_succ definitions definitions.length
    have bound := (settledAfter_sublist_keys definitions (definitions.length + 1)).length_le
    rw [Members.keys, List.length_map] at bound
    exact (grows.eq_of_length_le (by omega)).symm
  · exact same

theorem mem_settled_iff_forall (distinct : (Members.keys definitions).Nodup)
    (found : Members.get? definitions name = some body) :
    name ∈ settled definitions ↔
      ∀ other ∈ body.referencedNames, other ∈ Members.keys definitions →
        other ∈ settled definitions := by
  rw [← settledAfter_length_succ, mem_settledAfter_succ_iff distinct found,
    settledAfter_length_succ]
  rfl

/-! ## Cycles -/

theorem cyclic_subset_keys : cyclic definitions ⊆ Members.keys definitions := by
  intro name mem
  exact (List.mem_filter.1 mem).1

theorem mem_cyclic_iff :
    name ∈ cyclic definitions ↔ name ∈ Members.keys definitions ∧ name ∉ settled definitions := by
  simp [cyclic]

/-- A definition is on a cycle, or leads into one, if it refers to such a definition. -/
theorem mem_cyclic_iff_exists (distinct : (Members.keys definitions).Nodup)
    (found : Members.get? definitions name = some body) :
    name ∈ cyclic definitions ↔ ∃ other ∈ body.referencedNames, other ∈ cyclic definitions := by
  have defined : name ∈ Members.keys definitions :=
    Members.mem_keys_iff_exists_get?.2 ⟨body, found⟩
  simp only [mem_cyclic_iff, defined, true_and, mem_settled_iff_forall distinct found]
  push Not
  rfl

/-- Tables whose definitions have the same names and refer to the same names have the same
cycles. -/
theorem cyclic_eq_of_referencedNames
    (same : List.Forall₂ (fun definition other => definition.1 = other.1 ∧
      definition.2.referencedNames = other.2.referencedNames) definitions others) :
    cyclic definitions = cyclic others := by
  have names := Members.keys_eq_of_forall₂ (same.imp fun _ _ both => both.1)
  have has (name : String) : Members.has definitions name = Members.has others name := by
    rw [Bool.eq_iff_iff, Members.has_iff_mem_keys, Members.has_iff_mem_keys, names]
  have after (rounds : Nat) : settledAfter definitions rounds = settledAfter others rounds := by
    induction rounds with
    | zero => rfl
    | succ rounds ih =>
        rw [settledAfter, settledAfter, ih]
        refine Members.keys_filter_eq_of_forall₂ (same.imp fun definition other both =>
          ⟨both.1, ?_⟩)
        rw [settles, settles, both.2]
        simp only [has]
  rw [cyclic, cyclic, settled, settled, after, same.length_eq, names]

/-- The cycles stay what they are where their definitions do and the other definitions come to
refer to nothing. -/
theorem cyclic_eq_of_stays (distinct : (Members.keys definitions).Nodup)
    (names : Members.keys others = Members.keys definitions)
    (stays : ∀ name ∈ cyclic definitions,
      Members.get? others name = Members.get? definitions name)
    (bare : ∀ name body, name ∉ cyclic definitions → Members.get? others name = some body →
      body.referencedNames = []) :
    cyclic others = cyclic definitions := by
  have distinct' : (Members.keys others).Nodup := names ▸ distinct
  -- a definition on a cycle leads to another in every round
  have never (rounds : Nat) : ∀ name ∈ cyclic definitions, name ∉ settledAfter others rounds := by
    induction rounds with
    | zero => exact fun name _ => List.not_mem_nil
    | succ rounds ih =>
        intro name mem settled
        obtain ⟨body, found⟩ := Members.mem_keys_iff_exists_get?.1 (cyclic_subset_keys mem)
        obtain ⟨other, refers, next⟩ := (mem_cyclic_iff_exists distinct found).1 mem
        rw [← stays name mem] at found
        have defined : other ∈ Members.keys others := names ▸ cyclic_subset_keys next
        exact ih other next ((mem_settledAfter_succ_iff distinct' found).1 settled other refers
          defined)
  have iff (name : String) (mem : name ∈ Members.keys definitions) :
      name ∈ settled others ↔ name ∈ settled definitions := by
    by_cases cycles : name ∈ cyclic definitions
    · exact iff_of_false (never _ name cycles) (mem_cyclic_iff.1 cycles).2
    · obtain ⟨body, found⟩ := Members.mem_keys_iff_exists_get?.1 (names ▸ mem)
      refine iff_of_true ?_ ((mem_settled_iff mem).2 cycles)
      rw [mem_settled_iff_forall distinct' found, bare name body cycles found]
      exact List.forall_mem_nil _
  rw [cyclic, cyclic, names]
  refine List.filter_congr fun name mem => ?_
  simp only [List.contains_eq_mem, iff name mem]

end Definitions

end SchemaStream
