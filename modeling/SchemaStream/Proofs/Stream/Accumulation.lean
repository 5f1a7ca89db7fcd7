import SchemaStream.Proofs.Json.Order
import SchemaStream.Stream.Delta
import Mathlib.Data.List.Find
import Mathlib.Data.List.Induction

/-!
# What deltas add up to

The two flat maps of a state are put together in the same way: every delta takes out what it
deletes and puts in what it has for the map.  So what a run of deltas leaves of a map can be
told without running them.  A key has the value that the last delta to mention it has for it.
It stands where the first delta put it that was not undone by a later one.
-/

namespace SchemaStream

namespace Delta

/-- A delta mentions a key that it sets or deletes. -/
def Mentions (added : Delta → FlatMap) (delta : Delta) (key : String) : Prop :=
  key ∈ Members.keys (added delta) ∨ key ∈ delta.deleted

instance (added : Delta → FlatMap) (delta : Delta) (key : String) :
    Decidable (delta.Mentions added key) :=
  inferInstanceAs (Decidable (_ ∨ _))

def lastMention? (added : Delta → FlatMap) (deltas : List Delta) (key : String) : Option Delta :=
  (deltas.filter fun delta => delta.Mentions added key).getLast?

def NeverDeleted (deltas : List Delta) (key : String) : Prop :=
  ∀ delta ∈ deltas, key ∉ delta.deleted

instance (deltas : List Delta) (key : String) : Decidable (NeverDeleted deltas key) :=
  inferInstanceAs (Decidable (∀ _ ∈ _, _))

/-- The first of the deltas that sets a key once it has been deleted for the last time.  A delta
that deletes the key and sets it has deleted it before. -/
def entrance? (added : Delta → FlatMap) (deltas : List Delta) (key : String) : Option Nat :=
  (List.range deltas.length).find? fun index =>
    deltas[index]?.any (fun delta => Members.has (added delta) key) &&
      decide (NeverDeleted (deltas.drop (index + 1)) key)

/-- The initial keys that no delta deletes. -/
def standing (initial : FlatMap) (deltas : List Delta) : List String :=
  (Members.keys initial).filter fun key => NeverDeleted deltas key

/-- The keys that come in with one of the deltas. -/
def entering (added : Delta → FlatMap) (initial : FlatMap) (deltas : List Delta) (delta : Delta)
    (index : Nat) : List String :=
  (Members.keys (added delta)).filter fun key =>
    key ∉ standing initial deltas ∧ entrance? added deltas key = some index

/-- What a flat map is after deltas, each of which has added to it. -/
structure AddUp (added : Delta → FlatMap) (initial : FlatMap) (deltas : List Delta)
    (flat : FlatMap) : Prop where
  values : ∀ key value, Members.get? flat key = some value ↔
    (∃ delta, lastMention? added deltas key = some delta ∧
        Members.get? (added delta) key = some value) ∨
      ((∀ delta ∈ deltas, ¬ delta.Mentions added key) ∧ Members.get? initial key = some value)
  order : Members.keys flat = standing initial deltas ++
    deltas.zipIdx.flatMap fun (delta, index) => entering added initial deltas delta index

variable {added : Delta → FlatMap} {initial flat : FlatMap} {deltas : List Delta}
  {delta other : Delta} {key : String} {index : Nat}

/-! ## One more delta -/

theorem neverDeleted_append_singleton :
    NeverDeleted (deltas ++ [delta]) key ↔ NeverDeleted deltas key ∧ key ∉ delta.deleted := by
  simp [NeverDeleted, or_imp, forall_and]

theorem lastMention?_append_singleton :
    lastMention? added (deltas ++ [delta]) key =
      if delta.Mentions added key then some delta else lastMention? added deltas key := by
  rw [lastMention?, List.filter_append]
  split
  · next mentions => simp [mentions]
  · next silent => simp [silent, lastMention?]

theorem lt_length_of_entrance? (enters : entrance? added deltas key = some index) :
    index < deltas.length :=
  List.mem_range.1 (List.mem_of_find?_eq_some enters)

theorem exists_set_of_entrance? (enters : entrance? added deltas key = some index) :
    ∃ delta, deltas[index]? = some delta ∧ key ∈ Members.keys (added delta) := by
  have sets := List.find?_some enters
  simp only [Bool.and_eq_true, Option.any_eq_true, Members.has_iff_mem_keys] at sets
  exact sets.1

theorem entrance?_append_singleton :
    entrance? added (deltas ++ [delta]) key =
      (if key ∈ delta.deleted then none else entrance? added deltas key).or
        (if key ∈ Members.keys (added delta) then some deltas.length else none) := by
  rw [entrance?, List.length_append, List.length_singleton, List.range_succ, List.find?_append]
  congr 1
  · -- Of the earlier deltas only the last condition is changed.
    have each (index : Nat) (mem : index ∈ List.range deltas.length) :
        ((deltas ++ [delta])[index]?.any (fun delta => Members.has (added delta) key) &&
            decide (NeverDeleted ((deltas ++ [delta]).drop (index + 1)) key)) =
          ((deltas[index]?.any (fun delta => Members.has (added delta) key) &&
            decide (NeverDeleted (deltas.drop (index + 1)) key)) &&
              decide (key ∉ delta.deleted)) := by
      have below := List.mem_range.1 mem
      rw [List.getElem?_append_left below, List.drop_append_of_le_length below, Bool.and_assoc,
        ← Bool.decide_and]
      simp only [neverDeleted_append_singleton]
    rw [List.find?_congr each]
    by_cases deleted : key ∈ delta.deleted
    · simp [deleted]
    · simp only [deleted, not_false_eq_true, decide_true, Bool.and_true, if_false]
      rfl
  · have nothing : (deltas ++ [delta]).drop (deltas.length + 1) = [] :=
      List.drop_of_length_le (by simp)
    simp [nothing, NeverDeleted, Members.has_iff_mem_keys]

/-! ## One more step of the map -/

section

variable {deleted : List String}

theorem get?_foldl_erase (flat : FlatMap) (deleted : List String) (key : String) :
    Members.get? (deleted.foldl Members.erase flat) key =
      if key ∈ deleted then none else Members.get? flat key := by
  induction deleted generalizing flat with
  | nil => simp
  | cons first rest ih =>
      rw [List.foldl_cons, ih, Members.get?_erase]
      by_cases same : first = key
      · simp [same]
      · simp [same, Ne.symm same]

theorem keys_foldl_erase (flat : FlatMap) (deleted : List String) :
    Members.keys (deleted.foldl Members.erase flat) =
      (Members.keys flat).filter (· ∉ deleted) := by
  induction deleted generalizing flat with
  | nil => simp
  | cons first rest ih =>
      rw [List.foldl_cons, ih, Members.keys_erase, List.filter_filter]
      refine List.filter_congr fun key _ => ?_
      simp [Bool.and_comm]

end

theorem standing_append_singleton :
    standing initial (deltas ++ [delta]) =
      (standing initial deltas).filter (· ∉ delta.deleted) := by
  rw [standing, standing, List.filter_filter]
  refine List.filter_congr fun key _ => ?_
  simp [neverDeleted_append_singleton, and_comm]

/-- What came in earlier is still in, unless it is deleted now. -/
theorem entering_append_singleton (below : index < deltas.length) :
    entering added initial (deltas ++ [delta]) other index =
      (entering added initial deltas other index).filter (· ∉ delta.deleted) := by
  rw [entering, entering, List.filter_filter]
  refine List.filter_congr fun key _ => ?_
  have earlier : deltas.length ≠ index := Nat.ne_of_gt below
  rw [standing_append_singleton, entrance?_append_singleton, ← Bool.decide_and]
  refine decide_eq_decide.2 ?_
  by_cases deleted : key ∈ delta.deleted
  · simp [deleted, earlier]
  · cases entrance? added deltas key <;> simp [deleted, earlier]

theorem AddUp.mem_keys_iff (sum : AddUp added initial deltas flat) :
    key ∈ Members.keys flat ↔
      key ∈ standing initial deltas ∨ entrance? added deltas key ≠ none := by
  rw [sum.order, List.mem_append, Option.ne_none_iff_exists']
  constructor
  · rintro (stands | entered)
    · exact .inl stands
    · obtain ⟨⟨delta, index⟩, -, enters⟩ := List.mem_flatMap.1 entered
      exact .inr ⟨index, (of_decide_eq_true (List.mem_filter.1 enters).2).2⟩
  · rintro (stands | ⟨index, enters⟩)
    · exact .inl stands
    · obtain ⟨delta, found, sets⟩ := exists_set_of_entrance? enters
      refine or_iff_not_imp_left.2 fun gone => List.mem_flatMap.2 ⟨(delta, index), ?_, ?_⟩
      · simpa [List.mem_zipIdx_iff_getElem?] using found
      · exact List.mem_filter.2 ⟨sets, decide_eq_true ⟨gone, enters⟩⟩

/-- What comes in last are the keys of the last delta that it has not found. -/
theorem AddUp.entering_last (sum : AddUp added initial deltas flat) (delta : Delta) :
    entering added initial (deltas ++ [delta]) delta deltas.length =
      (Members.keys (added delta)).filter
        (· ∉ Members.keys (delta.deleted.foldl Members.erase flat)) := by
  refine List.filter_congr fun key set => decide_eq_decide.2 ?_
  rw [keys_foldl_erase, standing_append_singleton, entrance?_append_singleton, if_pos set]
  by_cases deleted : key ∈ delta.deleted
  · simp [deleted]
  · have found : key ∈ Members.keys flat ↔ _ := sum.mem_keys_iff
    cases enters : entrance? added deltas key with
    | none => simp [deleted, found, enters]
    | some index =>
        have ne : index ≠ deltas.length := Nat.ne_of_lt (lt_length_of_entrance? enters)
        simp [deleted, found, enters, ne]

/-! ## From the first delta to the last -/

theorem AddUp.nil (added : Delta → FlatMap) (initial : FlatMap) :
    AddUp added initial [] initial where
  values key value := by simp [lastMention?]
  order := by simp [standing, NeverDeleted]

theorem get?_merge (flat : FlatMap) (distinct : (Members.keys (added delta)).Nodup)
    (key : String) :
    Members.get? (ChoiceState.merge flat delta.deleted (added delta)) key =
      if delta.Mentions added key then Members.get? (added delta) key
      else Members.get? flat key := by
  rw [ChoiceState.merge, Members.get?_insertAll _ distinct, get?_foldl_erase]
  by_cases set : key ∈ Members.keys (added delta)
  · obtain ⟨value, own⟩ := Members.mem_keys_iff_exists_get?.1 set
    simp [Mentions, set, own]
  · simp [Mentions, set, Members.get?_eq_none_iff.2 set]

theorem AddUp.append_singleton (sum : AddUp added initial deltas flat)
    (distinct : (Members.keys (added delta)).Nodup) :
    AddUp added initial (deltas ++ [delta])
      (ChoiceState.merge flat delta.deleted (added delta)) where
  values key value := by
    rw [get?_merge flat distinct, lastMention?_append_singleton]
    by_cases mentions : delta.Mentions added key
    · have among : delta ∈ deltas ++ [delta] := by simp
      simp only [mentions, if_true, Option.some.injEq, exists_eq_left']
      exact (or_iff_left fun silent => silent.1 delta among mentions).symm
    · simpa [mentions, or_imp, forall_and] using sum.values key value
  order := by
    have earlier : (deltas.zipIdx.flatMap fun (other, index) =>
        (entering added initial deltas other index).filter (· ∉ delta.deleted)) =
          deltas.zipIdx.flatMap fun (other, index) =>
            entering added initial (deltas ++ [delta]) other index := by
      refine List.flatMap_congr fun ⟨other, index⟩ mem => ?_
      exact (entering_append_singleton (List.snd_lt_of_mem_zipIdx mem)).symm
    rw [ChoiceState.merge, Members.keys_insertAll _ distinct, ← sum.entering_last,
      keys_foldl_erase, sum.order, List.filter_append, ← standing_append_singleton,
      List.filter_flatMap, earlier, List.append_assoc, List.zipIdx_append, List.flatMap_append,
      Nat.zero_add]
    simp

end Delta

namespace ChoiceState

open Delta

variable {state : ChoiceState} {deltas : List Delta}

theorem applyAll_append_singleton (state : ChoiceState) (deltas : List Delta) (delta : Delta) :
    state.applyAll (deltas ++ [delta]) = (state.applyAll deltas).apply delta := by
  simp [applyAll]

/-- All of a state that a run of deltas leads to, in terms of the state before and the deltas. -/
theorem applyAll_in_closed_form (state : ChoiceState) (deltas : List Delta)
    (distinct : ∀ delta ∈ deltas,
      (Members.keys delta.parsed).Nodup ∧ (Members.keys delta.likelihoods).Nodup) :
    AddUp Delta.parsed state.parsed deltas (state.applyAll deltas).parsed ∧
      AddUp Delta.likelihoods state.likelihoods deltas (state.applyAll deltas).likelihoods ∧
      (state.applyAll deltas).content = state.content ++ String.join (deltas.map Delta.content) ∧
      (state.applyAll deltas).validJson =
        ((deltas.map Delta.validJson).getLast?).getD state.validJson ∧
      (state.applyAll deltas).keyMapping =
        (state.keyMapping :: deltas.map Delta.keyMapping).findSome? id := by
  induction deltas using List.reverseRecOn with
  | nil =>
      refine ⟨.nil _ _, .nil _ _, ?_, rfl, ?_⟩
      · exact (String.append_empty).symm
      · cases h : state.keyMapping <;> simp [applyAll, h]
  | append_singleton deltas delta ih =>
      rw [List.forall_mem_append, List.forall_mem_singleton] at distinct
      obtain ⟨parsed, likelihoods, content, -, keyMapping⟩ := ih distinct.1
      rw [applyAll_append_singleton]
      refine ⟨parsed.append_singleton distinct.2.1, likelihoods.append_singleton distinct.2.2,
        ?_, ?_, ?_⟩
      · simp [apply, content, String.join_append, String.append_assoc]
      · simp [apply]
      · rw [apply, keyMapping, List.map_append, ← List.cons_append, List.findSome?_append]
        simp

/-- An extraction under way. -/
def drafted : ChoiceState where
  parsed := [("total", .nat 1), ("vendor", .string "A"), ("date", .null)]
  likelihoods := [("vendor", .nat 0), ("total", .nat 0)]
  content := "A"

/-- Deltas that correct it: the total is retracted and set again, the tax comes in twice, and the
date, which has no likelihood, goes. -/
def corrections : List Delta :=
  [{ deleted := ["total"], parsed := [("tax", .nat 2), ("total", .nat 3)], content := "B" },
    { parsed := [("vendor", .string "B"), ("note", .null)], likelihoods := [("note", .nat 0)],
      validJson := true },
    { deleted := ["tax", "date"], parsed := [("tax", .nat 4)], keyMapping := some [] },
    { deleted := ["note"], parsed := [("total", .nat 5), ("paid", .bool true)], content := "C",
      keyMapping := some [("tax", none)] }]

theorem corrections_add_up :
    AddUp Delta.parsed drafted.parsed corrections
        [("vendor", .string "B"), ("total", .nat 5), ("tax", .nat 4), ("paid", .bool true)] ∧
      AddUp Delta.likelihoods drafted.likelihoods corrections [("vendor", .nat 0)] ∧
      entrance? Delta.parsed corrections "total" = some 0 ∧
      entrance? Delta.parsed corrections "tax" = some 2 ∧
      entrance? Delta.parsed corrections "note" = none ∧
      standing drafted.parsed corrections = ["vendor"] ∧
      drafted.applyAll corrections =
        { parsed :=
            [("vendor", .string "B"), ("total", .nat 5), ("tax", .nat 4), ("paid", .bool true)]
          likelihoods := [("vendor", .nat 0)]
          content := "ABC"
          validJson := false
          keyMapping := some [] } := by
  have distinct : ∀ delta ∈ corrections,
      (Members.keys delta.parsed).Nodup ∧ (Members.keys delta.likelihoods).Nodup := by decide
  have sum := applyAll_in_closed_form drafted corrections distinct
  exact ⟨sum.1, sum.2.1, by decide, by decide, by decide, by decide, by decide⟩

end ChoiceState

end SchemaStream
