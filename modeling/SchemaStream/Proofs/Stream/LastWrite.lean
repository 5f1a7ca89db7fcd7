import SchemaStream.Proofs.Flat.Writing
import SchemaStream.Stream.Delta

/-!
# The last write of a stream

A key that is set again keeps its place in the state, and the rebuilt value goes by places.
So the value last streamed for a key is shown unless a conflicting key stands behind it: one
that earlier deltas put there, or one that the same delta brings for the first time.
-/

namespace SchemaStream

namespace ChoiceState

/-- What the rebuilt value has under a flat key. -/
def shown? (state : ChoiceState) (key : String) : Option Json :=
  (Json.unflatten state.parsed).read? (FlatKey.segments key)

/-- What a delta leaves of the state before it sets its own keys. -/
def retained (state : ChoiceState) (delta : Delta) : FlatMap :=
  delta.deleted.foldl Members.erase state.parsed

/-- A key that the delta sets again, with a conflicting key that ends up behind it. -/
def Overtaken (state : ChoiceState) (delta : Delta) (key : String) : Prop :=
  key ∈ Members.keys (state.retained delta) ∧
    ∃ other ∈ Members.behind (Members.keys (state.retained delta)) key ++
        (Members.keys delta.parsed).filter (· ∉ Members.keys (state.retained delta)),
      FlatKey.Conflicts key other

instance (state : ChoiceState) (delta : Delta) (key : String) :
    Decidable (state.Overtaken delta key) :=
  inferInstanceAs (Decidable (_ ∧ _))

theorem apply_parsed (state : ChoiceState) (delta : Delta) :
    (state.apply delta).parsed = Members.insertAll (state.retained delta) delta.parsed := rfl

theorem nodup_keys_retained {state : ChoiceState} (delta : Delta)
    (distinct : (Members.keys state.parsed).Nodup) :
    (Members.keys (state.retained delta)).Nodup := by
  rw [retained]
  generalize state.parsed = flat at distinct ⊢
  induction delta.deleted generalizing flat with
  | nil => exact distinct
  | cons key rest ih => exact ih (Members.erase flat key) (Members.nodup_keys_erase key distinct)

theorem nodup_keys_apply {state : ChoiceState} (delta : Delta)
    (distinct : (Members.keys state.parsed).Nodup) :
    (Members.keys (state.apply delta).parsed).Nodup :=
  Members.nodup_keys_insertAll delta.parsed (nodup_keys_retained delta distinct)

theorem nodup_keys_applyAll {state : ChoiceState} (deltas : List Delta)
    (distinct : (Members.keys state.parsed).Nodup) :
    (Members.keys (state.applyAll deltas).parsed).Nodup := by
  induction deltas generalizing state with
  | nil => exact distinct
  | cons delta rest ih => exact ih (nodup_keys_apply delta distinct)

end ChoiceState

/-- The delta with another value for a key. -/
def Delta.setting (delta : Delta) (key : String) (value : Json) : Delta :=
  { delta with parsed := Members.insert delta.parsed key value }

namespace ChoiceState

variable {delta : Delta} {key : String}

theorem apply_setting_parsed (state : ChoiceState) (value : Json)
    (distinct : (Members.keys delta.parsed).Nodup) (set : key ∈ Members.keys delta.parsed) :
    (state.apply (delta.setting key value)).parsed =
      Members.insert (state.apply delta).parsed key value :=
  Members.insertAll_insert value distinct set

/-- What stands behind a key once the delta is in. -/
theorem behind_apply (state : ChoiceState) (distinct : (Members.keys delta.parsed).Nodup) :
    Members.behind (Members.keys (state.apply delta).parsed) key =
      if key ∈ Members.keys (state.retained delta) then
        Members.behind (Members.keys (state.retained delta)) key ++
          (Members.keys delta.parsed).filter (· ∉ Members.keys (state.retained delta))
      else
        (Members.behind (Members.keys delta.parsed) key).filter
          (· ∉ Members.keys (state.retained delta)) := by
  rw [apply_parsed, Members.keys_insertAll _ distinct]
  split
  · next mem => rw [Members.behind_append_of_mem _ mem]
  · next absent =>
      rw [Members.behind_append_of_not_mem _ absent, Members.behind_filter (by simpa using absent)]

/-- A key that is not overtaken shows the value that the delta has for it. -/
theorem shown?_apply {state : ChoiceState} {value : Json}
    (reached : (Members.keys state.parsed).Nodup) (distinct : (Members.keys delta.parsed).Nodup)
    (nonempty : key ≠ "") (set : Members.get? delta.parsed key = some value)
    (last : ∀ other ∈ Members.behind (Members.keys delta.parsed) key,
      ¬ FlatKey.Conflicts key other)
    (front : ¬ state.Overtaken delta key) :
    (state.apply delta).shown? key = some value := by
  have held : Members.get? (state.apply delta).parsed key = some value := by
    rw [apply_parsed, Members.get?_insertAll _ distinct, set]
    rfl
  apply Json.read?_unflatten (nodup_keys_apply delta reached) nonempty held
  intro other behind conflict
  rw [behind_apply state distinct] at behind
  split at behind
  · next mem => exact front ⟨mem, other, behind, conflict⟩
  · exact last other (List.mem_of_mem_filter behind) conflict

/-- An overtaken key shows the same, whatever value the delta has for it. -/
theorem shown?_apply_setting_of_overtaken {state : ChoiceState} (value : Json)
    (reached : (Members.keys state.parsed).Nodup) (distinct : (Members.keys delta.parsed).Nodup)
    (nonempty : key ≠ "") (set : key ∈ Members.keys delta.parsed)
    (overtaken : state.Overtaken delta key) :
    (state.apply (delta.setting key value)).shown? key = (state.apply delta).shown? key := by
  obtain ⟨mem, other, behind, conflict⟩ := overtaken
  have there : key ∈ Members.keys (state.apply delta).parsed := by
    rw [apply_parsed, Members.keys_insertAll _ distinct]
    exact List.mem_append_left _ mem
  have later : other ∈ Members.behind (Members.keys (state.apply delta).parsed) key := by
    rw [behind_apply state distinct, if_pos mem]
    exact behind
  rw [shown?, apply_setting_parsed state value distinct set,
    Json.unflatten_insert_of_conflict value (nodup_keys_apply delta reached) nonempty there later
      conflict]
  rfl

theorem keys_setting_parsed (value : Json) (set : key ∈ Members.keys delta.parsed) :
    Members.keys (delta.setting key value).parsed = Members.keys delta.parsed :=
  Members.keys_insert_of_mem value set

theorem overtaken_setting_iff {state : ChoiceState} (value : Json)
    (set : key ∈ Members.keys delta.parsed) :
    state.Overtaken (delta.setting key value) key ↔ state.Overtaken delta key := by
  have same : state.retained (delta.setting key value) = state.retained delta := rfl
  rw [Overtaken, Overtaken, same, keys_setting_parsed value set]

/-- A reached state shows whatever value a delta has for a key, just if the key is not
overtaken.  The order of conflicting keys within the delta itself is taken as given. -/
theorem shows_every_streamed_value_iff (earlier : List Delta) (delta : Delta) (key : String)
    (distinct : (Members.keys delta.parsed).Nodup) (nonempty : key ≠ "")
    (set : key ∈ Members.keys delta.parsed)
    (last : ∀ other ∈ Members.behind (Members.keys delta.parsed) key,
      ¬ FlatKey.Conflicts key other) :
    (∀ value, ((applyAll {} earlier).apply (delta.setting key value)).shown? key = some value) ↔
      ¬ (applyAll {} earlier).Overtaken delta key := by
  have reached : (Members.keys (applyAll {} earlier).parsed).Nodup :=
    nodup_keys_applyAll earlier List.nodup_nil
  constructor
  · intro shown overtaken
    have same (value : Json) :
        some value = ((applyAll {} earlier).apply delta).shown? key := by
      rw [← shown value]
      exact shown?_apply_setting_of_overtaken value reached distinct nonempty set overtaken
    have clash := (same .null).trans (same (.bool true)).symm
    simp at clash
  · intro front value
    have names := keys_setting_parsed value set
    have held : Members.get? (delta.setting key value).parsed key = some value := by
      rw [Delta.setting, Members.get?_insert, if_pos rfl]
    apply shown?_apply reached (by rwa [names]) nonempty held (by rwa [names])
    rwa [overtaken_setting_iff value set]

/-- A key that is retracted and set again by one delta is put behind the keys it conflicts
with. -/
theorem shows_value_retracted_and_set_again :
    ¬ (applyAll {} [{ parsed := [("a", .nat 1)] }, { parsed := [("a.b", .nat 2)] }]).Overtaken
        { deleted := ["a"], parsed := [("a", .nat 3)] } "a" ∧
      ((applyAll {} [{ parsed := [("a", .nat 1)] }, { parsed := [("a.b", .nat 2)] }]).apply
        { deleted := ["a"], parsed := [("a", .nat 3)] }).shown? "a" = some (.nat 3) :=
  ⟨by decide, (shows_every_streamed_value_iff _ { deleted := ["a"], parsed := [("a", .nat 3)] } "a"
    (by decide) (by decide) (by decide) (by decide)).2 (by decide) (.nat 3)⟩

/-- The last value streamed for a key is not always the one shown: the key keeps its place
before a conflicting key that came in between. -/
theorem not_always_shows_last_streamed_value :
    ¬ ∀ (earlier : List Delta) (delta : Delta) (key : String) (value : Json),
      (Members.keys delta.parsed).Nodup → key ≠ "" →
      Members.get? delta.parsed key = some value →
      (∀ other ∈ Members.behind (Members.keys delta.parsed) key,
        ¬ FlatKey.Conflicts key other) →
      ((applyAll {} earlier).apply delta).shown? key = some value := by
  intro always
  have shown := always [{ parsed := [("a", .nat 1)] }, { parsed := [("a.b", .nat 2)] }]
    { parsed := [("a", .nat 3)] } "a" (.nat 3) (by decide) (by decide) (by decide) (by decide)
  exact absurd shown (by decide)

end ChoiceState

end SchemaStream
