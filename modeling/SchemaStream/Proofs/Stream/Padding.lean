import SchemaStream.Proofs.Stream.Accumulation

/-!
# Placeholders for skipped candidates

Choices come by position, so a producer that has nothing for a candidate either leaves it out
at the end of the chunk or sends an empty choice in its place.  The two differ in one field
only.  What a delta adds is merged into the state, and an empty one adds nothing, but the
validity is overwritten: an empty choice takes it away and a missing one leaves it.
-/

namespace SchemaStream

/-- The chunk with empty choices at the end, so that it has one for each of `count`
candidates. -/
def Chunk.padded (chunk : Chunk) (count : Nat) : Chunk where
  choices := chunk.choices ++ List.replicate (count - chunk.choices.length) {}

theorem Chunk.length_padded (chunk : Chunk) (count : Nat) :
    (chunk.padded count).choices.length = max count chunk.choices.length := by
  rw [padded, List.length_append, List.length_replicate]
  omega

theorem Chunk.getElem?_padded (chunk : Chunk) (count : Nat) {index : Nat}
    (below : index < max count chunk.choices.length) :
    (chunk.padded count).choices[index]? = some (chunk.choices[index]?.getD {}) := by
  by_cases own : index < chunk.choices.length
  · rw [padded, List.getElem?_append_left own, List.getElem?_eq_getElem own, Option.getD_some]
  · rw [padded, List.getElem?_append_right (by omega), List.getElem?_replicate,
      if_pos (by omega), List.getElem?_eq_none (by omega), Option.getD_none]

namespace ChoiceState

variable {states others : List ChoiceState}

/-- The chunks of a run, each padded up to the number of candidates there are when it comes. -/
def paddedAll (states : List ChoiceState) : List Chunk → List Chunk
  | [] => []
  | chunk :: rest => chunk.padded states.length :: paddedAll (advance states chunk) rest

/-- All of a state that its deltas add up to; the validity is that of the last one alone. -/
def withoutValidity (state : ChoiceState) : ChoiceState := { state with validJson := false }

theorem paddedAll_append_singleton (states : List ChoiceState) (chunks : List Chunk)
    (chunk : Chunk) :
    paddedAll states (chunks ++ [chunk]) =
      paddedAll states chunks ++ [chunk.padded (advanceAll states chunks).length] := by
  induction chunks generalizing states with
  | nil => rfl
  | cons first rest ih => rw [List.cons_append, paddedAll, ih]; rfl

theorem advanceAll_append_singleton (states : List ChoiceState) (chunks : List Chunk)
    (chunk : Chunk) :
    advanceAll states (chunks ++ [chunk]) = advance (advanceAll states chunks) chunk :=
  List.foldl_append

/-! ## One chunk -/

/-- An empty choice leaves everything but the validity. -/
theorem apply_empty (state : ChoiceState) : state.apply {} = state.withoutValidity := by
  simp [apply, withoutValidity, merge, Members.insertAll]

theorem withoutValidity_apply_congr {state other : ChoiceState} (delta : Delta)
    (same : state.withoutValidity = other.withoutValidity) :
    (state.apply delta).withoutValidity = (other.apply delta).withoutValidity :=
  congrArg (fun common => (common.apply delta).withoutValidity) same

theorem length_advance (states : List ChoiceState) (chunk : Chunk) :
    (advance states chunk).length = max states.length chunk.choices.length := by
  rw [advance, List.length_map, List.length_range]

/-- But for the validity, a missing choice is an empty one. -/
theorem map_withoutValidity_advance (states : List ChoiceState) (chunk : Chunk) :
    (advance states chunk).map withoutValidity =
      (List.range (max states.length chunk.choices.length)).map fun index =>
        ((states[index]?.getD {}).apply (chunk.choices[index]?.getD {}).delta).withoutValidity := by
  rw [advance, List.map_map]
  refine List.map_congr_left fun index _ => ?_
  rw [Function.comp_apply]
  cases chunk.choices[index]? with
  | some choice => rfl
  | none => exact (congrArg withoutValidity (apply_empty _)).symm

theorem withoutValidity_getD (same : others.map withoutValidity = states.map withoutValidity)
    (index : Nat) :
    (others[index]?.getD {}).withoutValidity = (states[index]?.getD {}).withoutValidity := by
  have entry := congrArg (fun list => list[index]?.getD (withoutValidity {})) same
  simpa only [List.getElem?_map, Option.getD_map] using entry

/-- States that differ in their validity at most still do after the chunk and the padded one. -/
theorem map_withoutValidity_advance_padded
    (same : others.map withoutValidity = states.map withoutValidity) (chunk : Chunk) :
    (advance others (chunk.padded states.length)).map withoutValidity =
      (advance states chunk).map withoutValidity := by
  have length : others.length = states.length := by simpa using congrArg List.length same
  rw [map_withoutValidity_advance, map_withoutValidity_advance, Chunk.length_padded, length,
    max_eq_right (le_max_left _ _)]
  refine List.map_congr_left fun index mem => ?_
  rw [Chunk.getElem?_padded chunk _ (List.mem_range.1 mem), Option.getD_some]
  exact withoutValidity_apply_congr _ (withoutValidity_getD same index)

theorem ext_withoutValidity {state other : ChoiceState}
    (same : state.withoutValidity = other.withoutValidity) :
    state = other ↔ state.validJson = other.validJson := by
  obtain ⟨parsed, likelihoods, content, validJson, keyMapping⟩ := state
  obtain ⟨_, _, _, otherValid, _⟩ := other
  cases same
  simp

theorem validJson_advance {chunk : Chunk} {index : Nat}
    (below : index < (advance states chunk).length) :
    (advance states chunk)[index].validJson =
      (chunk.choices[index]?.map fun choice => choice.delta.validJson).getD
        (states[index]?.getD {}).validJson := by
  simp only [advance, List.getElem_map, List.getElem_range]
  cases chunk.choices[index]? <;> rfl

/-- A candidate that the chunk brings nothing for keeps its validity in the one run and loses
it in the other. -/
theorem advance_padded_eq_iff (same : others.map withoutValidity = states.map withoutValidity)
    (chunk : Chunk) :
    advance others (chunk.padded states.length) = advance states chunk ↔
      ∀ state ∈ (advance states chunk).drop chunk.choices.length, state.validJson = false := by
  have rest := map_withoutValidity_advance_padded same chunk
  have length : (advance others (chunk.padded states.length)).length =
      (advance states chunk).length := by simpa using congrArg List.length rest
  have entry : ∀ index (below : index < (advance states chunk).length),
      (advance others (chunk.padded states.length))[index].validJson =
        (chunk.choices[index]?.getD {}).delta.validJson := by
    intro index below
    rw [validJson_advance, Chunk.getElem?_padded chunk _ (length_advance states chunk ▸ below)]
    rfl
  constructor
  · intro equal state mem
    obtain ⟨offset, below, rfl⟩ := List.mem_drop_iff_getElem.1 mem
    rw [Nat.add_comm] at below
    have unheard := entry (chunk.choices.length + offset) (by omega)
    rw [List.getElem?_eq_none (by omega)] at unheard
    simp only [equal] at unheard
    exact unheard
  · intro invalid
    refine List.ext_getElem length fun index _ below => ?_
    have common : (advance others (chunk.padded states.length))[index].withoutValidity =
        (advance states chunk)[index].withoutValidity := by
      have mapped := congrArg (fun list => list[index]?) rest
      simpa [List.getElem?_map, below, length] using mapped
    rw [ext_withoutValidity common, entry index below]
    by_cases own : index < chunk.choices.length
    · rw [validJson_advance, List.getElem?_eq_getElem own]
      rfl
    · -- The padding made this candidate not valid, so it must not have been valid before.
      obtain ⟨offset, rfl⟩ := Nat.exists_eq_add_of_le (Nat.le_of_not_lt own)
      rw [List.getElem?_eq_none (by omega)]
      exact (invalid _ (List.mem_drop_iff_getElem.2 ⟨offset, by omega, rfl⟩)).symm

/-! ## Runs -/

/-- Padding each chunk of a run changes nothing but validities, and nothing at all if and only
if each candidate is left not valid that the last chunk brings no choice for. -/
theorem padding_changes_nothing_iff (states : List ChoiceState) (chunks : List Chunk) :
    (advanceAll states (paddedAll states chunks)).map withoutValidity =
        (advanceAll states chunks).map withoutValidity ∧
      (advanceAll states (paddedAll states chunks) = advanceAll states chunks ↔
        ∀ last ∈ chunks.getLast?,
          ∀ state ∈ (advanceAll states chunks).drop last.choices.length,
            state.validJson = false) := by
  induction chunks using List.reverseRecOn with
  | nil => simp [paddedAll]
  | append_singleton chunks chunk ih =>
      rw [paddedAll_append_singleton, advanceAll_append_singleton, advanceAll_append_singleton]
      refine ⟨map_withoutValidity_advance_padded ih.1 chunk, ?_⟩
      rw [advance_padded_eq_iff ih.1 chunk]
      simp

/-- Two candidates, of which the second chunk brings only the first. -/
def secondSkipped : List Chunk :=
  [{ choices := [{}, { delta := { content := "1", validJson := true } }] },
    { choices := [{ delta := { content := "2", validJson := true } }] }]

/-- The candidate that was skipped counts as valid, the one with a placeholder does not. -/
theorem not_always_padding_changes_nothing :
    ¬ ∀ (states : List ChoiceState) (chunks : List Chunk),
      advanceAll states (paddedAll states chunks) = advanceAll states chunks :=
  fun always => absurd (always [] secondSkipped) (by decide)

end ChoiceState

end SchemaStream
