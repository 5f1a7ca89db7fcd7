import SchemaStream.Proofs.Stream.Lifecycle
import Mathlib.Data.List.TakeDrop

/-!
# Streams with a bound on their candidates

A bound on the candidates only cuts the view: at every step a bounded run has the first
candidates of the unbounded run.  The bounded run may be over earlier, but then its candidates
have all stopped, so what it no longer hears could not have changed them.
-/

namespace SchemaStream

namespace Table

variable {σ γ : Type}

theorem advance_take (start : Nat → σ) (step : σ → γ → σ) (table : List σ) (row : List γ)
    (most : Nat) :
    advance start step (table.take most) (row.take most) =
      (advance start step table row).take most := by
  have short : max (min most table.length) (min most row.length) =
      min most (max table.length row.length) := by omega
  rw [advance, advance, List.length_take, List.length_take, short, ← List.map_take,
    List.take_range]
  refine List.map_congr_left fun index inRange => ?_
  have below : index < most := by
    have := List.mem_range.1 inRange
    omega
  rw [List.getElem?_take_of_lt below, List.getElem?_take_of_lt below]

end Table

namespace Snapshot

variable {snapshot bounded free : Snapshot}

/-! ## One step of both -/

/-- The phase says whether all candidates have stopped. -/
def Phased (snapshot : Snapshot) : Prop :=
  snapshot.isTerminal = true ↔
    snapshot.candidates ≠ [] ∧ ∀ candidate ∈ snapshot.candidates, candidate.isFinished = true

theorem candidates_next (running : snapshot.isTerminal = false) (chunk : Chunk) :
    (snapshot.next chunk).candidates = snapshot.nextCandidates chunk := by
  rw [next, if_neg (phase_ne_terminal running)]

section

variable {most : Nat}

/-- The first candidates that have all stopped are not changed by a further step. -/
theorem take_next_of_finished (inside : most ≤ snapshot.candidates.length)
    (finished : ∀ candidate ∈ snapshot.candidates.take most, candidate.isFinished = true)
    (chunk : Chunk) :
    (snapshot.next chunk).candidates.take most = snapshot.candidates.take most := by
  refine List.ext_getElem? fun index => ?_
  rcases Nat.lt_or_ge index most with below | beyond
  · have found : snapshot.candidates[index]? = some snapshot.candidates[index] :=
      List.getElem?_eq_getElem (Nat.lt_of_lt_of_le below inside)
    have first : (snapshot.candidates.take most)[index]? = some snapshot.candidates[index] := by
      rw [List.getElem?_take_of_lt below, found]
    rw [first, List.getElem?_take_of_lt below]
    exact getElem?_nextAll_of_finished found (finished _ (List.mem_of_getElem? first)) [chunk]
  · rw [List.getElem?_take_eq_none beyond, List.getElem?_take_eq_none beyond]

variable (boundedPhase : bounded.Phased) (freePhase : free.Phased)
  (advance : bounded.advance = free.advance)
  (candidates : bounded.candidates = free.candidates.take most)
include boundedPhase freePhase candidates

theorem lt_length_of_isTerminal (ended : bounded.isTerminal = true)
    (running : free.isTerminal = false) : most < free.candidates.length := by
  by_contra beyond
  have whole : bounded.candidates = free.candidates := by
    rw [candidates, List.take_of_length_le (Nat.le_of_not_lt beyond)]
  have freeEnd := freePhase.2 (whole ▸ boundedPhase.1 ended)
  rw [running] at freeEnd
  cases freeEnd

theorem eq_zero_of_isTerminal (running : bounded.isTerminal = false)
    (ended : free.isTerminal = true) : most = 0 := by
  obtain ⟨some, finished⟩ := freePhase.1 ended
  by_contra positive
  have boundedEnd := boundedPhase.2
    ⟨by simp [candidates, positive, some],
      fun candidate mem => finished candidate (List.mem_of_mem_take (candidates ▸ mem))⟩
  rw [running] at boundedEnd
  cases boundedEnd

include advance

theorem candidates_next_take {chunk : Chunk}
    (followed : bounded.followed chunk = (free.followed chunk).take most) :
    (bounded.next chunk).candidates = (free.next chunk).candidates.take most := by
  cases boundedEnd : bounded.isTerminal with
  | true =>
      rw [next_of_isTerminal boundedEnd, candidates]
      cases freeEnd : free.isTerminal with
      | true => rw [next_of_isTerminal freeEnd]
      | false =>
          -- Only the bounded run is over, so the other goes on with candidates beyond the bound.
          have inside :=
            lt_length_of_isTerminal boundedPhase freePhase candidates boundedEnd freeEnd
          exact (take_next_of_finished (Nat.le_of_lt inside)
            (candidates ▸ (boundedPhase.1 boundedEnd).2) chunk).symm
  | false =>
      rw [candidates_next boundedEnd, nextCandidates_eq, advance, candidates, followed,
        Table.advance_take, ← nextCandidates_eq]
      cases freeEnd : free.isTerminal with
      | true =>
          obtain rfl := eq_zero_of_isTerminal boundedPhase freePhase candidates boundedEnd freeEnd
          rfl
      | false => rw [candidates_next freeEnd]

end

/-! ## Runs -/

/-- The snapshot with another bound on its candidates. -/
def withBound (snapshot : Snapshot) (bound : Option Nat) : Snapshot :=
  { snapshot with options := { snapshot.options with maxChoices := bound } }

theorem Started.withBound (started : snapshot.Started) (bound : Option Nat) :
    (snapshot.withBound bound).Started := by
  cases started with
  | @typed prepared _ made =>
      obtain ⟨record, typed, rfl⟩ := ofPrepared_eq_ok_iff.1 made
      let config := { prepared.config with
        accumulator := { prepared.config.accumulator with maxChoices := bound } }
      have made : ofPrepared { prepared with config } = .ok _ :=
        ofPrepared_eq_ok_iff.2 ⟨record, typed, rfl⟩
      exact .typed made
  | untyped options => exact .untyped { options with maxChoices := bound }

/-- At every step the candidates of the bounded run are the first ones of the unbounded run. -/
theorem bounded_candidates_are_first (started : snapshot.Started) (most : Nat)
    (chunks : List Chunk) :
    (snapshot.withBound (some most)).Started ∧ (snapshot.withBound none).Started ∧
      ((snapshot.withBound (some most)).nextAll chunks).candidates =
        ((snapshot.withBound none).nextAll chunks).candidates.take most := by
  have bounded := started.withBound (some most)
  have free := started.withBound none
  refine ⟨bounded, free, ?_⟩
  induction chunks using List.reverseRecOn with
  | nil => simp [nextAll, bounded.candidates_eq_nil, free.candidates_eq_nil]
  | append_singleton chunks chunk ih =>
      obtain ⟨boundedType, boundedOptions⟩ :=
        type_options_nextAll (snapshot.withBound (some most)) chunks
      obtain ⟨freeType, freeOptions⟩ := type_options_nextAll (snapshot.withBound none) chunks
      rw [nextAll_append_singleton, nextAll_append_singleton]
      refine candidates_next_take (isTerminal_nextAll_iff bounded chunks)
        (isTerminal_nextAll_iff free chunks) ?_ ih ?_
      · rw [advance_congr boundedType boundedOptions, advance_congr freeType freeOptions]
        rfl
      · rw [followed, followed, boundedOptions, freeOptions]
        rfl

/-- The bounded run is over after the first chunk and the other is not. -/
theorem one_candidate_is_first :
    countStart.Started ∧
      ((countStart.withBound (some 1)).nextAll failsEarly).isTerminal = true ∧
      ((countStart.withBound none).nextAll failsEarly).isTerminal = false ∧
      ((countStart.withBound (some 1)).nextAll failsLate).candidates =
        ((countStart.withBound none).nextAll failsLate).candidates.take 1 :=
  ⟨.typed ofPrepared_counting, by decide, by decide,
    (bounded_candidates_are_first (.typed ofPrepared_counting) 1 failsLate).2.2⟩

end Snapshot

end SchemaStream
