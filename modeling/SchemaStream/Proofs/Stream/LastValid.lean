import SchemaStream.Proofs.Stream.Lifecycle
import SchemaStream.Proofs.Typing.PartialTypes

/-!
# The last valid value of a candidate

Each delta that a candidate takes gives it a new view of its data, and the last valid value is
the latest view that passed the check for data in progress.  Once there is one, there always
is one.  A candidate that passed the full check shows its final view, as what a type admits its
partial form admits too.
-/

namespace SchemaStream

namespace ChoiceState

/-- The nested value after each delta. -/
def views (state : ChoiceState) : List Delta → List Json
  | [] => []
  | delta :: rest => Json.unflatten (state.apply delta).parsed :: views (state.apply delta) rest

theorem getLast?_views (state : ChoiceState) {deltas : List Delta} (nonempty : deltas ≠ []) :
    (state.views deltas).getLast? = some (Json.unflatten (state.applyAll deltas).parsed) := by
  induction deltas generalizing state with
  | nil => exact absurd rfl nonempty
  | cons delta rest ih =>
      cases rest with
      | nil => rfl
      | cons next more =>
          rw [views, List.getLast?_cons, ih (state.apply delta) (by simp)]
          rfl

end ChoiceState

namespace Snapshot

open ChoiceState (views)

variable {snapshot : Snapshot} {candidate : Candidate} {choice : Choice}

/-! ## One candidate -/

section

variable (running : candidate.isFinished = false)
include running

theorem lastValid_advance :
    (snapshot.advance candidate choice).lastValid =
      if snapshot.allows (snapshot.advance candidate choice).parsed then
        some (snapshot.advance candidate choice).parsed
      else candidate.lastValid := by
  simp [advance, running, Candidate.parsed]

/-- The last valid value is the latest view that is allowed, or else what it was before. -/
theorem lastValid_foldl_advance (choices : List Choice) :
    (choices.foldl snapshot.advance candidate).lastValid =
      ((views candidate.state ((Choice.upToStop choices).map Choice.delta)).filter
        snapshot.allows).getLast?.or candidate.lastValid := by
  induction choices generalizing candidate with
  | nil => rfl
  | cons choice rest ih =>
      have parsed : (snapshot.advance candidate choice).parsed =
          Json.unflatten (candidate.state.apply choice.delta).parsed := by
        rw [Candidate.parsed, state_advance running]
      rw [List.foldl_cons, Choice.upToStop]
      split
      · next stops =>
          -- No later choice is taken, so this view is the last.
          have finished : (snapshot.advance candidate choice).isFinished = true := by
            simp [isFinished_advance running, stops]
          rw [foldl_advance_of_finished finished, lastValid_advance running, parsed]
          simp only [List.map_cons, List.map_nil, views, List.filter_cons, List.filter_nil]
          split <;> rfl
      · next goesOn =>
          have running' : (snapshot.advance candidate choice).isFinished = false := by
            simp [isFinished_advance running, goesOn]
          rw [ih running', state_advance running, lastValid_advance running, parsed, List.map_cons,
            views, List.filter_cons]
          split
          · rw [List.getLast?_cons]
            cases ((views (candidate.state.apply choice.delta)
              ((Choice.upToStop rest).map Choice.delta)).filter snapshot.allows).getLast? <;> rfl
          · rfl

end

/-- A candidate whose current view is allowed has it as its last valid value. -/
theorem lastValid_eq_parsed {choices : List Choice} {index : Nat}
    (nonempty : choices ≠ [])
    (allowed : snapshot.allows (choices.foldl snapshot.advance { index }).parsed = true) :
    (choices.foldl snapshot.advance { index }).lastValid =
      some (choices.foldl snapshot.advance { index }).parsed := by
  rw [Candidate.parsed, state_foldl_advance rfl] at allowed ⊢
  have taken : (Choice.upToStop choices).map Choice.delta ≠ [] := by
    rw [ne_eq, List.map_eq_nil_iff]
    exact Choice.upToStop_ne_nil nonempty
  obtain ⟨front, shown⟩ := List.getLast?_eq_some_iff.1 (ChoiceState.getLast?_views {} taken)
  rw [lastValid_foldl_advance rfl, shown, List.filter_append, List.filter_cons, if_pos allowed]
  simp

/-- A valid value is not lost again. -/
theorem isSome_lastValid_advance (valid : candidate.lastValid.isSome = true) :
    (snapshot.advance candidate choice).lastValid.isSome = true := by
  cases ended : candidate.isFinished with
  | true => rwa [advance_of_finished ended]
  | false =>
      rw [lastValid_advance ended]
      split
      · rfl
      · exact valid

/-! ## Runs -/

theorem exists_candidate_next {index : Nat} (found : snapshot.candidates[index]? = some candidate)
    (chunk : Chunk) :
    ∃ later, (snapshot.next chunk).candidates[index]? = some later ∧
      (candidate.lastValid.isSome = true → later.lastValid.isSome = true) := by
  obtain ⟨later, foundLater, rfl | ⟨choice, rfl⟩⟩ := exists_after_next found chunk
  · exact ⟨later, foundLater, id⟩
  · exact ⟨_, foundLater, isSome_lastValid_advance⟩

/-- A candidate stays, and so does its having a valid value. -/
theorem exists_candidate_nextAll {index : Nat}
    (found : snapshot.candidates[index]? = some candidate) (more : List Chunk) :
    ∃ later, (snapshot.nextAll more).candidates[index]? = some later ∧
      (candidate.lastValid.isSome = true → later.lastValid.isSome = true) := by
  induction more using List.reverseRecOn with
  | nil => exact ⟨candidate, found, id⟩
  | append_singleton more chunk ih =>
      obtain ⟨between, foundThen, kept⟩ := ih
      obtain ⟨later, foundLater, keptOn⟩ := exists_candidate_next foundThen chunk
      rw [nextAll_append_singleton]
      exact ⟨later, foundLater, fun valid => keptOn (kept valid)⟩

theorem allows_of_outcome {value : Json} (passed : snapshot.outcome value = .ok ()) :
    snapshot.allows value = true := by
  rw [allows]
  split
  · next record typed =>
      rw [outcome, typed] at passed
      have admits := RecordType.admits_toPartial (RecordType.validate_eq_ok_iff.1 passed)
      rw [RecordType.accepts_iff.2 admits, Bool.or_true]
  · rfl

section

variable {chunks : List Chunk} {index : Nat}
  (empty : snapshot.candidates = [])
  (found : (snapshot.nextAll chunks).candidates[index]? = some candidate)
include empty found

theorem column_heard_ne_nil : Table.column (snapshot.heard chunks) index ≠ [] := by
  refine Table.column_ne_nil ?_
  obtain ⟨inside, -⟩ := List.getElem?_eq_some_iff.1 found
  simpa [candidates_nextAll empty] using inside

theorem lastValid_of_allowed (allowed : snapshot.allows candidate.parsed = true) :
    candidate.lastValid = some candidate.parsed := by
  have history := getElem?_candidates_nextAll empty found
  have nonempty := column_heard_ne_nil empty found
  rw [history] at allowed ⊢
  exact lastValid_eq_parsed nonempty allowed

/-- A stopped candidate has been checked as a whole. -/
theorem terminal_of_finished (finished : candidate.isFinished = true) :
    candidate.terminal = some (snapshot.outcome candidate.parsed) :=
  (checked_nextAll empty found).trans (if_pos finished)

theorem lastValid_of_outcome (finished : candidate.isFinished = true)
    (passed : candidate.failure? = none) : candidate.lastValid = some candidate.parsed := by
  refine lastValid_of_allowed empty found (allows_of_outcome ?_)
  rw [Candidate.failure?, terminal_of_finished empty found finished] at passed
  cases outcome : snapshot.outcome candidate.parsed with
  | ok => rfl
  | error failure => simp [outcome] at passed

end

/-- A complete stream is one whose candidates have all stopped and passed the full check. -/
theorem of_status_complete (complete : snapshot.status = .complete) :
    snapshot.isTerminal = true ∧ ∀ candidate ∈ snapshot.candidates, candidate.failure? = none := by
  rw [status] at complete
  split at complete
  · next ended =>
      refine ⟨ended, fun candidate mem => ?_⟩
      split at complete
      · cases complete
      · next passed =>
          rw [Option.not_isSome_iff_eq_none, failure?, List.findSome?_eq_none_iff] at passed
          simpa using passed candidate mem
  · cases complete

/-- The last valid value of a candidate is its latest view that passed the partial type.  So
there is none only as long as no view has passed, it stays once there is one, it passes the
partial type itself, and in a complete stream it is the final view.  Without a type or without
the check of data in progress it is always the current view. -/
theorem lastValid_is_latest_valid_view (started : snapshot.Started) (chunks : List Chunk) :
    (∀ record, snapshot.type = some record → snapshot.options.validatePartials = true →
      (∀ index candidate, (snapshot.nextAll chunks).candidates[index]? = some candidate →
        candidate.lastValid =
            ((views {} (snapshot.deltasAt chunks index)).filter
              record.toPartial.accepts).getLast? ∧
          (candidate.lastValid = none ↔
            ∀ view ∈ views {} (snapshot.deltasAt chunks index),
              record.toPartial.accepts view = false) ∧
          (∀ value, candidate.lastValid = some value → record.toPartial.accepts value = true) ∧
          ∀ more, ∃ later,
            (snapshot.nextAll (chunks ++ more)).candidates[index]? = some later ∧
              (candidate.lastValid.isSome = true → later.lastValid.isSome = true)) ∧
      ((snapshot.nextAll chunks).status = .complete →
        ∀ candidate ∈ (snapshot.nextAll chunks).candidates,
          candidate.lastValid = some candidate.parsed)) ∧
    (snapshot.type = none ∨ snapshot.options.validatePartials = false →
      ∀ candidate ∈ (snapshot.nextAll chunks).candidates,
        candidate.lastValid = some candidate.parsed) := by
  have empty := started.candidates_eq_nil
  refine ⟨fun record typed checks => ⟨fun index candidate found => ?_, ?_⟩, ?_⟩
  · have allows : snapshot.allows = record.toPartial.accepts := by
      funext view
      rw [Snapshot.allows, typed, checks]
      rfl
    have latest : candidate.lastValid =
        ((views {} (snapshot.deltasAt chunks index)).filter record.toPartial.accepts).getLast? := by
      rw [getElem?_candidates_nextAll empty found, lastValid_foldl_advance rfl, allows,
        Option.or_none]
      rfl
    refine ⟨latest, ?_, fun value valid => ?_, fun more => ?_⟩
    · rw [latest, List.getLast?_eq_none_iff, List.filter_eq_nil_iff]
      simp
    · rw [latest] at valid
      exact (List.mem_filter.1 (List.mem_of_getLast? valid)).2
    · rw [nextAll_append]
      exact exists_candidate_nextAll found more
  · intro complete candidate mem
    obtain ⟨ended, passed⟩ := of_status_complete complete
    obtain ⟨-, finished⟩ := finished_of_isTerminal started.isTerminal_eq_false ended
    obtain ⟨index, found⟩ := List.getElem?_of_mem mem
    exact lastValid_of_outcome empty found (finished candidate mem) (passed candidate mem)
  · intro unchecked candidate mem
    obtain ⟨index, found⟩ := List.getElem?_of_mem mem
    refine lastValid_of_allowed empty found ?_
    rw [allows]
    rcases unchecked with untyped | unchecked
    · rw [untyped]
    · rw [unchecked]
      cases snapshot.type <;> rfl

/-- People by name and age. -/
def people : Prepared where
  document :=
    { root := .apart
        { types := [.object]
          properties := [("name", .ofType .string), ("age", .ofType .integer)]
          required := ["name", "age"] } }
  cyclic := false
  config := {}

def personRecord : RecordType where
  name := "Extraction"
  fields :=
    [⟨"name", .scalar .string, false, none⟩, ⟨"age", .scalar .integer, false, none⟩]

theorem started_people :
    Started { type := some personRecord, options := people.config.accumulator } :=
  .typed (ofPrepared_eq_ok_iff.2 ⟨personRecord, by decide +kernel, rfl⟩)

/-- An age that is first given as a text, and then put right. -/
def corrected : List Chunk :=
  [{ choices := [{ delta := { parsed := [("name", .string "Ann")] } }] },
    { choices := [{ delta := { parsed := [("age", .string "thirty")] } }] },
    { choices := [{ delta := { parsed := [("age", .nat 30)] }, finish := some .stop }] }]

theorem corrected_person_keeps_valid_view :
    let snapshot : Snapshot := { type := some personRecord, options := people.config.accumulator }
    snapshot.Started ∧
    (∀ candidate, (snapshot.nextAll (corrected.take 2)).candidates[0]? = some candidate →
      candidate.lastValid = some (.object [("name", .string "Ann")])) ∧
    (snapshot.nextAll corrected).status = .complete ∧
      ∀ candidate ∈ (snapshot.nextAll corrected).candidates,
        candidate.lastValid = some candidate.parsed := by
  intro snapshot
  have midway := (lastValid_is_latest_valid_view started_people (corrected.take 2)).1
    personRecord rfl rfl
  have final := (lastValid_is_latest_valid_view started_people corrected).1 personRecord rfl rfl
  have complete : (snapshot.nextAll corrected).status = .complete := by decide
  refine ⟨started_people, fun candidate found => ?_, complete, final.2 complete⟩
  exact (midway.1 0 candidate found).1.trans (by decide)

end Snapshot

end SchemaStream
