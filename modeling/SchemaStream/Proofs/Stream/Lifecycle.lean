import SchemaStream.Proofs.Stream.History

/-!
# The life of a stream

A stream is empty until the first chunk and over once every candidate has stopped; then no
chunk changes it.  A candidate keeps its position, is checked as a whole when it stops, and
stays as it is from then on.  One step keeps all this, so it holds after every run.

Whether a stream ends well is asked in two ways.  The status waits for the end of the stream,
while the result fails as soon as one candidate has stopped with data that fail the full check.
-/

namespace SchemaStream

namespace Candidate

variable {candidate : Candidate}

theorem isFinished_iff : candidate.isFinished = true ↔ candidate.finish = some .stop := by
  simp [isFinished]

theorem failure?_eq_some_iff {fault : ValidationError} :
    candidate.failure? = some fault ↔ candidate.terminal = some (.error fault) := by
  rw [failure?]
  split
  · next failure same => simp [same]
  · next other => exact ⟨nofun, fun same => absurd same (other fault)⟩

end Candidate

namespace Snapshot

variable {snapshot : Snapshot} {candidate : Candidate} {choice : Choice} {index : Nat}

/-! ## Candidates -/

/-- A candidate carries the outcome of the full check from when it stops, and none before. -/
def Checked (snapshot : Snapshot) (candidate : Candidate) : Prop :=
  candidate.terminal =
    if candidate.isFinished then some (snapshot.outcome candidate.parsed) else none

theorem checked_advance (before : snapshot.Checked candidate) :
    snapshot.Checked (snapshot.advance candidate choice) := by
  cases ended : candidate.isFinished with
  | true => rwa [advance_of_finished ended]
  | false =>
      rw [advance, ended, if_neg Bool.false_ne_true]
      simp [Checked, Candidate.isFinished, Candidate.parsed]

theorem exists_after_next (found : snapshot.candidates[index]? = some candidate)
    (chunk : Chunk) :
    ∃ later, (snapshot.next chunk).candidates[index]? = some later ∧
      (later = candidate ∨ ∃ choice, later = snapshot.advance candidate choice) := by
  rw [next]
  split
  · exact ⟨candidate, found, .inl rfl⟩
  · obtain ⟨inside, -⟩ := List.getElem?_eq_some_iff.1 found
    have inRange : index < max snapshot.candidates.length (snapshot.followed chunk).length :=
      Nat.lt_of_lt_of_le inside (Nat.le_max_left _ _)
    simp only [nextCandidates, List.getElem?_map, List.getElem?_range inRange, Option.map_some,
      found, Option.getD_some, Option.some.injEq, exists_eq_left']
    split
    · next choice _ => exact .inr ⟨choice, rfl⟩
    · exact .inl rfl

/-- A candidate that has stopped takes no more choices, whatever chunks follow. -/
theorem getElem?_nextAll_of_finished (found : snapshot.candidates[index]? = some candidate)
    (finished : candidate.isFinished = true) (more : List Chunk) :
    (snapshot.nextAll more).candidates[index]? = some candidate := by
  induction more using List.reverseRecOn with
  | nil => exact found
  | append_singleton more chunk ih =>
      rw [nextAll_append_singleton]
      obtain ⟨later, foundLater, rfl | ⟨choice, rfl⟩⟩ := exists_after_next ih chunk
      · exact foundLater
      · rwa [advance_of_finished finished] at foundLater

section

variable {chunks : List Chunk} (empty : snapshot.candidates = [])
include empty

/-- What holds of an empty candidate and is kept by each choice holds after every run. -/
theorem holds_of_candidate_nextAll {holds : Candidate → Prop}
    (found : (snapshot.nextAll chunks).candidates[index]? = some candidate)
    (start : holds { index })
    (step : ∀ candidate choice, holds candidate → holds (snapshot.advance candidate choice)) :
    holds candidate := by
  rw [getElem?_candidates_nextAll empty found]
  exact List.foldlRecOn _ _ start fun candidate before choice _ => step candidate choice before

theorem index_eq (found : (snapshot.nextAll chunks).candidates[index]? = some candidate) :
    candidate.index = index := by
  rw [getElem?_candidates_nextAll empty found, index_foldl_advance]

theorem checked_nextAll (found : (snapshot.nextAll chunks).candidates[index]? = some candidate) :
    snapshot.Checked candidate :=
  holds_of_candidate_nextAll empty found rfl fun _ _ => checked_advance

end

/-! ## Phases -/

theorem phase_nextAll_eq_empty_iff (start : snapshot.phase = .empty) (chunks : List Chunk) :
    (snapshot.nextAll chunks).phase = .empty ↔ chunks = [] := by
  induction chunks using List.reverseRecOn with
  | nil => simp [nextAll, start]
  | append_singleton chunks chunk ih =>
      rw [nextAll_append_singleton, next]
      split
      · next ended => simp [ended]
      · simp only [List.append_eq_nil_iff, List.cons_ne_self, and_false, iff_false]
        split <;> exact Phase.noConfusion

theorem isTerminal_nextAll_iff (started : snapshot.Started) (chunks : List Chunk) :
    (snapshot.nextAll chunks).isTerminal = true ↔
      (snapshot.nextAll chunks).candidates ≠ [] ∧
        ∀ candidate ∈ (snapshot.nextAll chunks).candidates, candidate.isFinished = true := by
  refine ⟨finished_of_isTerminal started.isTerminal_eq_false, fun finished => ?_⟩
  induction chunks using List.reverseRecOn with
  | nil => exact absurd started.candidates_eq_nil finished.1
  | append_singleton chunks chunk _ =>
      rw [nextAll_append_singleton] at finished ⊢
      cases before : (snapshot.nextAll chunks).isTerminal with
      | true => rwa [next_of_isTerminal before]
      | false => exact (isTerminal_next_iff before).2 finished

theorem Started.phase_eq_empty (started : snapshot.Started) : snapshot.phase = .empty := by
  obtain ⟨type, options, rfl⟩ := started.exists_eq
  rfl

/-- After any chunks the phase says whether there were chunks and whether all candidates have
stopped.  Each candidate has the index of its position; it has an outcome exactly when it has
stopped, the one of the full check of its nested value, and is then the same in every later
snapshot.  A stream that is over stays as it is. -/
theorem phases_and_candidates_are_sound (started : snapshot.Started) (chunks : List Chunk) :
    ((snapshot.nextAll chunks).phase = .empty ↔ chunks = []) ∧
    ((snapshot.nextAll chunks).phase = .terminal ↔
      (snapshot.nextAll chunks).candidates ≠ [] ∧
        ∀ candidate ∈ (snapshot.nextAll chunks).candidates, candidate.finish = some .stop) ∧
    (∀ (index : Nat) (candidate : Candidate),
      (snapshot.nextAll chunks).candidates[index]? = some candidate →
      candidate.index = index ∧
      (candidate.terminal.isSome = true ↔ candidate.finish = some .stop) ∧
      (candidate.finish = some .stop →
        (∀ prepared, ofPrepared prepared = .ok snapshot → ∃ record,
          prepared.recordType = .ok record ∧
            candidate.terminal = some (record.validate (Json.unflatten candidate.state.parsed))) ∧
        (∀ options, snapshot = untyped options → candidate.terminal = some (.ok ())) ∧
        ∀ more, (snapshot.nextAll (chunks ++ more)).candidates[index]? = some candidate)) ∧
    ((snapshot.nextAll chunks).phase = .terminal → ∀ chunk,
      (snapshot.nextAll chunks).next chunk = snapshot.nextAll chunks) := by
  have empty := started.candidates_eq_nil
  refine ⟨phase_nextAll_eq_empty_iff started.phase_eq_empty chunks, ?_, ?_, ?_⟩
  · have ends := isTerminal_nextAll_iff started chunks
    simpa only [isTerminal_iff, Candidate.isFinished_iff] using ends
  · intro index candidate found
    have checked := checked_nextAll empty found
    rw [Checked] at checked
    refine ⟨index_eq empty found, ?_, fun stopped => ?_⟩
    · rw [checked, ← Candidate.isFinished_iff]
      split <;> simp_all
    · have finished := Candidate.isFinished_iff.2 stopped
      rw [if_pos finished] at checked
      refine ⟨fun prepared made => ?_, fun options same => ?_, fun more => ?_⟩
      · obtain ⟨record, typed, rfl⟩ := ofPrepared_eq_ok_iff.1 made
        exact ⟨record, typed, checked⟩
      · subst same
        exact checked
      · rw [nextAll_append]
        exact getElem?_nextAll_of_finished found finished more
  · intro ended chunk
    exact next_of_isTerminal (isTerminal_iff.2 ended) chunk

def counting : Prepared where
  document :=
    { root := .apart
        { types := [.object], properties := [("count", .ofType .integer)], required := ["count"] } }
  cyclic := false
  config := {}

def countRecord : RecordType where
  name := "Extraction"
  fields := [⟨"count", .scalar .integer, false, none⟩]

def countStart : Snapshot := { type := some countRecord, options := counting.config.accumulator }

theorem ofPrepared_counting : ofPrepared counting = .ok countStart :=
  ofPrepared_eq_ok_iff.2 ⟨countRecord, by decide +kernel, rfl⟩

/-- The first candidate stops with a text for its count, while the second still waits. -/
def failsEarly : List Chunk :=
  [{ choices :=
      [{ delta := { parsed := [("count", .string "many")] }, finish := some .stop },
        { finish := some .length }] }]

theorem early_failure_is_sound :
    countStart.Started ∧
    (countStart.nextAll failsEarly).phase = .accumulating ∧
    ∀ candidate, (countStart.nextAll failsEarly).candidates[0]? = some candidate →
      candidate.terminal = some (countRecord.validate (.object [("count", .string "many")])) ∧
        ∀ more, (countStart.nextAll (failsEarly ++ more)).candidates[0]? = some candidate := by
  have sound := phases_and_candidates_are_sound (.typed ofPrepared_counting) failsEarly
  refine ⟨.typed ofPrepared_counting, by decide, fun candidate found => ?_⟩
  have stopped : candidate.finish = some .stop := by
    have stops : ∀ candidate ∈ (countStart.nextAll failsEarly).candidates[0]?,
        candidate.finish = some .stop := by decide
    exact stops candidate found
  obtain ⟨typed, -, stays⟩ := (sound.2.2.1 0 candidate found).2.2 stopped
  obtain ⟨record, made, checked⟩ := typed counting ofPrepared_counting
  refine ⟨?_, stays⟩
  have same : record = countRecord := by
    obtain ⟨other, made', start⟩ := ofPrepared_eq_ok_iff.1 ofPrepared_counting
    rw [made] at made'
    cases made'
    exact (Option.some.inj (congrArg Snapshot.type start)).symm
  have view : ∀ candidate ∈ (countStart.nextAll failsEarly).candidates[0]?,
      Json.unflatten candidate.state.parsed = .object [("count", .string "many")] := by decide
  rw [checked, same, view candidate found]

/-! ## Status and result -/

/-- The failure that is reported is that of the first candidate that has one. -/
theorem failure?_eq_some_iff (empty : snapshot.candidates = []) {chunks : List Chunk}
    {failure : TerminalFailure} :
    (snapshot.nextAll chunks).failure? = some failure ↔
      ∃ candidate, (snapshot.nextAll chunks).candidates[failure.choice]? = some candidate ∧
        candidate.terminal = some (.error failure.source) ∧
        ∀ other ∈ (snapshot.nextAll chunks).candidates.take failure.choice,
          other.failure? = none := by
  rw [failure?, List.findSome?_eq_some_iff]
  constructor
  · rintro ⟨before, candidate, after, split, fails, first⟩
    obtain ⟨fault, own, rfl⟩ := Option.map_eq_some_iff.1 fails
    have found : (snapshot.nextAll chunks).candidates[before.length]? = some candidate := by
      simp [split]
    have place : candidate.index = before.length := index_eq empty found
    refine ⟨candidate, place ▸ found, Candidate.failure?_eq_some_iff.1 own, ?_⟩
    rw [place, split, List.take_left]
    exact fun other mem => by simpa using first other mem
  · rintro ⟨candidate, found, fails, first⟩
    obtain ⟨inside, same⟩ := List.getElem?_eq_some_iff.1 found
    refine ⟨(snapshot.nextAll chunks).candidates.take failure.choice, candidate,
      (snapshot.nextAll chunks).candidates.drop (failure.choice + 1), ?_, ?_,
      fun other mem => by simp [first other mem]⟩
    · rw [← same, ← List.drop_eq_getElem_cons inside, List.take_append_drop]
    · rw [Candidate.failure?_eq_some_iff.2 fails, Option.map_some, index_eq empty found]

theorem result_eq_error_iff {failure : TerminalFailure} :
    snapshot.result = .error failure ↔ snapshot.failure? = some failure := by
  rw [result]
  split
  · next other same => simp [same]
  · next same => simp [same]

theorem exists_result_eq_error_iff :
    (∃ failure, snapshot.result = .error failure) ↔ snapshot.failure?.isSome = true := by
  simp only [result_eq_error_iff, Option.isSome_iff_exists]

theorem status_eq_invalid_iff :
    snapshot.status = .invalid ↔
      snapshot.isTerminal = true ∧ ∃ failure, snapshot.result = .error failure := by
  rw [exists_result_eq_error_iff, status]
  split
  · next ended =>
      split
      · next fails => simp [ended, fails]
      · next passes => simp [ended, passes]
  · next running => simp [running]

theorem failure?_of_checked (checked : snapshot.Checked candidate) {fault : ValidationError} :
    candidate.failure? = some fault ↔
      candidate.finish = some .stop ∧ snapshot.outcome candidate.parsed = .error fault := by
  rw [Candidate.failure?_eq_some_iff, checked, ← Candidate.isFinished_iff]
  split <;> simp_all

/-- The status is invalid when the result fails and the stream is over.  So the two agree except
while a candidate that has stopped with data that fail the full check waits for others to stop.
The result always reports the first candidate that has a failure. -/
theorem result_agrees_with_status_iff (started : snapshot.Started) (chunks : List Chunk) :
    (((∃ failure, (snapshot.nextAll chunks).result = .error failure) ↔
        (snapshot.nextAll chunks).status = .invalid) ↔
      ((∃ candidate ∈ (snapshot.nextAll chunks).candidates, candidate.finish = some .stop ∧
          ∃ fault, snapshot.outcome candidate.parsed = .error fault) →
        ∀ candidate ∈ (snapshot.nextAll chunks).candidates, candidate.finish = some .stop)) ∧
    ((snapshot.nextAll chunks).status = .invalid →
      ∃ failure, (snapshot.nextAll chunks).result = .error failure) ∧
    ∀ failure, (snapshot.nextAll chunks).result = .error failure ↔
      ∃ candidate, (snapshot.nextAll chunks).candidates[failure.choice]? = some candidate ∧
        candidate.terminal = some (.error failure.source) ∧
        ∀ other ∈ (snapshot.nextAll chunks).candidates.take failure.choice,
          ∀ fault, other.terminal ≠ some (.error fault) := by
  have empty := started.candidates_eq_nil
  have ends := isTerminal_nextAll_iff started chunks
  have fails : (∃ failure, (snapshot.nextAll chunks).result = .error failure) ↔
      ∃ candidate ∈ (snapshot.nextAll chunks).candidates, candidate.finish = some .stop ∧
        ∃ fault, snapshot.outcome candidate.parsed = .error fault := by
    rw [exists_result_eq_error_iff, failure?, List.findSome?_isSome_iff]
    refine exists_congr fun candidate => and_congr_right fun mem => ?_
    obtain ⟨index, found⟩ := List.getElem?_of_mem mem
    simp only [Option.isSome_map, Option.isSome_iff_exists,
      failure?_of_checked (checked_nextAll empty found), exists_and_left]
  refine ⟨?_, fun invalid => (status_eq_invalid_iff.1 invalid).2, fun failure => ?_⟩
  · rw [status_eq_invalid_iff, fails, ends]
    simp only [Candidate.isFinished_iff]
    constructor
    · intro agree failed
      exact (agree.1 failed).1.2
    · intro stopped
      refine ⟨fun failed => ⟨⟨?_, stopped failed⟩, failed⟩, fun both => both.2⟩
      obtain ⟨candidate, mem, -⟩ := failed
      exact List.ne_nil_of_mem mem
  · rw [result_eq_error_iff, failure?_eq_some_iff empty]
    simp only [Option.eq_none_iff_forall_ne_some, ne_eq, Candidate.failure?_eq_some_iff]

/-- The other candidate stops as well, and fails too, as it has no count. -/
def failsLate : List Chunk := failsEarly ++ [{ choices := [{}, { finish := some .stop }] }]

theorem late_failure_agrees :
    countStart.Started ∧
    ((∃ failure, (countStart.nextAll failsLate).result = .error failure) ↔
      (countStart.nextAll failsLate).status = .invalid) := by
  refine ⟨.typed ofPrepared_counting, ?_⟩
  refine (result_agrees_with_status_iff (.typed ofPrepared_counting) _).1.2 fun _ => ?_
  decide

/-- The result of a stream that still goes on is a failure already. -/
theorem not_result_fails_only_when_invalid :
    ¬ ∀ snapshot : Snapshot, snapshot.Started → ∀ chunks : List Chunk,
      ((∃ failure, (snapshot.nextAll chunks).result = .error failure) ↔
        (snapshot.nextAll chunks).status = .invalid) := by
  intro agree
  have early := agree countStart (.typed ofPrepared_counting) failsEarly
  rw [exists_result_eq_error_iff] at early
  exact absurd (early.1 (by decide)) (by decide)

end Snapshot
end SchemaStream
