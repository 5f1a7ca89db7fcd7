import SchemaStream.Proofs.Outcome
import SchemaStream.Stream.Snapshot
import Mathlib.Data.List.Find
import Mathlib.Data.List.Induction

/-!
# The history of a candidate

A snapshot and the plain accumulation of states both keep one entry for each position of the
chunks.  Such a table is known by its columns: an entry is what the choices at its position
make of the empty one, whatever the other positions do.  So a candidate holds the deltas that
came at its position, up to the one that stopped it or until the whole stream was over.
-/

namespace SchemaStream

/-! ## Tables with an entry for each position -/

namespace Table

variable {σ γ : Type} {start : Nat → σ} {step : σ → γ → σ}

/-- The entries after one more row; a position that the row lacks keeps its entry. -/
def advance (start : Nat → σ) (step : σ → γ → σ) (table : List σ) (row : List γ) : List σ :=
  (List.range (max table.length row.length)).map fun index =>
    let entry := table[index]?.getD (start index)
    match row[index]? with
    | some change => step entry change
    | none => entry

/-- What the rows have at a position. -/
def column (rows : List (List γ)) (index : Nat) : List γ := rows.filterMap fun row => row[index]?

def width (rows : List (List γ)) : Nat := (rows.map List.length).foldl max 0

theorem column_append_singleton (rows : List (List γ)) (row : List γ) (index : Nat) :
    column (rows ++ [row]) index = column rows index ++ row[index]?.toList := by
  rw [column, List.filterMap_append]
  cases h : row[index]? <;> simp [column, h]

theorem width_append_singleton (rows : List (List γ)) (row : List γ) :
    width (rows ++ [row]) = max (width rows) row.length := by
  simp [width, List.foldl_append]

theorem column_of_width_le {rows : List (List γ)} {index : Nat} (short : width rows ≤ index) :
    column rows index = [] := by
  induction rows using List.reverseRecOn with
  | nil => rfl
  | append_singleton rows row ih =>
      rw [width_append_singleton, Nat.max_le] at short
      rw [column_append_singleton, ih short.1, List.getElem?_eq_none short.2]
      rfl

theorem column_ne_nil {rows : List (List γ)} {index : Nat} (inside : index < width rows) :
    column rows index ≠ [] := by
  induction rows using List.reverseRecOn with
  | nil => simp [width] at inside
  | append_singleton rows row ih =>
      rw [width_append_singleton] at inside
      rw [column_append_singleton]
      have below : index < width rows ∨ index < row.length := by omega
      rcases below with below | below
      · simp [ih below]
      · simp [below]

theorem exists_row_of_mem_column {rows : List (List γ)} {index : Nat} {change : γ}
    (mem : change ∈ column rows index) : ∃ row ∈ rows, change ∈ row := by
  obtain ⟨row, below, found⟩ := List.mem_filterMap.1 mem
  exact ⟨row, below, List.mem_of_getElem? found⟩

/-- A table is known by its columns. -/
theorem foldl_advance (start : Nat → σ) (step : σ → γ → σ) (rows : List (List γ)) :
    rows.foldl (advance start step) [] =
      (List.range (width rows)).map fun index => (column rows index).foldl step (start index) := by
  induction rows using List.reverseRecOn with
  | nil => rfl
  | append_singleton rows row ih =>
      rw [List.foldl_append, ih, List.foldl_cons, List.foldl_nil, advance, List.length_map,
        List.length_range, width_append_singleton]
      refine List.map_congr_left fun index _ => ?_
      have entry : ((List.range (width rows)).map fun index =>
          (column rows index).foldl step (start index))[index]?.getD (start index) =
            (column rows index).foldl step (start index) := by
        by_cases h : index < width rows
        · simp [h]
        · have short : width rows ≤ index := Nat.le_of_not_lt h
          simp [h, column_of_width_le short]
      rw [entry, column_append_singleton, List.foldl_append]
      cases row[index]? <;> rfl

end Table

namespace ChoiceState

theorem advance_eq :
    advance = fun states chunk =>
      Table.advance (fun _ => {}) (fun state choice => state.apply choice.delta) states
        chunk.choices := by
  funext states chunk
  rw [advance, Table.advance]
  refine List.map_congr_left fun index _ => ?_
  cases chunk.choices[index]? <;> rfl

/-- The states that all chunks add up to, position by position. -/
theorem advanceAll_nil (chunks : List Chunk) :
    advanceAll [] chunks =
      (List.range (Table.width (chunks.map Chunk.choices))).map fun index =>
        applyAll {} ((Table.column (chunks.map Chunk.choices) index).map Choice.delta) := by
  have rows : advanceAll [] chunks = (chunks.map Chunk.choices).foldl
      (Table.advance (fun _ => {}) fun state choice => state.apply choice.delta) [] := by
    rw [List.foldl_map, advanceAll, advance_eq]
  rw [rows, Table.foldl_advance]
  simp only [applyAll, List.foldl_map]

end ChoiceState

/-- The choices up to the first that stops, and that one. -/
def Choice.upToStop : List Choice → List Choice
  | [] => []
  | choice :: rest => if choice.finish = some .stop then [choice] else choice :: upToStop rest

theorem Choice.upToStop_eq_self {choices : List Choice}
    (goesOn : ∀ choice ∈ choices, choice.finish ≠ some .stop) : upToStop choices = choices := by
  induction choices with
  | nil => rfl
  | cons choice rest ih =>
      rw [List.forall_mem_cons] at goesOn
      rw [upToStop, if_neg goesOn.1, ih goesOn.2]

theorem Choice.upToStop_ne_nil {choices : List Choice} (nonempty : choices ≠ []) :
    upToStop choices ≠ [] := by
  cases choices with
  | nil => exact absurd rfl nonempty
  | cons choice rest =>
      rw [upToStop]
      split <;> simp

namespace Snapshot

variable {snapshot : Snapshot} {candidate : Candidate} {choice : Choice}

/-! ## One candidate -/

theorem advance_of_finished (finished : candidate.isFinished = true) :
    snapshot.advance candidate choice = candidate := by
  rw [advance, if_pos finished]

theorem foldl_advance_of_finished (finished : candidate.isFinished = true)
    (choices : List Choice) : choices.foldl snapshot.advance candidate = candidate := by
  induction choices with
  | nil => rfl
  | cons choice rest ih => rw [List.foldl_cons, advance_of_finished finished, ih]

section

variable (running : candidate.isFinished = false)
include running

theorem state_advance :
    (snapshot.advance candidate choice).state = candidate.state.apply choice.delta := by
  simp [advance, running]

theorem isFinished_advance :
    (snapshot.advance candidate choice).isFinished = decide (choice.finish = some .stop) := by
  have before : candidate.finish ≠ some .stop := by simpa [Candidate.isFinished] using running
  cases h : choice.finish <;> simp_all [advance, Candidate.isFinished]

theorem isFinished_foldl_advance (choices : List Choice) :
    (choices.foldl snapshot.advance candidate).isFinished =
      choices.any fun choice => choice.finish = some .stop := by
  induction choices generalizing candidate with
  | nil => exact running
  | cons choice rest ih =>
      rw [List.foldl_cons, List.any_cons]
      by_cases stops : choice.finish = some .stop
      · have finished : (snapshot.advance candidate choice).isFinished = true := by
          simp [isFinished_advance running, stops]
        simp [foldl_advance_of_finished finished, finished, stops]
      · have running' : (snapshot.advance candidate choice).isFinished = false := by
          simp [isFinished_advance running, stops]
        simp [ih running', stops]

/-- A candidate that has not stopped holds the deltas up to the first choice that stops. -/
theorem state_foldl_advance (choices : List Choice) :
    (choices.foldl snapshot.advance candidate).state =
      candidate.state.applyAll ((Choice.upToStop choices).map Choice.delta) := by
  induction choices generalizing candidate with
  | nil => rfl
  | cons choice rest ih =>
      rw [List.foldl_cons, Choice.upToStop]
      split
      · next stops =>
          have finished : (snapshot.advance candidate choice).isFinished = true := by
            simp [isFinished_advance running, stops]
          rw [foldl_advance_of_finished finished, state_advance running]
          rfl
      · next goesOn =>
          have running' : (snapshot.advance candidate choice).isFinished = false := by
            simp [isFinished_advance running, goesOn]
          rw [ih running', state_advance running]
          rfl

end

theorem index_advance : (snapshot.advance candidate choice).index = candidate.index := by
  rw [advance]
  split <;> rfl

theorem index_foldl_advance (choices : List Choice) :
    (choices.foldl snapshot.advance candidate).index = candidate.index := by
  induction choices generalizing candidate with
  | nil => rfl
  | cons choice rest ih => rw [List.foldl_cons, ih, index_advance]

/-! ## Runs -/

theorem nextAll_append (snapshot : Snapshot) (first second : List Chunk) :
    snapshot.nextAll (first ++ second) = (snapshot.nextAll first).nextAll second :=
  List.foldl_append

theorem nextAll_append_singleton (snapshot : Snapshot) (chunks : List Chunk) (chunk : Chunk) :
    snapshot.nextAll (chunks ++ [chunk]) = (snapshot.nextAll chunks).next chunk :=
  nextAll_append snapshot chunks [chunk]

theorem isTerminal_iff : snapshot.isTerminal = true ↔ snapshot.phase = .terminal := by
  simp [isTerminal]

theorem phase_ne_terminal (running : snapshot.isTerminal = false) :
    snapshot.phase ≠ .terminal := by
  rw [ne_eq, ← isTerminal_iff, running]
  exact Bool.false_ne_true

theorem next_of_isTerminal (ended : snapshot.isTerminal = true) (chunk : Chunk) :
    snapshot.next chunk = snapshot := by
  rw [next, if_pos (isTerminal_iff.1 ended)]

theorem nextAll_of_isTerminal (ended : snapshot.isTerminal = true) (chunks : List Chunk) :
    snapshot.nextAll chunks = snapshot := by
  induction chunks with
  | nil => rfl
  | cons chunk rest ih =>
      rw [nextAll, List.foldl_cons, next_of_isTerminal ended]
      exact ih

/-- What a snapshot checks its candidates against stays the same. -/
theorem type_options_nextAll (snapshot : Snapshot) (chunks : List Chunk) :
    (snapshot.nextAll chunks).type = snapshot.type ∧
      (snapshot.nextAll chunks).options = snapshot.options := by
  induction chunks using List.reverseRecOn with
  | nil => exact ⟨rfl, rfl⟩
  | append_singleton chunks chunk ih =>
      rw [nextAll_append_singleton, next]
      split <;> exact ih

theorem advance_congr {other : Snapshot} (type : snapshot.type = other.type)
    (options : snapshot.options = other.options) : snapshot.advance = other.advance := by
  obtain ⟨_, _, candidates, phase⟩ := snapshot
  subst type options
  rfl

theorem nextCandidates_eq (snapshot : Snapshot) (chunk : Chunk) :
    snapshot.nextCandidates chunk =
      Table.advance (fun index => { index }) snapshot.advance snapshot.candidates
        (snapshot.followed chunk) := by
  rw [nextCandidates, Table.advance]
  refine List.map_congr_left fun index _ => ?_
  split <;> rename_i h <;> rw [h]

theorem nextCandidates_nextAll (snapshot : Snapshot) (chunks : List Chunk) (chunk : Chunk) :
    (snapshot.nextAll chunks).nextCandidates chunk =
      Table.advance (fun index => { index }) snapshot.advance (snapshot.nextAll chunks).candidates
        (snapshot.followed chunk) := by
  obtain ⟨type, options⟩ := type_options_nextAll snapshot chunks
  rw [nextCandidates_eq, advance_congr type options, followed, options, followed]

/-- The first step after which a stream is over, or else its last. -/
def lastStep (snapshot : Snapshot) (chunks : List Chunk) : Nat :=
  ((List.range chunks.length).find? fun step =>
    (snapshot.nextAll (chunks.take step)).isTerminal).getD chunks.length

/-- The choices of each chunk that are followed, until the stream is over. -/
def heard (snapshot : Snapshot) (chunks : List Chunk) : List (List Choice) :=
  (chunks.take (snapshot.lastStep chunks)).map snapshot.followed

/-- The deltas that come at a position, up to the one that stops. -/
def deltasAt (snapshot : Snapshot) (chunks : List Chunk) (index : Nat) : List Delta :=
  (Choice.upToStop (Table.column (snapshot.heard chunks) index)).map Choice.delta

theorem isTerminal_of_take {chunks : List Chunk} {step : Nat}
    (ended : (snapshot.nextAll (chunks.take step)).isTerminal = true) :
    (snapshot.nextAll chunks).isTerminal = true := by
  rw [← List.take_append_drop step chunks, nextAll_append, nextAll_of_isTerminal ended]
  exact ended

/-- A stream that is not over was not over at any step. -/
theorem find?_of_running {chunks : List Chunk}
    (running : (snapshot.nextAll chunks).isTerminal = false) :
    (List.range chunks.length).find? (fun step =>
      (snapshot.nextAll (chunks.take step)).isTerminal) = none := by
  refine List.find?_eq_none.2 fun step _ ended => ?_
  rw [isTerminal_of_take ended] at running
  cases running

theorem lastStep_append_singleton (snapshot : Snapshot) (chunks : List Chunk) (chunk : Chunk) :
    snapshot.lastStep (chunks ++ [chunk]) =
      if (snapshot.nextAll chunks).isTerminal then snapshot.lastStep chunks
      else chunks.length + 1 := by
  have earlier : (List.range chunks.length).find? (fun step =>
      (snapshot.nextAll ((chunks ++ [chunk]).take step)).isTerminal) =
        (List.range chunks.length).find? fun step =>
          (snapshot.nextAll (chunks.take step)).isTerminal := by
    refine List.find?_congr fun step mem => ?_
    rw [List.take_append_of_le_length (Nat.le_of_lt (List.mem_range.1 mem))]
  rw [lastStep, List.length_append, List.length_singleton, List.range_succ, List.find?_append,
    earlier]
  cases ended : (snapshot.nextAll chunks).isTerminal with
  | true => simp [lastStep, ended]
  | false => simp [find?_of_running ended, ended]

theorem lastStep_le (snapshot : Snapshot) (chunks : List Chunk) :
    snapshot.lastStep chunks ≤ chunks.length := by
  rw [lastStep]
  cases found : (List.range chunks.length).find? fun step =>
      (snapshot.nextAll (chunks.take step)).isTerminal with
  | none => exact Nat.le_refl _
  | some step => exact Nat.le_of_lt (List.mem_range.1 (List.mem_of_find?_eq_some found))

theorem heard_of_running {chunks : List Chunk}
    (running : (snapshot.nextAll chunks).isTerminal = false) :
    snapshot.heard chunks = chunks.map snapshot.followed := by
  rw [heard, lastStep, find?_of_running running, Option.getD_none, List.take_length]

theorem heard_append_singleton (snapshot : Snapshot) (chunks : List Chunk) (chunk : Chunk) :
    snapshot.heard (chunks ++ [chunk]) =
      if (snapshot.nextAll chunks).isTerminal then snapshot.heard chunks
      else snapshot.heard chunks ++ [snapshot.followed chunk] := by
  rw [heard, lastStep_append_singleton]
  cases ended : (snapshot.nextAll chunks).isTerminal with
  | true =>
      -- The last step lies within the earlier chunks, so the new one is not heard.
      rw [if_pos rfl, if_pos rfl, List.take_append_of_le_length (lastStep_le snapshot chunks),
        heard]
  | false =>
      rw [if_neg Bool.false_ne_true, if_neg Bool.false_ne_true, heard_of_running ended,
        List.take_of_length_le (by simp), List.map_append]
      rfl

/-- A run keeps, at each position, what its choices make of an empty candidate. -/
theorem candidates_nextAll (empty : snapshot.candidates = []) (chunks : List Chunk) :
    (snapshot.nextAll chunks).candidates =
      (List.range (Table.width (snapshot.heard chunks))).map fun index =>
        (Table.column (snapshot.heard chunks) index).foldl snapshot.advance { index } := by
  rw [← Table.foldl_advance (fun index => { index }) snapshot.advance]
  induction chunks using List.reverseRecOn with
  | nil => exact empty
  | append_singleton chunks chunk ih =>
      rw [nextAll_append_singleton, heard_append_singleton]
      cases ended : (snapshot.nextAll chunks).isTerminal with
      | true => rw [next_of_isTerminal ended, if_pos rfl, ih]
      | false =>
          rw [next, if_neg (phase_ne_terminal ended), if_neg Bool.false_ne_true,
            List.foldl_append, ← ih]
          exact nextCandidates_nextAll snapshot chunks chunk

theorem getElem?_candidates_nextAll (empty : snapshot.candidates = []) {chunks : List Chunk}
    {index : Nat} {candidate : Candidate}
    (found : (snapshot.nextAll chunks).candidates[index]? = some candidate) :
    candidate = (Table.column (snapshot.heard chunks) index).foldl snapshot.advance { index } := by
  rw [candidates_nextAll empty, List.getElem?_map, Option.map_eq_some_iff] at found
  obtain ⟨position, inRange, rfl⟩ := found
  rw [List.getElem?_eq_some_iff] at inRange
  obtain ⟨_, rfl⟩ := inRange
  rw [List.getElem_range]

theorem isTerminal_next_iff (running : snapshot.isTerminal = false) {chunk : Chunk} :
    (snapshot.next chunk).isTerminal = true ↔
      (snapshot.next chunk).candidates ≠ [] ∧
        ∀ candidate ∈ (snapshot.next chunk).candidates, candidate.isFinished = true := by
  rw [isTerminal_iff, next, if_neg (phase_ne_terminal running)]
  simp

/-- A stream is over when all candidates have stopped. -/
theorem finished_of_isTerminal (start : snapshot.isTerminal = false) {chunks : List Chunk}
    (ended : (snapshot.nextAll chunks).isTerminal = true) :
    (snapshot.nextAll chunks).candidates ≠ [] ∧
      ∀ candidate ∈ (snapshot.nextAll chunks).candidates, candidate.isFinished = true := by
  induction chunks using List.reverseRecOn with
  | nil =>
      rw [nextAll, List.foldl_nil, start] at ended
      cases ended
  | append_singleton chunks chunk ih =>
      rw [nextAll_append_singleton] at ended ⊢
      cases before : (snapshot.nextAll chunks).isTerminal with
      | true =>
          rw [next_of_isTerminal before]
          exact ih before
      | false => exact (isTerminal_next_iff before).1 ended

/-- Without a choice that stops, a stream is never over. -/
theorem isTerminal_of_goesOn (start : snapshot.isTerminal = false)
    (empty : snapshot.candidates = []) {chunks : List Chunk}
    (goesOn : ∀ chunk ∈ chunks, ∀ choice ∈ chunk.choices, choice.finish ≠ some .stop) :
    (snapshot.nextAll chunks).isTerminal = false := by
  by_contra ended
  obtain ⟨some, finished⟩ := finished_of_isTerminal start (Bool.not_eq_false _ ▸ ended)
  obtain ⟨candidate, mem⟩ := List.exists_mem_of_ne_nil _ some
  obtain ⟨index, found⟩ := List.getElem?_of_mem mem
  have stopped := finished candidate mem
  rw [getElem?_candidates_nextAll empty found, isFinished_foldl_advance rfl,
    List.any_eq_true] at stopped
  obtain ⟨choice, heard, stops⟩ := stopped
  obtain ⟨row, below, inRow⟩ := Table.exists_row_of_mem_column heard
  obtain ⟨chunk, taken, rfl⟩ := List.mem_map.1 below
  have own : choice ∈ chunk.choices := by
    rw [followed] at inRow
    split at inRow
    · exact List.mem_of_mem_take inRow
    · exact inRow
  exact goesOn chunk (List.mem_of_mem_take taken) choice own (of_decide_eq_true stops)

/-! ## Streams from their start -/

/-- A snapshot from which a stream starts. -/
inductive Started : Snapshot → Prop
  | typed {prepared : Prepared} {snapshot : Snapshot} (made : ofPrepared prepared = .ok snapshot) :
      Started snapshot
  | untyped (options : AccumulatorOptions) : Started (Snapshot.untyped options)

theorem ofPrepared_eq_ok_iff {prepared : Prepared} :
    ofPrepared prepared = .ok snapshot ↔ ∃ record, prepared.recordType = .ok record ∧
      snapshot = { type := some record, options := prepared.config.accumulator } := by
  rw [ofPrepared, Outcome.bind_eq_ok_iff]
  simp [pure, Except.pure, eq_comm]

theorem Started.exists_eq (started : snapshot.Started) :
    ∃ type options, snapshot = { type, options } := by
  cases started with
  | typed made =>
      obtain ⟨record, -, same⟩ := ofPrepared_eq_ok_iff.1 made
      exact ⟨some record, _, same⟩
  | untyped options => exact ⟨none, options, rfl⟩

theorem Started.candidates_eq_nil (started : snapshot.Started) : snapshot.candidates = [] := by
  obtain ⟨type, options, rfl⟩ := started.exists_eq
  rfl

theorem Started.isTerminal_eq_false (started : snapshot.Started) :
    snapshot.isTerminal = false := by
  obtain ⟨type, options, rfl⟩ := started.exists_eq
  rfl

/-- No delta is lost, taken twice or taken by another candidate: until the stream is over there
are as many candidates as a chunk has had choices, and each holds the deltas of its position up
to the one that stopped it.  If none stops and there is no bound on the candidates, these are
the states of the plain accumulation. -/
theorem candidates_hold_their_deltas (started : snapshot.Started) (chunks : List Chunk) :
    (snapshot.nextAll chunks).candidates.length =
        ((snapshot.heard chunks).map List.length).foldl max 0 ∧
      (∀ index candidate, (snapshot.nextAll chunks).candidates[index]? = some candidate →
        candidate.index = index ∧
          candidate.state = ChoiceState.applyAll {} (snapshot.deltasAt chunks index)) ∧
      (snapshot.options.maxChoices = none →
        (∀ chunk ∈ chunks, ∀ choice ∈ chunk.choices, choice.finish ≠ some .stop) →
        (snapshot.nextAll chunks).candidates.map Candidate.state =
          ChoiceState.advanceAll [] chunks) := by
  have candidates := candidates_nextAll started.candidates_eq_nil chunks
  refine ⟨?_, ?_, ?_⟩
  · rw [candidates, List.length_map, List.length_range, Table.width]
  · intro index candidate found
    rw [getElem?_candidates_nextAll started.candidates_eq_nil found]
    exact ⟨index_foldl_advance _, state_foldl_advance rfl _⟩
  · intro unbounded goesOn
    have rows : snapshot.heard chunks = chunks.map Chunk.choices := by
      rw [heard_of_running (isTerminal_of_goesOn started.isTerminal_eq_false
        started.candidates_eq_nil goesOn)]
      refine List.map_congr_left fun chunk _ => ?_
      rw [followed, unbounded]
    rw [candidates, rows, ChoiceState.advanceAll_nil, List.map_map]
    refine List.map_congr_left fun index _ => ?_
    have whole : Choice.upToStop (Table.column (chunks.map Chunk.choices) index) =
        Table.column (chunks.map Chunk.choices) index := by
      refine Choice.upToStop_eq_self fun choice mem => ?_
      obtain ⟨row, below, inRow⟩ := Table.exists_row_of_mem_column mem
      obtain ⟨chunk, taken, rfl⟩ := List.mem_map.1 below
      exact goesOn chunk taken choice inRow
    rw [Function.comp_apply, state_foldl_advance rfl, whole]

/-- Three chunks for at most two candidates: the second candidate comes late, the first stops
before the end, and a third choice is beyond the bound. -/
def interleaved : List Chunk :=
  [{ choices := [{ delta := { parsed := [("a", .nat 1)] } }] },
    { choices :=
        [{ delta := { parsed := [("b", .nat 2)] }, finish := some .stop },
          { delta := { parsed := [("a", .nat 3)] } }, { delta := { parsed := [("a", .nat 9)] } }] },
    { choices :=
        [{ delta := { parsed := [("a", .nat 9)] } },
          { delta := { deleted := ["a"], parsed := [("c", .nat 4)] } }] }]

theorem interleaved_candidates_hold_their_deltas :
    (untyped { maxChoices := some 2 }).Started ∧
      ((untyped { maxChoices := some 2 }).nextAll interleaved).candidates.length = 2 ∧
      ∀ index candidate,
        ((untyped { maxChoices := some 2 }).nextAll interleaved).candidates[index]? =
          some candidate →
        candidate.state.parsed =
          if index = 0 then [("a", .nat 1), ("b", .nat 2)] else [("c", .nat 4)] := by
  have hold := candidates_hold_their_deltas (.untyped { maxChoices := some 2 }) interleaved
  refine ⟨.untyped _, hold.1.trans (by decide), fun index candidate found => ?_⟩
  have below : index < 2 := by
    obtain ⟨inRange, -⟩ := List.getElem?_eq_some_iff.1 found
    exact lt_of_lt_of_eq inRange (hold.1.trans (by decide))
  rw [(hold.2.1 index candidate found).2]
  match index, below with
  | 0, _ => decide
  | 1, _ => decide

end Snapshot

end SchemaStream
