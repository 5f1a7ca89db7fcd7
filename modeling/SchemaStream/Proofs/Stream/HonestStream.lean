import SchemaStream.Proofs.Preparation
import SchemaStream.Proofs.Stream.LastValid
import SchemaStream.Proofs.Typing.Cuts
import SchemaStream.Stream.Production

/-!
# Honest streams

A valid value that is streamed leaf by leaf has one candidate, whose view after each chunk is
the value cut after as many leaves.  All these cuts pass the check for data in progress, and
the last is the value itself, so the stream ends complete.
-/

namespace SchemaStream

namespace Choice

/-- One leaf per choice, the last of which stops. -/
def ofLeaves : FlatMap → List Choice
  | [] => [withFinish {} .stop]
  | [(key, value)] => [(withParsed {} key value).withFinish .stop]
  | (key, value) :: rest => withParsed {} key value :: ofLeaves rest

theorem ofLeaves_ne_nil (flat : FlatMap) : ofLeaves flat ≠ [] := by
  match flat with
  | [] | [_] | _ :: _ :: _ => simp [ofLeaves]

theorem length_le_ofLeaves (flat : FlatMap) : flat.length ≤ (ofLeaves flat).length := by
  induction flat using ofLeaves.induct with
  | case1 => exact Nat.zero_le _
  | case2 key value => exact le_rfl
  | case3 key value rest more ih =>
      rw [ofLeaves]
      · exact Nat.succ_le_succ ih
      · exact more

/-- The choices bring the leaves in their order. -/
theorem parsed_take_ofLeaves (flat : FlatMap) (step : Nat) :
    ((ofLeaves flat).take step).flatMap (fun choice => choice.delta.parsed) = flat.take step := by
  induction flat using ofLeaves.induct generalizing step with
  | case1 => cases step <;> simp [ofLeaves, withFinish]
  | case2 key value =>
      cases step <;> simp [ofLeaves, withFinish, withParsed, modifyDelta, Members.insert]
  | case3 key value rest more ih =>
      cases step with
      | zero => rfl
      | succ step =>
          rw [ofLeaves, List.take_succ_cons, List.flatMap_cons, ih, List.take_succ_cons]
          · rfl
          · exact more

theorem deleted_of_mem_ofLeaves {flat : FlatMap} {choice : Choice} (mem : choice ∈ ofLeaves flat) :
    choice.delta.deleted = [] := by
  induction flat using ofLeaves.induct with
  | case1 =>
      rw [ofLeaves, List.mem_singleton] at mem
      rw [mem]
      rfl
  | case2 key value =>
      rw [ofLeaves, List.mem_singleton] at mem
      rw [mem]
      rfl
  | case3 key value rest more ih =>
      rw [ofLeaves] at mem
      · rcases List.mem_cons.1 mem with rfl | mem
        · rfl
        · exact ih mem
      · exact more

theorem upToStop_append_singleton {front : List Choice} {last : Choice}
    (goesOn : ∀ choice ∈ front, choice.finish ≠ some .stop) :
    upToStop (front ++ [last]) = front ++ [last] := by
  induction front with
  | nil =>
      rw [List.nil_append, upToStop]
      split <;> rfl
  | cons choice rest ih =>
      rw [List.forall_mem_cons] at goesOn
      rw [List.cons_append, upToStop, if_neg goesOn.1, ih goesOn.2]

/-- Only the last choice stops. -/
theorem exists_ofLeaves_eq_append (flat : FlatMap) :
    ∃ front last, ofLeaves flat = front ++ [last] ∧
      (∀ choice ∈ front, choice.finish ≠ some .stop) ∧ last.finish = some .stop := by
  induction flat using ofLeaves.induct with
  | case1 => exact ⟨[], _, rfl, nofun, rfl⟩
  | case2 key value => exact ⟨[], _, rfl, nofun, rfl⟩
  | case3 key value rest more ih =>
      obtain ⟨front, last, same, goesOn, stops⟩ := ih
      refine ⟨withParsed {} key value :: front, last, ?_, ?_, stops⟩
      · rw [ofLeaves, same, List.cons_append]
        exact more
      · exact List.forall_mem_cons.2 ⟨nofun, goesOn⟩

end Choice

namespace Chunk

theorem ofLeaves_eq_map (flat : FlatMap) : ofLeaves flat = (Choice.ofLeaves flat).map single := by
  induction flat using Choice.ofLeaves.induct with
  | case1 => rfl
  | case2 key value => rfl
  | case3 key value rest more ih =>
      rw [ofLeaves, Choice.ofLeaves, ih, List.map_cons]
      all_goals exact more

theorem leafByLeaf_eq_map (value : Json) :
    leafByLeaf value = (Choice.ofLeaves value.flatten).map single :=
  ofLeaves_eq_map value.flatten

theorem length_leafByLeaf (value : Json) :
    (leafByLeaf value).length = (Choice.ofLeaves value.flatten).length := by
  rw [leafByLeaf_eq_map, List.length_map]

theorem length_flatten_le_leafByLeaf (value : Json) :
    value.flatten.length ≤ (leafByLeaf value).length :=
  (Choice.length_le_ofLeaves _).trans_eq (length_leafByLeaf value).symm

theorem leafByLeaf_ne_nil (value : Json) : leafByLeaf value ≠ [] := by
  rw [leafByLeaf_eq_map, ne_eq, List.map_eq_nil_iff]
  exact Choice.ofLeaves_ne_nil _

end Chunk

namespace ChoiceState

/-- Deltas that retract nothing add up to all their leaves. -/
theorem parsed_applyAll (state : ChoiceState) {deltas : List Delta}
    (kept : ∀ delta ∈ deltas, delta.deleted = []) :
    (state.applyAll deltas).parsed =
      Members.insertAll state.parsed (deltas.flatMap Delta.parsed) := by
  induction deltas generalizing state with
  | nil => rfl
  | cons delta rest ih =>
      rw [List.forall_mem_cons] at kept
      rw [applyAll, List.foldl_cons, ← applyAll, ih _ kept.2, List.flatMap_cons,
        Members.insertAll_append, apply, merge, kept.1, List.foldl_nil]

end ChoiceState

namespace Table

variable {γ : Type}

theorem column_singletons (changes : List γ) :
    column (changes.map fun change => [change]) 0 = changes := by
  simp [column]

theorem width_singletons (changes : List γ) :
    width (changes.map fun change => [change]) = min 1 changes.length := by
  induction changes using List.reverseRecOn with
  | nil => rfl
  | append_singleton changes change ih =>
      rw [List.map_append, List.map_singleton, width_append_singleton, ih]
      simp

end Table

namespace Snapshot

variable {snapshot : Snapshot} {front : List Choice} {last : Choice}

/-! ## One choice per chunk -/

section

variable (start : snapshot.isTerminal = false) (empty : snapshot.candidates = [])
  (bounded : snapshot.options.maxChoices ≠ some 0)
  (goesOn : ∀ choice ∈ front, choice.finish ≠ some .stop)
include start empty goesOn

theorem running_singles : (snapshot.nextAll (front.map Chunk.single)).isTerminal = false := by
  refine isTerminal_of_goesOn start empty fun chunk mem choice own => ?_
  obtain ⟨choice', below, rfl⟩ := List.mem_map.1 mem
  rw [Chunk.single, List.mem_singleton] at own
  exact own ▸ goesOn choice' below

include bounded

/-- The one candidate takes every choice. -/
theorem candidates_singles :
    (snapshot.nextAll ((front ++ [last]).map Chunk.single)).candidates =
      [(front ++ [last]).foldl snapshot.advance { index := 0 }] := by
  have single (choice : Choice) : snapshot.followed (Chunk.single choice) = [choice] := by
    rw [followed]
    split
    · next bound limited =>
        cases bound with
        | zero => exact absurd limited bounded
        | succ bound => simp [Chunk.single]
    · rfl
  have heard : snapshot.heard ((front ++ [last]).map Chunk.single) =
      (front ++ [last]).map fun choice => [choice] := by
    have running := running_singles start empty goesOn
    rw [List.map_append, List.map_singleton, heard_append_singleton, running,
      if_neg Bool.false_ne_true, heard_of_running running, single]
    simp [single]
  rw [candidates_nextAll empty, heard, Table.width_singletons, List.length_append,
    List.length_singleton, Nat.min_eq_left (by omega), List.range_one, List.map_singleton,
    Table.column_singletons]

theorem isTerminal_singles (stops : last.finish = some .stop) :
    (snapshot.nextAll ((front ++ [last]).map Chunk.single)).isTerminal = true := by
  have candidates : (snapshot.nextAll ((front ++ [last]).map Chunk.single)).candidates =
      [(front ++ [last]).foldl snapshot.advance { index := 0 }] :=
    candidates_singles start empty bounded goesOn
  have running := running_singles start empty goesOn
  rw [List.map_append, List.map_singleton, nextAll_append_singleton] at candidates ⊢
  rw [isTerminal_next_iff running, candidates]
  refine ⟨nofun, fun candidate mem => ?_⟩
  rw [List.mem_singleton.1 mem, isFinished_foldl_advance rfl]
  simp [stops]

end

/-! ## Leaf by leaf -/

/-- Up to each step only the last choice can stop. -/
theorem exists_take_ofLeaves_eq_append {flat : FlatMap} {step : Nat} (positive : 0 < step)
    (within : step ≤ (Choice.ofLeaves flat).length) :
    ∃ front last, (Choice.ofLeaves flat).take step = front ++ [last] ∧
      (∀ choice ∈ front, choice.finish ≠ some .stop) ∧
        (step = (Choice.ofLeaves flat).length → last.finish = some .stop) := by
  obtain ⟨front, last, same, goesOn, stops⟩ := Choice.exists_ofLeaves_eq_append flat
  have length : (Choice.ofLeaves flat).length = front.length + 1 := by simp [same]
  rcases Nat.lt_or_eq_of_le within with before | rfl
  · have taken : (Choice.ofLeaves flat).take step = front.take step := by
      rw [same, List.take_append_of_le_length (by omega)]
    have nonempty : front.take step ≠ [] := by
      rw [← List.length_pos_iff, List.length_take]
      omega
    refine ⟨(front.take step).dropLast, (front.take step).getLast nonempty, ?_, ?_, ?_⟩
    · rw [taken, List.dropLast_append_getLast]
    · intro choice mem
      exact goesOn choice (List.mem_of_mem_take (List.mem_of_mem_dropLast mem))
    · intro all
      omega
  · exact ⟨front, last, by rw [List.take_length, same], goesOn, fun _ => stops⟩

section

variable {members : Members Json} {step : Nat} (start : snapshot.isTerminal = false)
  (empty : snapshot.candidates = []) (bounded : snapshot.options.maxChoices ≠ some 0)
  (positive : 0 < step) (within : step ≤ (Chunk.leafByLeaf (.object members)).length)
include start empty bounded positive within

/-- After each chunk the view of the one candidate is the value cut after as many leaves. -/
theorem exists_candidate_leafByLeaf (distinct : (Json.object members).distinct = true)
    (plain : ∀ name ∈ (Json.object members).names, FlatKey.Plain name) :
    ∃ candidate,
      (snapshot.nextAll ((Chunk.leafByLeaf (.object members)).take step)).candidates =
        [candidate] ∧
      candidate.parsed = (Json.object members).firstLeaves step := by
  rw [Chunk.length_leafByLeaf] at within
  obtain ⟨front, last, taken, goesOn, -⟩ := exists_take_ofLeaves_eq_append positive within
  rw [Chunk.leafByLeaf_eq_map, ← List.map_take, taken,
    candidates_singles start empty bounded goesOn]
  refine ⟨_, rfl, ?_⟩
  have kept : ∀ delta ∈ (front ++ [last]).map Choice.delta, delta.deleted = [] := by
    intro delta mem
    obtain ⟨choice, below, rfl⟩ := List.mem_map.1 mem
    exact Choice.deleted_of_mem_ofLeaves (List.mem_of_mem_take (taken ▸ below))
  have leaves : ((front ++ [last]).map Choice.delta).flatMap Delta.parsed =
      (Json.object members).flatten.take step := by
    rw [List.flatMap_map, ← taken]
    exact Choice.parsed_take_ofLeaves _ step
  have names : (Members.keys ((Json.object members).flatten.take step)).Nodup := by
    rw [Members.keys, List.map_take]
    exact (Members.nodup_keys_ofList _).sublist (List.take_sublist _ _)
  rw [Candidate.parsed, state_foldl_advance rfl, Choice.upToStop_append_singleton goesOn,
    ChoiceState.parsed_applyAll _ kept, leaves]
  -- Leaves have different keys, so none replaces an earlier one.
  change Json.unflatten (Members.ofList _) = _
  rw [Members.ofList_eq_self names, Json.unflatten_take_flatten distinct plain]

end

theorem isTerminal_leafByLeaf (start : snapshot.isTerminal = false)
    (empty : snapshot.candidates = []) (bounded : snapshot.options.maxChoices ≠ some 0)
    (value : Json) : (snapshot.nextAll (Chunk.leafByLeaf value)).isTerminal = true := by
  obtain ⟨front, last, same, goesOn, stops⟩ := Choice.exists_ofLeaves_eq_append value.flatten
  rw [Chunk.leafByLeaf_eq_map, same]
  exact isTerminal_singles start empty bounded goesOn stops

/-- A stream whose candidates have all stopped and are valid as a whole is complete. -/
theorem complete_of_failure?_eq_none (ended : snapshot.isTerminal = true)
    (passed : snapshot.failure? = none) :
    snapshot.phase = .terminal ∧ snapshot.status = .complete ∧ snapshot.result = .ok snapshot := by
  refine ⟨isTerminal_iff.1 ended, ?_, ?_⟩
  · rw [status, if_pos ended, passed]
    rfl
  · rw [result, passed]

theorem allows_of_accepts {record : RecordType} {value : Json} (typed : snapshot.type = some record)
    (accepts : record.toPartial.accepts value = true) : snapshot.allows value = true := by
  rw [allows, typed]
  simp [accepts]

section

variable {record : RecordType} {members : Members Json} (start : snapshot.isTerminal = false)
  (empty : snapshot.candidates = []) (bounded : snapshot.options.maxChoices ≠ some 0)
  (typed : snapshot.type = some record) (admits : record.Admits (.object members))
  (distinct : (Json.object members).distinct = true)
  (plain : ∀ name ∈ (Json.object members).names, FlatKey.Plain name)
include start empty bounded typed admits distinct plain

theorem lastValid_leafByLeaf (lists : record.asField.ListsScalars) {step : Nat}
    (positive : 0 < step) (within : step ≤ (Chunk.leafByLeaf (.object members)).length) :
    ∃ candidate,
      (snapshot.nextAll ((Chunk.leafByLeaf (.object members)).take step)).candidates =
        [candidate] ∧
      candidate.lastValid = some candidate.parsed := by
  obtain ⟨candidate, only, cut⟩ :=
    exists_candidate_leafByLeaf start empty bounded positive within distinct plain
  have found : (snapshot.nextAll
      ((Chunk.leafByLeaf (.object members)).take step)).candidates[0]? = some candidate := by
    rw [only]
    rfl
  refine ⟨candidate, only, lastValid_of_allowed empty found ?_⟩
  rw [cut]
  exact allows_of_accepts typed (RecordType.accepts_firstLeaves lists admits step)

theorem complete_leafByLeaf :
    ∃ final candidate, snapshot.nextAll (Chunk.leafByLeaf (.object members)) = final ∧
      final.phase = .terminal ∧ final.status = .complete ∧ final.candidates = [candidate] ∧
      candidate.parsed = .object members ∧ final.result = .ok final := by
  have chunks := List.length_pos_iff.2 (Chunk.leafByLeaf_ne_nil (.object members))
  obtain ⟨candidate, only, cut⟩ :=
    exists_candidate_leafByLeaf start empty bounded chunks le_rfl distinct plain
  have ended := isTerminal_leafByLeaf start empty bounded (.object members)
  rw [List.take_length] at only
  rw [Json.firstLeaves_of_length_flatten_le distinct plain
    (Chunk.length_flatten_le_leafByLeaf _)] at cut
  have finished := (finished_of_isTerminal start ended).2 candidate (by simp [only])
  have found : (snapshot.nextAll (Chunk.leafByLeaf (.object members))).candidates[0]? =
      some candidate := by
    rw [only]
    rfl
  have passed : candidate.failure? = none := by
    rw [Candidate.failure?, terminal_of_finished empty found finished, cut, outcome, typed]
    dsimp only
    rw [RecordType.validate_eq_ok_iff.2 admits]
  have none : (snapshot.nextAll (Chunk.leafByLeaf (.object members))).failure? = none := by
    rw [failure?, only]
    simp [passed]
  obtain ⟨phase, status, result⟩ := complete_of_failure?_eq_none ended none
  exact ⟨_, candidate, rfl, phase, status, only, cut, result⟩

end

/-- A value of the type of a schema whose enumerations list scalars, streamed leaf by leaf: there
always is one candidate, all of its views pass the check for data in progress, and the stream
ends complete with the value itself. -/
theorem honest_stream_completes {raw value : Json} {config : Config} {document : Document}
    {prepared : Prepared} {record : RecordType} (read : Document.ofJson raw = .ok document)
    (scalars : document.Everywhere fun node =>
      ∀ member ∈ node.enumeration.getD [], member.isScalar = true)
    (bounded : config.accumulator.maxChoices ≠ some 0)
    (parsed : Prepared.ofJson raw config = .ok prepared)
    (made : ofPrepared prepared = .ok snapshot) (typed : prepared.recordType = .ok record)
    (valid : record.validate value = .ok ()) (distinct : value.distinct = true)
    (plain : ∀ name ∈ value.names, FlatKey.Plain name) :
    (∀ step, 0 < step → step ≤ (Chunk.leafByLeaf value).length →
      ∃ candidate,
        (snapshot.nextAll ((Chunk.leafByLeaf value).take step)).candidates = [candidate] ∧
          candidate.lastValid = some candidate.parsed) ∧
    ∃ final candidate, snapshot.nextAll (Chunk.leafByLeaf value) = final ∧
      final.phase = .terminal ∧ final.status = .complete ∧ final.candidates = [candidate] ∧
      candidate.parsed = value ∧ final.result = .ok final := by
  have started : snapshot.Started := .typed made
  obtain ⟨record', typed', rfl⟩ := ofPrepared_eq_ok_iff.1 made
  cases typed.symm.trans typed'
  have admits := RecordType.validate_eq_ok_iff.1 valid
  obtain ⟨members, rfl, -⟩ := FieldType.admits_record_iff.1 admits
  rw [← Prepared.config_of_ofJson parsed] at bounded
  have uses := Prepared.everywhere_of_ofJson (fun _ _ => trivial) read
    (scalars.imp fun node own => ⟨fun _ _ => trivial, own⟩) parsed
  have lists : record.asField.ListsScalars := Document.uses_recordType uses typed
  exact ⟨fun step => lastValid_leafByLeaf started.isTerminal_eq_false started.candidates_eq_nil
      bounded rfl admits distinct plain lists,
    complete_leafByLeaf started.isTerminal_eq_false started.candidates_eq_nil bounded rfl admits
      distinct plain⟩

def invoiceJson : Json :=
  .object
    [("type", .string "object"),
      ("properties", .object
        [("status", .object [("enum", .strings ["open", "paid"])]),
          ("lines", .object
            [("type", .string "array"),
              ("items", .object
                [("type", .string "object"),
                  ("properties", .object
                    [("item", .object [("type", .string "string")]),
                      ("count", .object [("type", .string "integer")])]),
                  ("required", .strings ["item", "count"])])])]),
      ("required", .strings ["status", "lines"])]

def invoiceDocument : Document where
  root := .apart
    { types := [.object]
      properties :=
        [("status", { enumeration := some [.string "open", .string "paid"] }),
          ("lines",
            { types := [.array]
              items := some
                { types := [.object]
                  properties := [("item", .ofType .string), ("count", .ofType .integer)]
                  required := ["item", "count"] } })]
      required := ["status", "lines"] }

def invoicePrepared : Prepared where
  document := invoiceDocument
  cyclic := false
  config := {}

def invoiceRecord : RecordType where
  name := "Extraction"
  fields :=
    [⟨"status", .literal [.string "open", .string "paid"], false, none⟩,
      ⟨"lines",
        .list (.record "LinesItem"
          [⟨"item", .scalar .string, false, none⟩, ⟨"count", .scalar .integer, false, none⟩]),
        false, none⟩]

/-- An invoice whose members are not in the order of the schema. -/
def invoice : Json :=
  .object
    [("lines", .array
        [.object [("item", .string "ink"), ("count", .nat 2)],
          .object [("count", .nat 1), ("item", .string "pen")]]),
      ("status", .string "open")]

theorem invoice_streams_to_completion :
    (invoiceDocument.Everywhere fun node =>
      ∀ member ∈ node.enumeration.getD [], member.isScalar = true) ∧
    invoiceRecord.validate invoice = .ok () ∧
    (∀ name ∈ invoice.names, FlatKey.Plain name) ∧
    ∃ snapshot, ofPrepared invoicePrepared = .ok snapshot ∧
      (Chunk.leafByLeaf invoice).length = 5 ∧
      ∃ final candidate, snapshot.nextAll (Chunk.leafByLeaf invoice) = final ∧
        final.status = .complete ∧ final.candidates = [candidate] ∧
        candidate.parsed = invoice := by
  have scalars : invoiceDocument.Everywhere fun node =>
      ∀ member ∈ node.enumeration.getD [], member.isScalar = true :=
    ⟨by decide, by decide⟩
  have valid : invoiceRecord.validate invoice = .ok () := by decide
  have plain : ∀ name ∈ invoice.names, FlatKey.Plain name := by decide
  have read : Document.ofJson invoiceJson = .ok invoiceDocument := rfl
  have parsed : Prepared.ofJson invoiceJson {} = .ok invoicePrepared :=
    Prepared.ofJson_eq_ok_iff.2 ⟨invoiceDocument, invoiceDocument, read, rfl, rfl⟩
  have typed : invoicePrepared.recordType = .ok invoiceRecord := by decide +kernel
  have made : ofPrepared invoicePrepared =
      .ok { type := some invoiceRecord, options := invoicePrepared.config.accumulator } :=
    ofPrepared_eq_ok_iff.2 ⟨invoiceRecord, typed, rfl⟩
  obtain ⟨-, final, candidate, run, -, complete, only, whole, -⟩ :=
    honest_stream_completes read scalars (by decide) parsed made typed valid (by decide) plain
  exact ⟨scalars, valid, plain, _, made, by decide, final, candidate, run, complete, only, whole⟩

end Snapshot

end SchemaStream
