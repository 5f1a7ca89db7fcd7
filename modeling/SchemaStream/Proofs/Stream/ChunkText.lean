import SchemaStream.Proofs.Json.RoundTrip
import SchemaStream.Stream.Wire

/-!
# Chunks read back from their text

Whatever the writers of chunks put down or leave out, the readers find again: each field,
each default and each null has one meaning on both sides.
-/

namespace SchemaStream

open Written (ofJson)

/-! ## Lists, maps and nulls -/

namespace Written

variable {α : Type} {toJson : α → Json} {value? : Written → Option α}

theorem mapM_of_forall {β : Type} {f : β → Option α} {g : α → β} {values : List α}
    (read : ∀ value ∈ values, f (g value) = some value) :
    (values.map g).mapM f = some values := by
  induction values with
  | nil => rfl
  | cons value values ih =>
      obtain ⟨first, rest⟩ := List.forall_mem_cons.1 read
      rw [List.map_cons, List.mapM_cons, first, ih rest]
      rfl

theorem list?_ofJson {items : List α}
    (read : ∀ item ∈ items, value? (ofJson (toJson item)) = some item) :
    list? value? (ofJson (.array (items.map toJson))) = some items := by
  rw [ofJson, list?, ofItems_eq_map, List.map_map]
  exact mapM_of_forall read

theorem map?_ofJson {members : Members α} (names : (Members.keys members).Nodup)
    (read : ∀ member ∈ members, value? (ofJson (toJson member.2)) = some member.2) :
    map? value? (ofJson (.object (Members.mapValues toJson members))) = some members := by
  rw [ofJson, map?, ofMembers_eq_map, Members.mapValues, List.map_map, mapM_of_forall]
  · exact congrArg some (Members.ofList_eq_self names)
  · intro member mem
    simp only [Function.comp_apply]
    rw [read member mem]
    rfl

end Written

/-! ## Key mappings and reasons to finish -/

theorem KeyMapping.ofWritten?_ofJson {mapping : KeyMapping}
    (distinct : mapping.toJson.distinct = true) :
    KeyMapping.ofWritten? (ofJson mapping.toJson) = some mapping := by
  obtain ⟨names, -⟩ := Json.distinct_object_iff.1 distinct
  rw [Members.keys_mapValues] at names
  refine Written.map?_ofJson names fun member _ => ?_
  cases member.2 <;> rfl

theorem FinishReason.ofName_name (reason : FinishReason) : ofName reason.name = reason := by
  cases reason <;> rfl

/-! ## Deltas -/

theorem Delta.flat?_ofJson {flat : FlatMap} {room : Nat}
    (distinct : (Json.object flat).distinct = true)
    (shallow : (ofJson (.object flat)).depth ≤ room) :
    flat? room (ofJson (.object flat)) = some flat := by
  obtain ⟨names, inner⟩ := Json.distinct_object_iff.1 distinct
  have read : ∀ member ∈ flat, Written.value? (room - 1) (ofJson (id member.2)) = some member.2 :=
    fun member mem => Written.value?_ofJson (inner member mem) (by
      have := Written.depth_lt_of_mem_object mem
      simp only [id]
      omega)
  have found := Written.map?_ofJson names read
  rwa [Members.mapValues, show flat.map (fun member => (member.1, id member.2)) = flat from
    List.map_id _] at found

theorem Delta.flat?_of_mem {members : List (String × Json)} {flat : FlatMap} {room : Nat}
    (name : String) (distinct : (Json.object members).distinct = true)
    (shallow : (ofJson (.object members)).depth ≤ room) (mem : (name, Json.object flat) ∈ members) :
    flat? (room - 1) (ofJson (.object flat)) = some flat := by
  have inner := (Json.distinct_object_iff.1 distinct).2 _ mem
  have less := Written.depth_lt_of_mem_object mem
  exact flat?_ofJson inner (Nat.le_sub_one_of_lt (Nat.lt_of_lt_of_le less shallow))

theorem Delta.fields?_toJson (delta : Delta) :
    (ofJson delta.toJson).fields? names =
      some [some (ofJson (.string delta.content)), some (ofJson (.object delta.parsed)),
        some (ofJson (.object delta.likelihoods)), some (ofJson (.strings delta.deleted)),
        some (ofJson (.bool delta.validJson)),
        delta.keyMapping.map fun mapping => ofJson mapping.toJson] := by
  rw [toJson]
  cases delta.keyMapping <;> rfl

theorem Delta.keyMapping_ofJson {delta : Delta} (distinct : delta.toJson.distinct = true) :
    Written.fieldOr none (Written.optional? KeyMapping.ofWritten?)
      (delta.keyMapping.map fun mapping => ofJson mapping.toJson) = some delta.keyMapping := by
  rw [toJson] at distinct
  cases found : delta.keyMapping with
  | none => rfl
  | some mapping =>
      have own : mapping.toJson.distinct = true :=
        (Json.distinct_object_iff.1 distinct).2 ("key_mapping", mapping.toJson) (by simp [found])
      have read := KeyMapping.ofWritten?_ofJson own
      rw [Option.map_some, Written.fieldOr, Written.optional?, read]
      rfl

theorem Delta.ofWritten?_ofJson {delta : Delta} {room : Nat}
    (distinct : delta.toJson.distinct = true) (shallow : (ofJson delta.toJson).depth ≤ room) :
    ofWritten? room (ofJson delta.toJson) = some delta := by
  have keyMapping := keyMapping_ofJson distinct
  have deleted : Written.list? Written.string? (ofJson (.strings delta.deleted)) =
      some delta.deleted := Written.list?_ofJson fun _ _ => rfl
  have parsed : flat? (room - 1) (ofJson (.object delta.parsed)) = some delta.parsed :=
    flat?_of_mem "flat_parsed" distinct shallow (by simp)
  have likelihoods : flat? (room - 1) (ofJson (.object delta.likelihoods)) =
      some delta.likelihoods := flat?_of_mem "flat_likelihoods" distinct shallow (by simp)
  rw [ofWritten?, fields?_toJson]
  simp only [Option.bind_eq_bind, Option.bind_some, keyMapping]
  simp only [Written.fieldOr, Written.orNull?]
  rw [deleted, parsed, likelihoods]
  rfl

/-! ## Choices and chunks -/

theorem Choice.fields?_toJson (choice : Choice) :
    (ofJson choice.toJson).fields? ["delta", "finish_reason"] =
      some [some (ofJson choice.delta.toJson),
        choice.finish.map fun reason => ofJson (.string reason.name)] := by
  rw [toJson]
  cases choice.finish <;> rfl

theorem Choice.ofWritten?_ofJson {choice : Choice} {room : Nat}
    (distinct : choice.toJson.distinct = true) (shallow : (ofJson choice.toJson).depth ≤ room) :
    ofWritten? room (ofJson choice.toJson) = some choice := by
  have mem : ("delta", choice.delta.toJson) ∈ ("delta", choice.delta.toJson) ::
    (choice.finish.map fun reason => ("finish_reason", Json.string reason.name)).toList :=
    List.mem_cons_self
  have inner := (Json.distinct_object_iff.1 distinct).2 _ mem
  have less := Written.depth_lt_of_mem_object mem
  have delta := Delta.ofWritten?_ofJson inner
    (Nat.le_sub_one_of_lt (Nat.lt_of_lt_of_le less shallow))
  have finish : Written.fieldOr none (Written.optional? FinishReason.ofWritten?)
      (choice.finish.map fun reason => ofJson (.string reason.name)) = some choice.finish := by
    cases choice.finish with
    | none => rfl
    | some reason => exact congrArg (some ∘ some) reason.ofName_name
  rw [ofWritten?, fields?_toJson]
  simp only [Option.bind_eq_bind, Option.bind_some, finish]
  simp only [Written.fieldOr, Written.orNull?]
  rw [delta]
  rfl

theorem Chunk.ofWritten?_ofJson {chunk : Chunk} {room : Nat}
    (distinct : chunk.toJson.distinct = true) (shallow : (ofJson chunk.toJson).depth ≤ room) :
    ofWritten? room (ofJson chunk.toJson) = some chunk := by
  have mem : ("choices", Json.array (chunk.choices.map Choice.toJson)) ∈
    [("choices", Json.array (chunk.choices.map Choice.toJson))] := List.mem_singleton_self _
  have inner := Json.distinct_array_iff.1 ((Json.distinct_object_iff.1 distinct).2 _ mem)
  have less := Written.depth_lt_of_mem_object mem
  have fields : (ofJson chunk.toJson).fields? ["choices"] =
    some [some (ofJson (.array (chunk.choices.map Choice.toJson)))] := rfl
  have choices : Written.list? (Choice.ofWritten? (room - 2))
      (ofJson (.array (chunk.choices.map Choice.toJson))) = some chunk.choices :=
    Written.list?_ofJson fun choice inside => by
      have inside : choice.toJson ∈ chunk.choices.map Choice.toJson :=
        List.mem_map_of_mem inside
      have deeper := Written.depth_lt_of_mem_array inside
      refine Choice.ofWritten?_ofJson (inner _ inside) ?_
      rw [toJson] at shallow
      dsimp only at less
      omega
  rw [ofWritten?, fields]
  simp only [Option.bind_eq_bind, Option.bind_some]
  simp only [Written.fieldOr, Written.orNull?]
  rw [choices]
  rfl

/-- A chunk is read back from its text. -/
theorem Chunk.ofText?_text {chunk : Chunk} (distinct : chunk.toJson.distinct = true)
    (shallow : (ofJson chunk.toJson).depth ≤ Written.nestingLimit)
    (reads : ∀ x ∈ chunk.toJson.binaries, x.ReadsBack) : ofText? chunk.text = some chunk := by
  rw [ofText?, text, Written.ofText?_text reads, Option.bind_eq_bind, Option.bind_some,
    ofWritten?_ofJson distinct shallow]

end SchemaStream
