import SchemaStream.Proofs.Stream.LineReader

/-!
# Streams by their lines

The bytes of a stream mean what their lines mean, each line by itself, up to the one that
says that the stream is done.  How the bytes were cut into parts does not matter.
-/

namespace SchemaStream

namespace Line

variable {line bytes : List UInt8}

/-! ## The meaning of lines -/

/-- What stands after `data:` on a line, if anything does. -/
def data? (text : List Char) : Option (List Char) :=
  ((dataStart.isPrefixOf? (Text.trim text)).map Text.trim).filter (· ≠ [])

def decodeData (data : List Char) : StreamItem :=
  match Chunk.ofText? (String.ofList data) with
  | some found => .ok found
  | none => .error (.decode (.malformedChunk (String.ofList data)))

/-- What lines yield: a fault for each that is no UTF-8, nothing for the others without data,
and for one with data its chunk or a fault, up to the first that says the stream is done. -/
def decodeLines : List (List UInt8) → List StreamItem
  | [] => []
  | line :: rest =>
      match Utf8.decode line with
      | .error fault => .error (.decode (.invalidUtf8 fault)) :: decodeLines rest
      | .ok text =>
          match data? text with
          | none => decodeLines rest
          | some data => if data = doneMark then [] else decodeData data :: decodeLines rest

theorem ofChars_eq (text : List Char) :
    ofChars text =
      match data? text with
      | none => .skipped
      | some data =>
          if data = doneMark then .done
          else .chunk ((Chunk.ofText? (String.ofList data)).elim
            (.error (.malformedChunk (String.ofList data))) .ok) := by
  rw [ofChars, data?]
  cases dataStart.isPrefixOf? (Text.trim text) with
  | none => rfl
  | some data =>
      dsimp only [Option.map_some]
      by_cases bare : Text.trim data = []
      · simp [ofData, bare, Option.filter]
      · simp only [ofData, bare, if_false, Option.filter_some, ne_eq, not_false_eq_true,
          decide_true, if_true]
        cases Chunk.ofText? (String.ofList (Text.trim data)) <;> rfl

theorem decodeLines_cons (line : List UInt8) (rest : List (List UInt8)) :
    decodeLines (line :: rest) =
      match ofBytes line with
      | .done => []
      | found => found.items ++ decodeLines rest := by
  rw [decodeLines, ofBytes]
  cases Utf8.decode line with
  | error fault => rfl
  | ok text =>
      dsimp only
      rw [ofChars_eq]
      cases data? text with
      | none => rfl
      | some data =>
          dsimp only
          split
          · rfl
          · rw [decodeData]
            cases Chunk.ofText? (String.ofList data) <;> rfl

/-! ## Lines of bytes -/

theorem splitOn_of_not_mem (inside : newline ∉ line) : line.splitOn newline = [line] :=
  List.splitOnP_eq_singleton fun byte mem => by
    simpa using ne_of_mem_of_not_mem mem inside

theorem splitOn_append_newline (inside : newline ∉ line) (rest : List UInt8) :
    (line ++ newline :: rest).splitOn newline = line :: rest.splitOn newline := by
  have apart := splitOn_of_not_mem inside
  rw [List.splitOn] at apart ⊢
  rw [List.splitOnP_append_cons _ _ (by simp), apart]
  rfl

theorem yields_eq_decodeLines (inside : newline ∉ line) (bytes : List UInt8) :
    LineReader.yields { line } (bytes.map .byte) =
      decodeLines ((line ++ bytes).splitOn newline) := by
  induction bytes generalizing line with
  | nil =>
      rw [List.append_nil, splitOn_of_not_mem inside, decodeLines_cons, List.map_nil,
        LineReader.yields_nil, LineReader.close, if_neg (by simp)]
      cases ofBytes line <;> rfl
  | cons byte rest ih =>
      rw [List.map_cons]
      by_cases ends : byte = newline
      · subst ends
        rw [LineReader.yields_newline, splitOn_append_newline inside, decodeLines_cons,
          ih List.not_mem_nil]
        rfl
      · have inside : newline ∉ line ++ [byte] := by simp [inside, Ne.symm ends]
        rw [LineReader.yields_byte line ends, ih inside, List.append_assoc]
        rfl

end Line

/-! ## Polls -/

/-- What polls find that bring these items, one each, and the end from then on. -/
def Poll.answers {α : Type} : List α → Nat → List (Poll α)
  | _, 0 => []
  | [], count + 1 => .ended :: answers [] count
  | value :: rest, count + 1 => .item value :: answers rest count

namespace ChunkStream

variable {stream : ChunkStream}

/-- Whether every poll of the source finds something, or the end. -/
def Prompt (stream : ChunkStream) : Prop := ∀ part ∈ stream.source, part ≠ .pending

theorem prompt_close (buffer : List UInt8) :
    (close buffer).1 ≠ .pending ∧ (close buffer).2.Prompt := by
  rw [close]
  split
  · exact ⟨by simp, by simp [Prompt]⟩
  · split <;> exact ⟨by simp, by simp [Prompt]⟩

theorem prompt_poll (prompt : stream.Prompt) :
    stream.poll.1 ≠ .pending ∧ stream.poll.2.Prompt := by
  rw [poll]
  split
  · exact ⟨by simp, prompt⟩
  · rw [Prompt] at prompt
    generalize stream.buffer = buffer
    generalize stream.source = source at prompt
    fun_induction pull buffer source with
    | case1 | case2 => exact ⟨by simp, prompt⟩
    | case3 buffer rest => exact prompt_close rest
    | case4 buffer rest _ bytes source ih =>
        exact ih (List.forall_mem_cons.1 prompt).2
    | case5 => exact ⟨by simp, (List.forall_mem_cons.1 prompt).2⟩
    | case6 => exact absurd rfl (List.forall_mem_cons.1 prompt).1

theorem polls_eq_answers (prompt : stream.Prompt) (count : Nat) :
    stream.polls count = Poll.answers stream.awaited count := by
  induction count generalizing stream with
  | zero => rw [polls, Poll.answers]
  | succ count ih =>
      obtain ⟨going, later⟩ := prompt_poll prompt
      rw [polls, ih later, stream.awaited_poll]
      cases found : stream.poll.1 with
      | item value => rfl
      | pending => exact absurd found going
      | ended => rw [awaited_of_done (done_of_poll found)]; rfl

theorem awaited_bytes (parts : List (List UInt8)) :
    awaited { source := parts.map .bytes } =
      Line.decodeLines (parts.flatten.splitOn Line.newline) := by
  have brought : arrivals (parts.map .bytes) = parts.flatten.map .byte := by
    rw [arrivals, List.flatMap_map, List.map_flatten]
    rfl
  have read := Line.yields_eq_decodeLines List.not_mem_nil parts.flatten
  rwa [← brought] at read

theorem prompt_bytes (parts : List (List UInt8)) : Prompt { source := parts.map .bytes } := by
  intro part mem
  obtain ⟨bytes, -, rfl⟩ := List.mem_map.1 mem
  simp

/-- However bytes are cut into parts, a stream yields what their lines do, and then it has
ended for good. -/
theorem yields_lines (parts : List (List UInt8)) :
    StreamItem.ofParts (parts.map .bytes) =
        Line.decodeLines (parts.flatten.splitOn Line.newline) ∧
      ∀ count, polls { source := parts.map .bytes } count =
        Poll.answers (Line.decodeLines (parts.flatten.splitOn Line.newline)) count := by
  constructor
  · rw [StreamItem.ofParts, collect_eq_awaited, awaited_bytes]
  · intro count
    rw [polls_eq_answers (prompt_bytes parts), awaited_bytes]

end ChunkStream

end SchemaStream
