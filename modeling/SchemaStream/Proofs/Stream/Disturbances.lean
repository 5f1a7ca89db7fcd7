import SchemaStream.Proofs.Stream.LineReader
import Mathlib.Data.List.Induction

/-!
# Disturbed streams

Failures of the transport may come between any two bytes, and lines that hold no chunk between
any two lines.  They change no snapshot.  Each failure, and each such line that cannot be
decoded, is reported once and in its place, unless the stream was done before it came.
-/

namespace SchemaStream

/-! ## Snapshots of a stream of items -/

namespace Snapshot

theorem follow_append (snapshot : Snapshot) (items others : List StreamItem) :
    snapshot.follow (items ++ others) =
      snapshot.follow items ++ (snapshot.afterItems items).follow others := by
  induction items generalizing snapshot with
  | nil => rfl
  | cons item rest ih =>
      cases item with
      | ok chunk => exact congrArg (List.cons _) (ih _)
      | error error => exact congrArg (List.cons _) (ih _)

theorem length_follow (snapshot : Snapshot) (items : List StreamItem) :
    (snapshot.follow items).length = items.length := by
  induction items generalizing snapshot with
  | nil => rfl
  | cons item rest ih =>
      cases item with
      | ok chunk => exact congrArg (· + 1) (ih _)
      | error error => exact congrArg (· + 1) (ih _)

end Snapshot

theorem SnapshotStream.collect_eq_follow (stream : SnapshotStream) :
    stream.collect = stream.current.follow stream.chunks.collect := by
  rw [ChunkStream.collect_eq_awaited]
  fun_induction collect stream with
  | case1 stream item next found ih =>
      rw [poll] at found
      rw [ih, stream.chunks.awaited_poll]
      split at found
      · next polled => cases found; rw [polled]; rfl
      · next polled => cases found; rw [polled]; rfl
      · cases found
      · cases found
  | case2 stream next found ih =>
      rw [poll] at found
      rw [ih, stream.chunks.awaited_poll]
      split at found
      · cases found
      · cases found
      · next polled => cases found; rw [polled]; rfl
      · cases found
  | case3 stream next found =>
      have ended := stream.poll_eq_ended_iff.1 (by rw [found])
      rw [stream.chunks.awaited_poll, ChunkStream.awaited_of_done (ChunkStream.done_of_poll ended),
        ended]
      rfl

/-! ## Errors in their places -/

namespace Errors

variable {ε α : Type}

/-- Some outcomes with errors put in, each with the number of outcomes that come before it, of
which `passed` have come already. -/
def weave (passed : Nat) (outcomes : List (Except ε α)) : List (Nat × ε) → List (Except ε α)
  | [] => outcomes
  | (place, error) :: rest =>
      outcomes.take (place - passed) ++
        .error error :: weave place (outcomes.drop (place - passed)) rest

variable {passed : Nat} {errors : List (Nat × ε)}

theorem filterMap_weave (passed : Nat) (outcomes : List (Except ε α)) (errors : List (Nat × ε)) :
    (weave passed outcomes errors).filterMap Except.toOption =
      outcomes.filterMap Except.toOption := by
  induction errors generalizing passed outcomes with
  | nil => rfl
  | cons error rest ih =>
      obtain ⟨place, error⟩ := error
      rw [weave, List.filterMap_append, List.filterMap_cons_none rfl, ih, ← List.filterMap_append,
        List.take_append_drop]

theorem weave_append (first later : List (Except ε α))
    (behind : ∀ error ∈ errors, passed + first.length ≤ error.1) :
    weave passed (first ++ later) errors = first ++ weave (passed + first.length) later errors := by
  cases errors with
  | nil => rfl
  | cons error rest =>
      obtain ⟨place, error⟩ := error
      have bound : passed + first.length ≤ place := behind _ List.mem_cons_self
      have long : first.length ≤ place - passed := by omega
      rw [weave, weave, List.take_append, List.drop_append, List.take_of_length_le long,
        List.drop_of_length_le long, List.nil_append, List.append_assoc, Nat.sub_sub]

theorem weave_here (outcomes : List (Except ε α)) (here : List ε) (errors : List (Nat × ε)) :
    weave passed outcomes (here.map (passed, ·) ++ errors) =
      here.map .error ++ weave passed outcomes errors := by
  induction here with
  | nil => rfl
  | cons error rest ih => simp [weave, ih]

end Errors

/-- The errors of a stream are among its snapshots where they are among its items. -/
theorem Snapshot.follow_weave (snapshot : Snapshot) (passed : Nat) (items : List StreamItem)
    (errors : List (Nat × ExtractionError)) :
    snapshot.follow (Errors.weave passed items errors) =
      Errors.weave passed (snapshot.follow items) errors := by
  induction errors generalizing snapshot passed items with
  | nil => rfl
  | cons error rest ih =>
      obtain ⟨place, error⟩ := error
      have split := follow_append snapshot (items.take (place - passed))
        (items.drop (place - passed))
      rw [List.take_append_drop] at split
      rw [Errors.weave, Errors.weave, follow_append, follow, ih, split]
      by_cases short : items.length ≤ place - passed
      · have short' : (snapshot.follow items).length ≤ place - passed :=
          (length_follow snapshot items).trans_le short
        rw [← split, List.take_of_length_le short, List.take_of_length_le short',
          List.drop_of_length_le short', List.drop_of_length_le short, follow]
      · have exact_ : (snapshot.follow (items.take (place - passed))).length = place - passed := by
          rw [length_follow, List.length_take]
          omega
        rw [List.take_left' exact_, List.drop_left' exact_]

/-! ## What comes into a stream -/

namespace Arrival

def byte? : Arrival → Option UInt8
  | .byte found => some found
  | .failure _ => none

def error? : Arrival → Option ExtractionError
  | .byte _ => none
  | .failure message => some (.transport message)

def bytes (arrivals : List Arrival) : List UInt8 := arrivals.filterMap byte?

def errors (arrivals : List Arrival) : List ExtractionError := arrivals.filterMap error?

/-- Whether the next byte begins a line. -/
abbrev AtLineStart (before : List Arrival) : Prop :=
  ∀ byte ∈ (bytes before).getLast?, byte = Line.newline

end Arrival

/-- Whether a line holds no chunk and does not say that the stream is done. -/
def Line.isIdle : Line → Bool
  | .skipped | .chunk (.error _) => true
  | .done | .chunk (.ok _) => false

/-- What is reported of a line that cannot be decoded. -/
def Line.errors : Line → List ExtractionError
  | .chunk (.error fault) => [.decode fault]
  | _ => []

/-- A step from an undisturbed stream to a disturbed one: what comes in both, a failure put in,
or a line put in, given without its newline, with any failures while it comes. -/
inductive Edit where
  | kept (arrival : Arrival)
  | failure (message : String)
  | line (content : List Arrival)

namespace Edit

open Arrival (AtLineStart)

def undisturbed : List Edit → List Arrival
  | [] => []
  | .kept arrival :: rest => arrival :: undisturbed rest
  | .failure _ :: rest | .line _ :: rest => undisturbed rest

def disturbed : List Edit → List Arrival
  | [] => []
  | .kept arrival :: rest => arrival :: disturbed rest
  | .failure message :: rest => .failure message :: disturbed rest
  | .line content :: rest => content ++ .byte Line.newline :: disturbed rest

/-- The content of one line, which is idle. -/
structure Idle (content : List Arrival) : Prop where
  single : Line.newline ∉ Arrival.bytes content
  idle : (Line.ofBytes (Arrival.bytes content)).isIdle = true

instance (content : List Arrival) : Decidable (Idle content) :=
  decidable_of_iff (_ ∧ _) ⟨fun both => ⟨both.1, both.2⟩, fun idle => ⟨idle.single, idle.idle⟩⟩

/-- Whether lines are only put in between lines, and only such that hold no chunk. -/
def WellPlaced (before : List Arrival) : List Edit → Prop
  | [] => True
  | .kept arrival :: rest => WellPlaced (before ++ [arrival]) rest
  | .failure _ :: rest => WellPlaced before rest
  | .line content :: rest => AtLineStart before ∧ Idle content ∧ WellPlaced before rest

instance decidableWellPlaced (before : List Arrival) :
    (edits : List Edit) → Decidable (WellPlaced before edits)
  | [] => isTrue trivial
  | .kept arrival :: rest => decidableWellPlaced (before ++ [arrival]) rest
  | .failure _ :: rest => decidableWellPlaced before rest
  | .line content :: rest =>
      have := decidableWellPlaced before rest
      inferInstanceAs (Decidable (AtLineStart before ∧ Idle content ∧ WellPlaced before rest))

/-- The errors that one step adds. -/
def errors : Edit → List ExtractionError
  | .kept _ => []
  | .failure message => [.transport message]
  | .line content =>
      Arrival.errors content ++ (Line.ofBytes (Arrival.bytes content)).errors

/-- The errors of a step with their place: the number of items that what came before it yields.
Once a stream is done there are none. -/
def placed (before : List Arrival) (edit : Edit) : List (Nat × ExtractionError) :=
  if (LineReader.after {} before).ended then []
  else edit.errors.map ((LineReader.emitted {} before).length, ·)

def added (before : List Arrival) : List Edit → List (Nat × ExtractionError)
  | [] => []
  | .kept arrival :: rest => added (before ++ [arrival]) rest
  | .failure message :: rest => placed before (.failure message) ++ added before rest
  | .line content :: rest => placed before (.line content) ++ added before rest

variable {before : List Arrival} {edits : List Edit} {content : List Arrival}

/-- Failures in the middle of a line are reported before the line, which goes on. -/
theorem yields_content (single : Line.newline ∉ Arrival.bytes content) (line : List UInt8)
    (rest : List Arrival) :
    LineReader.yields { line } (content ++ rest) =
      (Arrival.errors content).map .error ++
        LineReader.yields { line := line ++ Arrival.bytes content } rest := by
  induction content generalizing line with
  | nil => simp [Arrival.bytes, Arrival.errors]
  | cons arrival content ih =>
      cases arrival with
      | failure message =>
          rw [List.cons_append, LineReader.yields_failure, ih single]
          rfl
      | byte byte =>
          have apart : byte ≠ Line.newline ∧ Line.newline ∉ Arrival.bytes content := by
            have single : Line.newline ∉ byte :: Arrival.bytes content := single
            rw [List.mem_cons, not_or] at single
            exact ⟨Ne.symm single.1, single.2⟩
          rw [List.cons_append, LineReader.yields_byte _ apart.1, ih apart.2, List.append_assoc]
          rfl

theorem yields_line (idle : Idle content) (rest : List Arrival) :
    LineReader.yields {} (content ++ .byte Line.newline :: rest) =
      (Edit.line content).errors.map .error ++ LineReader.yields {} rest := by
  rw [yields_content idle.single, List.nil_append, LineReader.yields_newline, errors,
    List.map_append, List.append_assoc]
  have idle := idle.idle
  cases found : Line.ofBytes (Arrival.bytes content) with
  | skipped => rfl
  | done => simp [found, Line.isIdle] at idle
  | chunk read =>
      cases read with
      | error fault => rfl
      | ok chunk => simp [found, Line.isIdle] at idle

/-! ## Disturbances -/

theorem after_append_singleton (before : List Arrival) (arrival : Arrival) :
    LineReader.after {} (before ++ [arrival]) =
      ((LineReader.after {} before).read arrival).1 :=
  LineReader.after_append _ _ _

theorem emitted_append_singleton (before : List Arrival) (arrival : Arrival) :
    LineReader.emitted {} (before ++ [arrival]) =
      LineReader.emitted {} before ++ ((LineReader.after {} before).read arrival).2 := by
  rw [LineReader.emitted_append, LineReader.emitted, LineReader.emitted, List.append_nil]

/-- At the start of a line nothing is at hand of it. -/
theorem after_of_atLineStart (start : AtLineStart before)
    (going : (LineReader.after {} before).ended = false) : LineReader.after {} before = {} := by
  induction before using List.reverseRecOn with
  | nil => rfl
  | append_singleton before arrival ih =>
      have earlier : (LineReader.after {} before).ended = false := by
        by_contra ended
        rw [Bool.not_eq_false] at ended
        rw [after_append_singleton, LineReader.read_of_ended ended, ended] at going
        cases going
      rw [after_append_singleton] at going ⊢
      cases arrival with
      | failure message =>
          rw [LineReader.read_failure earlier]
          refine ih ?_ earlier
          simpa [AtLineStart, Arrival.bytes, Arrival.byte?] using start
      | byte byte =>
          have ends : byte = Line.newline := start byte (by simp [Arrival.bytes, Arrival.byte?])
          rw [ends, LineReader.read_newline earlier, LineReader.finishLine] at going ⊢
          split at going
          · cases going
          · rfl

theorem le_of_mem_added {error : Nat × ExtractionError} (mem : error ∈ added before edits) :
    (LineReader.emitted {} before).length ≤ error.1 := by
  induction edits generalizing before with
  | nil => cases mem
  | cons edit rest ih =>
      have placed (mem : error ∈ edit.placed before) :
          (LineReader.emitted {} before).length ≤ error.1 := by
        rw [Edit.placed] at mem
        split at mem
        · cases mem
        · obtain ⟨_, -, rfl⟩ := List.mem_map.1 mem
          exact Nat.le_refl _
      cases edit with
      | kept arrival =>
          have later := ih mem
          rw [emitted_append_singleton, List.length_append] at later
          omega
      | failure message =>
          rcases List.mem_append.1 mem with mem | mem
          · exact placed mem
          · exact ih mem
      | line content =>
          rcases List.mem_append.1 mem with mem | mem
          · exact placed mem
          · exact ih mem

theorem added_of_ended (ended : (LineReader.after {} before).ended = true) :
    added before edits = [] := by
  induction edits generalizing before with
  | nil => rfl
  | cons edit rest ih =>
      cases edit with
      | kept arrival =>
          refine ih ?_
          rw [after_append_singleton, LineReader.read_of_ended ended]
          exact ended
      | failure message | line content => rw [added, placed, if_pos ended, ih ended]; rfl

/-- What a disturbed stream yields is what the undisturbed one does, with the errors added. -/
theorem yields_disturbed (placed : WellPlaced before edits) :
    (LineReader.after {} before).yields (disturbed edits) =
      Errors.weave (LineReader.emitted {} before).length
        ((LineReader.after {} before).yields (undisturbed edits)) (added before edits) := by
  induction edits generalizing before with
  | nil => rfl
  | cons edit rest ih =>
      by_cases ended : (LineReader.after {} before).ended = true
      · rw [LineReader.yields_of_ended ended, LineReader.yields_of_ended ended,
          added_of_ended ended]
        rfl
      rw [Bool.not_eq_true] at ended
      cases edit with
      | kept arrival =>
          have step := ih placed
          rw [after_append_singleton, emitted_append_singleton, List.length_append] at step
          rw [disturbed, undisturbed, added, LineReader.yields_cons, LineReader.yields_cons,
            Errors.weave_append, step]
          intro error mem
          have later := le_of_mem_added mem
          rwa [emitted_append_singleton, List.length_append] at later
      | failure message =>
          rw [disturbed, undisturbed, added, LineReader.yields_cons, LineReader.read_failure ended,
            ih placed, Edit.placed, if_neg (by simp [ended]), Errors.weave_here]
          rfl
      | line content =>
          obtain ⟨start, idle, placed⟩ := placed
          have step := ih placed
          have fresh := after_of_atLineStart start ended
          rw [fresh] at step
          rw [disturbed, undisturbed, added, fresh, yields_line idle, step, Edit.placed, fresh,
            if_neg (by simp), Errors.weave_here]

end Edit

namespace SnapshotStream

open ChunkStream (arrivals)

/-- A disturbance changes no snapshot, and its errors stand in their places among them. -/
theorem disturbance_is_local (snapshot : Snapshot) {edits : List Edit}
    (placed : Edit.WellPlaced [] edits) {source disturbed : List Part}
    (undisturbed : arrivals source = Edit.undisturbed edits)
    (edited : arrivals disturbed = Edit.disturbed edits) :
    let plain := collect { chunks := { source }, current := snapshot }
    let found := collect { chunks := { source := disturbed }, current := snapshot }
    found.filterMap Except.toOption = plain.filterMap Except.toOption ∧
      found = Errors.weave 0 plain (Edit.added [] edits) := by
  have items := Edit.yields_disturbed placed
  rw [← undisturbed, ← edited] at items
  have woven : collect { chunks := { source := disturbed }, current := snapshot } =
      Errors.weave 0 (collect { chunks := { source }, current := snapshot })
        (Edit.added [] edits) := by
    rw [collect_eq_follow, collect_eq_follow, ChunkStream.collect_source,
      ChunkStream.collect_source, ← Snapshot.follow_weave]
    exact congrArg snapshot.follow items
  refine ⟨?_, woven⟩
  rw [woven, Errors.filterMap_weave]

def written (text : String) : List UInt8 := Utf8.encode text.toList

/-- One chunk and the end mark, then a line that is not read any more. -/
def briefSource : List Part :=
  [.bytes (written "data:\x7b\x7d\ndata:[DO"), .pending, .bytes (written "NE]\ndata:\x7b\x7d\n")]

/-- A failure in the middle of the chunk; then a comment, a line that is no UTF-8 and one that
is no chunk; and after the end mark one more failure and one more such line. -/
def briefEdits : List Edit :=
  (written "data:\x7b").map (.kept ∘ .byte) ++ [.failure "reset"] ++
    (written "\x7d\n").map (.kept ∘ .byte) ++
    [.line ((written ": note").map .byte), .line [.byte 0xC3],
      .line ((written "data:x").map .byte)] ++
    (written "data:[DONE]\n").map (.kept ∘ .byte) ++
    [.failure "late", .line ((written "data:y").map .byte)] ++
    (written "data:\x7b\x7d\n").map (.kept ∘ .byte)

def briefDisturbed : List Part :=
  [.bytes (written "data:\x7b"), .failure "reset", .bytes (written "\x7d\n: note\n" ++ [0xC3]),
    .bytes (written "\ndata:x\ndata:[DONE]\n"), .failure "late",
    .bytes (written "data:y\ndata:\x7b\x7d\n")]

theorem brief_disturbance_is_local :
    Edit.WellPlaced [] briefEdits ∧ arrivals briefSource = Edit.undisturbed briefEdits ∧
      arrivals briefDisturbed = Edit.disturbed briefEdits ∧
      Edit.added [] briefEdits =
        [(0, .transport "reset"), (1, .decode (.invalidUtf8 ⟨0, 1⟩)),
          (1, .decode (.malformedChunk "x"))] ∧
      let plain :=
        collect { chunks := { source := briefSource }, current := Snapshot.untyped {} }
      let found :=
        collect { chunks := { source := briefDisturbed }, current := Snapshot.untyped {} }
      found.filterMap Except.toOption = plain.filterMap Except.toOption ∧
        found = Errors.weave 0 plain (Edit.added [] briefEdits) := by
  have placed : Edit.WellPlaced [] briefEdits := by decide +kernel
  have undisturbed : arrivals briefSource = Edit.undisturbed briefEdits := rfl
  have edited : arrivals briefDisturbed = Edit.disturbed briefEdits := rfl
  refine ⟨placed, undisturbed, edited, by decide +kernel, ?_⟩
  exact disturbance_is_local (Snapshot.untyped {}) placed undisturbed edited

end SnapshotStream

end SchemaStream
