import SchemaStream.Stream.Error
import SchemaStream.Stream.Wire
import SchemaStream.Text.Blank

/-!
# Event streams

Chunks arrive as lines of bytes, each line with data holding one chunk.  A source is polled
for bytes, which come in parts that may be cut anywhere; what has come and is not yet read
waits in a buffer.  A line that cannot be decoded and a failure of the transport are reported
in their places, and reading goes on; the line that says so ends it.
-/

namespace SchemaStream

/-- What a line means. -/
inductive Line where
  | skipped
  | done
  | chunk (read : Except DecodeFault Chunk)

namespace Line

def newline : UInt8 := 10

def dataStart : List Char := ['d', 'a', 't', 'a', ':']

def doneMark : List Char := ['[', 'D', 'O', 'N', 'E', ']']

def ofData (data : List Char) : Line :=
  if data = [] then .skipped
  else if data = doneMark then .done
  else
    match Chunk.ofText? (String.ofList data) with
    | some found => .chunk (.ok found)
    | none => .chunk (.error (.malformedChunk (String.ofList data)))

def ofChars (line : List Char) : Line :=
  match dataStart.isPrefixOf? (Text.trim line) with
  | some data => ofData (Text.trim data)
  | none => .skipped

def ofBytes (line : List UInt8) : Line :=
  match Utf8.decode line with
  | .ok chars => ofChars chars
  | .error fault => .chunk (.error (.invalidUtf8 fault))

/-- The first line in some bytes that is not skipped, and the bytes after it; each line is read
with its newline.  When all whole lines are skipped, the bytes of the unfinished one stay. The
line at hand begins with `start`, latest first. -/
def next (start : List UInt8) : List UInt8 → Line × List UInt8
  | [] => (.skipped, start.reverse)
  | byte :: rest =>
      if byte = newline then
        match ofBytes (byte :: start).reverse with
        | .skipped => next [] rest
        | found => (found, rest)
      else next (byte :: start) rest

end Line

/-- What a poll of the source finds: some bytes, a failure to get any, or nothing yet. -/
inductive Part where
  | bytes (bytes : List UInt8)
  | failure (message : String)
  | pending

def Part.size : Part → Nat
  | .bytes found => found.length + 1
  | .failure _ | .pending => 1

def Part.sizes : List Part → Nat
  | [] => 0
  | part :: rest => part.size + sizes rest

/-- What a poll of a stream finds. -/
inductive Poll (α : Type) where
  | item (value : α)
  | pending
  | ended
  deriving DecidableEq

abbrev StreamItem := Except ExtractionError Chunk

structure ChunkStream where
  /-- What the polls of the source are still to find, after which it ends. -/
  source : List Part
  buffer : List UInt8 := []
  done : Bool := false

namespace ChunkStream

def isBlank (byte : UInt8) : Bool := [9, 10, 12, 13, 32].contains byte

/-- At the end of the source an unfinished line counts as a line. -/
def close (buffer : List UInt8) : Poll StreamItem × ChunkStream :=
  if buffer.all isBlank then (.ended, { source := [], buffer, done := true })
  else
    match Line.next [] (buffer ++ [Line.newline]) with
    | (.chunk read, buffer) =>
        (.item (read.mapError .decode), { source := [], buffer, done := true })
    | (_, buffer) => (.ended, { source := [], buffer, done := true })

/-- The source is only polled when no whole line is left in the buffer. -/
def pull (buffer : List UInt8) (source : List Part) : Poll StreamItem × ChunkStream :=
  match Line.next [] buffer with
  | (.chunk read, buffer) => (.item (read.mapError .decode), { source, buffer })
  | (.done, buffer) => (.ended, { source, buffer, done := true })
  | (.skipped, buffer) =>
      match source with
      | [] => close buffer
      | .bytes bytes :: source => pull (buffer ++ bytes) source
      | .failure message :: source => (.item (.error (.transport message)), { source, buffer })
      | .pending :: source => (.pending, { source, buffer })

def poll (stream : ChunkStream) : Poll StreamItem × ChunkStream :=
  if stream.done then (.ended, stream) else pull stream.buffer stream.source

/-- What the next polls find. -/
def polls (stream : ChunkStream) : Nat → List (Poll StreamItem)
  | 0 => []
  | count + 1 => stream.poll.1 :: stream.poll.2.polls count

/-! ## Running to the end -/

/-- What is left to read: every poll makes it less, unless it finds the end. -/
def remaining (stream : ChunkStream) : Nat :=
  if stream.done then 0 else stream.buffer.length + Part.sizes stream.source + 1

end ChunkStream

theorem Line.length_next_le (start bytes : List UInt8) :
    (next start bytes).2.length ≤ start.length + bytes.length := by
  fun_induction next start bytes with
  | case1 start => simp
  | case3 start rest =>
      simp only [List.length_cons]
      omega
  | case2 start rest _ ih | case4 start byte rest _ ih =>
      simp only [List.length_nil, List.length_cons] at ih ⊢
      omega

/-- A line that counts takes at least its newline. -/
theorem Line.length_next_lt (start bytes : List UInt8)
    (counts : (next start bytes).1 ≠ .skipped) :
    (next start bytes).2.length < start.length + bytes.length := by
  fun_induction next start bytes with
  | case1 start => exact absurd rfl counts
  | case2 start rest _ ih =>
      have := ih counts
      simp only [List.length_nil, List.length_cons] at this ⊢
      omega
  | case3 start rest =>
      simp only [List.length_cons]
      omega
  | case4 start byte rest _ ih =>
      have := ih counts
      simp only [List.length_cons] at this ⊢
      omega

namespace ChunkStream

theorem remaining_close (buffer : List UInt8) : (close buffer).2.remaining = 0 := by
  rw [close]
  split
  · rfl
  · split <;> rfl

theorem remaining_pull_le (buffer : List UInt8) (source : List Part)
    (going : (pull buffer source).1 ≠ .ended) :
    (pull buffer source).2.remaining ≤ buffer.length + Part.sizes source := by
  fun_induction pull buffer source with
  | case1 source buffer read rest found =>
      have less : rest.length < 0 + buffer.length := by
        simpa [found] using Line.length_next_lt [] buffer (by simp [found])
      change rest.length + Part.sizes source + 1 ≤ _
      omega
  | case2 => exact absurd rfl going
  | case3 => simp [remaining_close]
  | case4 buffer rest found bytes source ih =>
      have := Line.length_next_le [] buffer
      have := ih going
      simp_all [Part.sizes, Part.size]
      omega
  | case5 buffer rest found message source | case6 buffer rest found source =>
      have := Line.length_next_le [] buffer
      simp_all [remaining, Part.sizes, Part.size]
      omega

theorem remaining_poll_lt (stream : ChunkStream) (going : stream.poll.1 ≠ .ended) :
    stream.poll.2.remaining < stream.remaining := by
  by_cases done : stream.done = true
  · simp [poll, done] at going
  · rw [poll, if_neg done] at going ⊢
    rw [remaining.eq_def stream, if_neg done]
    exact Nat.lt_succ_of_le (remaining_pull_le _ _ going)

/-- What a stream yields until it ends. -/
def collect (stream : ChunkStream) : List StreamItem :=
  match _ : stream.poll with
  | (.item item, next) => item :: next.collect
  | (.pending, next) => next.collect
  | (.ended, _) => []
termination_by stream.remaining
decreasing_by
  all_goals
    have less := stream.remaining_poll_lt (by simp [*])
    simpa [*] using less

end ChunkStream

def StreamItem.ofParts (source : List Part) : List StreamItem := ChunkStream.collect { source }

/-! ## Snapshots -/

/-- A stream of chunks with the snapshot that they have led to. -/
structure SnapshotStream where
  chunks : ChunkStream
  current : Snapshot

namespace SnapshotStream

/-- Each chunk becomes the snapshot that it leads to; a failure leaves the snapshot as it is. -/
def poll (stream : SnapshotStream) :
    Poll (Except ExtractionError Snapshot) × SnapshotStream :=
  match stream.chunks.poll with
  | (.item (.ok chunk), chunks) =>
      let next := stream.current.next chunk
      (.item (.ok next), { chunks, current := next })
  | (.item (.error error), chunks) => (.item (.error error), { stream with chunks })
  | (.pending, chunks) => (.pending, { stream with chunks })
  | (.ended, chunks) => (.ended, { stream with chunks })

theorem chunks_poll (stream : SnapshotStream) : stream.poll.2.chunks = stream.chunks.poll.2 := by
  rw [poll]
  split <;> simp [*]

theorem poll_eq_ended_iff (stream : SnapshotStream) :
    stream.poll.1 = .ended ↔ stream.chunks.poll.1 = .ended := by
  rw [poll]
  split <;> simp [*]

/-- What a stream yields until it ends. -/
def collect (stream : SnapshotStream) : List (Except ExtractionError Snapshot) :=
  match _ : stream.poll with
  | (.item item, next) => item :: next.collect
  | (.pending, next) => next.collect
  | (.ended, _) => []
termination_by stream.chunks.remaining
decreasing_by
  all_goals
    have going : stream.poll.1 ≠ .ended := by simp [*]
    have less := stream.chunks.remaining_poll_lt (mt stream.poll_eq_ended_iff.2 going)
    rw [← stream.chunks_poll] at less
    simpa [*] using less

end SnapshotStream

/-- The snapshots after the chunks of a stream, failures in their places. -/
def Snapshot.follow (snapshot : Snapshot) :
    List StreamItem → List (Except ExtractionError Snapshot)
  | [] => []
  | .ok chunk :: rest => .ok (snapshot.next chunk) :: (snapshot.next chunk).follow rest
  | .error error :: rest => .error error :: snapshot.follow rest

/-- The snapshot after all chunks of a stream. -/
def Snapshot.afterItems (snapshot : Snapshot) (items : List StreamItem) : Snapshot :=
  snapshot.nextAll (items.filterMap Except.toOption)

end SchemaStream
