import SchemaStream.Stream.Events
import SchemaStream.Proofs.Text.Blank
import SchemaStream.Proofs.Text.Utf8

/-!
# Reading one byte at a time

A stream keeps what has come in a buffer, and how much that is depends on how its bytes are
cut into parts.  A reader that takes them one at a time only keeps the line at hand.  Both
yield the same, so nothing that a stream yields depends on the cuts, or on polls of its source
that find nothing yet.
-/

namespace SchemaStream

/-! ## Lines -/

theorem Utf8.decode_ascii {bytes : List UInt8} (ascii : ∀ byte ∈ bytes, byte.toNat < 0x80) :
    decode bytes = .ok (bytes.map fun byte => Char.ofNat byte.toNat) := by
  suffices ∀ index, decodeFrom index .between bytes =
      .ok (bytes.map fun byte => Char.ofNat byte.toNat) from this 0
  induction bytes with
  | nil => exact fun _ => rfl
  | cons byte rest ih =>
      intro index
      rw [List.forall_mem_cons] at ascii
      rw [decodeFrom_ascii ascii.1, ih ascii.2]
      rfl

namespace Line

variable {start bytes rest : List UInt8}

/-- What a line yields. -/
def items : Line → List StreamItem
  | .chunk read => [read.mapError .decode]
  | _ => []

theorem ofChars_append_lineFeed (text : List Char) : ofChars (text ++ ['\n']) = ofChars text := by
  rw [ofChars, ofChars, Text.trim_append_blank text (by decide)]

/-- The newline that ends a line does not matter to it. -/
theorem ofBytes_append_newline (line : List UInt8) :
    ofBytes (line ++ [newline]) = ofBytes line := by
  rw [ofBytes, ofBytes, newline, Utf8.decode_append_lineFeed]
  cases Utf8.decode line with
  | error fault => rfl
  | ok text => exact ofChars_append_lineFeed text

theorem ofBytes_of_blank (blank : ∀ byte ∈ bytes, ChunkStream.isBlank byte = true) :
    ofBytes bytes = .skipped := by
  have each (byte : UInt8) (mem : byte ∈ bytes) :
      byte.toNat < 0x80 ∧ Text.isBlank (Char.ofNat byte.toNat) = true := by
    have h := blank byte mem
    simp only [ChunkStream.isBlank, List.contains_eq_mem, List.mem_cons, List.not_mem_nil,
      or_false, decide_eq_true_eq] at h
    rcases h with rfl | rfl | rfl | rfl | rfl <;> decide
  rw [ofBytes, Utf8.decode_ascii fun byte mem => (each byte mem).1]
  dsimp only
  rw [ofChars, Text.trim_of_blank]
  · rfl
  · intro c mem
    obtain ⟨byte, below, rfl⟩ := List.mem_map.1 mem
    exact (each byte below).2

theorem next_newline (start rest : List UInt8) :
    next start (newline :: rest) =
      match ofBytes start.reverse with
      | .skipped => next [] rest
      | found => (found, rest) := by
  cases found : ofBytes start.reverse <;> simp [next, ofBytes_append_newline, found]

theorem next_of_ne {byte : UInt8} (inside : byte ≠ newline) (start rest : List UInt8) :
    next start (byte :: rest) = next (byte :: start) rest := by
  rw [next, if_neg inside]

theorem next_line (start : List UInt8) {line : List UInt8} (inside : newline ∉ line)
    (rest : List UInt8) :
    next start (line ++ newline :: rest) =
      match ofBytes (start.reverse ++ line) with
      | .skipped => next [] rest
      | found => (found, rest) := by
  induction line generalizing start with
  | nil => rw [List.nil_append, List.append_nil, next_newline]
  | cons byte line ih =>
      rw [List.mem_cons, not_or] at inside
      rw [List.cons_append, next_of_ne (Ne.symm inside.1), ih _ inside.2, List.reverse_cons,
        List.append_assoc, List.singleton_append]

/-- When every whole line is skipped, no whole line is left. -/
theorem newline_not_mem_of_next (skipped : (next start bytes).1 = .skipped)
    (before : newline ∉ start) : newline ∉ (next start bytes).2 := by
  fun_induction next start bytes with
  | case1 start => simpa using before
  | case2 start rest _ ih => exact ih skipped List.not_mem_nil
  | case3 start rest counts => exact absurd skipped counts
  | case4 start byte rest inside ih => exact ih skipped (by simp [Ne.symm inside, before])

end Line

/-! ## The reader -/

/-- What a source brings, one byte or failure at a time. -/
inductive Arrival where
  | byte (byte : UInt8)
  | failure (message : String)

def Part.arrivals : Part → List Arrival
  | .bytes found => found.map .byte
  | .failure message => [.failure message]
  | .pending => []

/-- The bytes of the line at hand, and whether reading has ended. -/
structure LineReader where
  line : List UInt8 := []
  ended : Bool := false
  deriving DecidableEq, Repr

namespace LineReader

/-- Reads the line at hand and starts the next one. -/
def finishLine (reader : LineReader) : LineReader × List StreamItem :=
  match Line.ofBytes reader.line with
  | .done => ({ ended := true }, [])
  | found => ({}, found.items)

def read (reader : LineReader) (arrival : Arrival) : LineReader × List StreamItem :=
  if reader.ended then (reader, [])
  else
    match arrival with
    | .failure message => (reader, [.error (.transport message)])
    | .byte byte =>
        if byte = Line.newline then reader.finishLine
        else ({ line := reader.line ++ [byte] }, [])

def after (reader : LineReader) (arrivals : List Arrival) : LineReader :=
  arrivals.foldl (fun reader arrival => (reader.read arrival).1) reader

/-- What is yielded when some arrivals have been read. -/
def emitted (reader : LineReader) : List Arrival → List StreamItem
  | [] => []
  | arrival :: rest => (reader.read arrival).2 ++ (reader.read arrival).1.emitted rest

/-- At the end an unfinished line counts as a line. -/
def close (reader : LineReader) : List StreamItem :=
  if reader.ended then [] else (Line.ofBytes reader.line).items

/-- What is yielded until the end, if these are all arrivals. -/
def yields (reader : LineReader) (arrivals : List Arrival) : List StreamItem :=
  reader.emitted arrivals ++ (reader.after arrivals).close

variable {reader : LineReader} {arrivals : List Arrival}

theorem yields_nil (reader : LineReader) : reader.yields [] = reader.close := rfl

theorem yields_cons (reader : LineReader) (arrival : Arrival) (rest : List Arrival) :
    reader.yields (arrival :: rest) =
      (reader.read arrival).2 ++ (reader.read arrival).1.yields rest := by
  rw [yields, emitted, List.append_assoc]
  rfl

theorem emitted_append (reader : LineReader) (before rest : List Arrival) :
    reader.emitted (before ++ rest) =
      reader.emitted before ++ (reader.after before).emitted rest := by
  induction before generalizing reader with
  | nil => rfl
  | cons arrival before ih =>
      rw [List.cons_append, emitted, emitted, ih, List.append_assoc]
      rfl

theorem after_append (reader : LineReader) (before rest : List Arrival) :
    reader.after (before ++ rest) = (reader.after before).after rest :=
  List.foldl_append

theorem read_of_ended (ended : reader.ended = true) (arrival : Arrival) :
    reader.read arrival = (reader, []) := by
  rw [read.eq_def, if_pos ended]

theorem yields_of_ended (ended : reader.ended = true) (arrivals : List Arrival) :
    reader.yields arrivals = [] := by
  induction arrivals with
  | nil => rw [yields_nil, close, if_pos ended]
  | cons arrival rest ih => rw [yields_cons, read_of_ended ended, List.nil_append, ih]

theorem read_failure (going : reader.ended = false) (message : String) :
    reader.read (.failure message) = (reader, [.error (.transport message)]) :=
  if_neg (by simp [going])

theorem read_newline (going : reader.ended = false) :
    reader.read (.byte Line.newline) = reader.finishLine := by
  rw [read.eq_def, if_neg (by simp [going])]
  exact if_pos rfl

theorem read_byte (going : reader.ended = false) {byte : UInt8} (inside : byte ≠ Line.newline) :
    reader.read (.byte byte) = ({ line := reader.line ++ [byte] }, []) := by
  rw [read.eq_def, if_neg (by simp [going])]
  exact if_neg inside

theorem yields_newline (line : List UInt8) (rest : List Arrival) :
    yields { line } (.byte Line.newline :: rest) =
      match Line.ofBytes line with
      | .done => []
      | found => found.items ++ yields {} rest := by
  rw [yields_cons, read_newline rfl, finishLine]
  cases Line.ofBytes line with
  | done => rw [List.nil_append, yields_of_ended rfl]
  | skipped | chunk => rfl

theorem yields_byte (line : List UInt8) {byte : UInt8} (inside : byte ≠ Line.newline)
    (rest : List Arrival) :
    yields { line } (.byte byte :: rest) = yields { line := line ++ [byte] } rest := by
  rw [yields_cons, read_byte rfl inside, List.nil_append]

theorem yields_failure (line : List UInt8) (message : String) (rest : List Arrival) :
    yields { line } (.failure message :: rest) =
      .error (.transport message) :: yields { line } rest := by
  rw [yields_cons, read_failure rfl, List.singleton_append]

theorem yields_bytes (line : List UInt8) {bytes : List UInt8} (inside : Line.newline ∉ bytes)
    (rest : List Arrival) :
    yields { line } (bytes.map .byte ++ rest) = yields { line := line ++ bytes } rest := by
  induction bytes generalizing line with
  | nil => simp
  | cons byte bytes ih =>
      rw [List.mem_cons, not_or] at inside
      rw [List.map_cons, List.cons_append, yields_byte line (Ne.symm inside.1), ih _ inside.2,
        List.append_assoc, List.singleton_append]

/-- What is yielded after some bytes, by the first line among them that counts. -/
theorem yields_next (start bytes : List UInt8) (rest : List Arrival) :
    yields { line := start.reverse } (bytes.map .byte ++ rest) =
      match Line.next start bytes with
      | (.skipped, bytes) => yields { line := bytes } rest
      | (.done, _) => []
      | (.chunk read, bytes) => read.mapError .decode :: yields {} (bytes.map .byte ++ rest) := by
  induction bytes generalizing start with
  | nil => rfl
  | cons byte bytes ih =>
      rw [List.map_cons, List.cons_append]
      by_cases ends : byte = Line.newline
      · subst ends
        rw [yields_newline, Line.next_newline]
        cases Line.ofBytes start.reverse with
        | skipped => exact ih []
        | done | chunk => rfl
      · rw [yields_byte _ ends, Line.next_of_ne ends, ← ih (byte :: start), List.reverse_cons]

end LineReader

/-! ## Streams -/

namespace Poll

variable {α : Type}

def toList : Poll α → List α
  | .item value => [value]
  | _ => []

end Poll

namespace ChunkStream

open LineReader (yields)

def arrivals (source : List Part) : List Arrival := source.flatMap Part.arrivals

/-- What a stream is to yield. -/
def awaited (stream : ChunkStream) : List StreamItem :=
  if stream.done then [] else yields {} (stream.buffer.map .byte ++ arrivals stream.source)

theorem awaited_of_done {stream : ChunkStream} (done : stream.done = true) :
    stream.awaited = [] := if_pos done

theorem done_of_close (buffer : List UInt8) : (close buffer).2.done = true := by
  rw [close]
  split
  · rfl
  · split <;> rfl

theorem done_of_poll {stream : ChunkStream} (ended : stream.poll.1 = .ended) :
    stream.poll.2.done = true := by
  rw [poll] at ended ⊢
  split at ended
  · next done => rwa [if_pos done]
  · next going =>
      rw [if_neg going]
      generalize stream.buffer = buffer at ended ⊢
      generalize stream.source = source at ended ⊢
      fun_induction pull buffer source with
      | case1 | case5 | case6 => cases ended
      | case2 => rfl
      | case3 buffer rest => exact done_of_close rest
      | case4 buffer rest _ bytes source ih => exact ih ended

theorem awaited_close {buffer : List UInt8} (unfinished : Line.newline ∉ buffer) :
    yields { line := buffer } [] = (close buffer).1.toList ++ (close buffer).2.awaited := by
  rw [awaited_of_done (done_of_close buffer), List.append_nil, LineReader.yields_nil,
    LineReader.close, if_neg (by simp), close]
  by_cases blank : buffer.all isBlank = true
  · rw [if_pos blank, Line.ofBytes_of_blank (List.all_eq_true.1 blank)]
    rfl
  · rw [if_neg blank, Line.next_line [] unfinished, List.reverse_nil, List.nil_append]
    cases Line.ofBytes buffer <;> rfl

/-- With no line that counts in the buffer, what is left of it is the line at hand. -/
theorem yields_of_skipped {buffer rest : List UInt8}
    (skipped : Line.next [] buffer = (.skipped, rest)) (later : List Arrival) :
    yields {} (buffer.map .byte ++ later) = yields { line := rest } later ∧
      Line.newline ∉ rest := by
  have step := LineReader.yields_next [] buffer later
  have unfinished := Line.newline_not_mem_of_next (by rw [skipped]) List.not_mem_nil
  rw [skipped] at step unfinished
  exact ⟨step, unfinished⟩

theorem awaited_pull (buffer : List UInt8) (source : List Part) :
    yields {} (buffer.map .byte ++ arrivals source) =
      (pull buffer source).1.toList ++ (pull buffer source).2.awaited := by
  fun_induction pull buffer source with
  | case1 source buffer read rest found | case2 source buffer rest found =>
      have step := LineReader.yields_next [] buffer (arrivals source)
      rw [found] at step
      exact step
  | case3 buffer rest found =>
      obtain ⟨same, unfinished⟩ := yields_of_skipped found []
      exact same.trans (awaited_close unfinished)
  | case4 buffer rest found bytes source ih =>
      obtain ⟨same, unfinished⟩ := yields_of_skipped found (arrivals (.bytes bytes :: source))
      rw [same, ← ih, List.map_append, List.append_assoc,
        LineReader.yields_bytes [] unfinished]
      rfl
  | case5 buffer rest found message source =>
      obtain ⟨same, unfinished⟩ := yields_of_skipped found (arrivals (.failure message :: source))
      rw [same, awaited, if_neg (by simp), LineReader.yields_bytes [] unfinished]
      exact LineReader.yields_failure rest message _
  | case6 buffer rest found source =>
      obtain ⟨same, unfinished⟩ := yields_of_skipped found (arrivals (.pending :: source))
      rw [same, awaited, if_neg (by simp), LineReader.yields_bytes [] unfinished]
      rfl

theorem awaited_poll (stream : ChunkStream) :
    stream.awaited = stream.poll.1.toList ++ stream.poll.2.awaited := by
  by_cases done : stream.done = true
  · rw [poll, if_pos done, awaited_of_done done]
    rfl
  · rw [poll, if_neg done, awaited, if_neg done, awaited_pull]

theorem collect_eq_awaited (stream : ChunkStream) : stream.collect = stream.awaited := by
  fun_induction collect stream with
  | case1 stream item next found ih | case2 stream next found ih =>
      rw [awaited_poll, found, ih]
      rfl
  | case3 stream next found =>
      have ended : stream.poll.1 = .ended := by rw [found]
      rw [awaited_poll, awaited_of_done (done_of_poll ended), ended]
      rfl

theorem collect_source (source : List Part) :
    collect { source } = yields {} (arrivals source) :=
  collect_eq_awaited { source }

end ChunkStream

end SchemaStream
