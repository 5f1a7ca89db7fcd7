import SchemaStream.Proofs.Stream.ChunkText
import SchemaStream.Proofs.Stream.Lines
import SchemaStream.Stream.Production

/-!
# Chunks as events

The events that a list of chunks is written as are lines, each with the text of one chunk, and
reading them yields the chunks.
-/

namespace SchemaStream

/-! ## Text on one line -/

/-- No character of a text is a control. -/
def Text.Visible (text : List Char) : Prop := ∀ c ∈ text, 0x20 ≤ c.toNat

namespace Text

instance (text : List Char) : Decidable (Visible text) :=
  List.decidableBAll (fun c : Char => 0x20 ≤ c.toNat) text

theorem visible_nil : Visible [] := List.forall_mem_nil _

theorem visible_append {first second : List Char} (left : Visible first)
    (right : Visible second) : Visible (first ++ second) :=
  List.forall_mem_append.2 ⟨left, right⟩

theorem visible_cons {c : Char} {text : List Char} (first : 0x20 ≤ c.toNat)
    (rest : Visible text) : Visible (c :: text) :=
  List.forall_mem_cons.2 ⟨first, rest⟩

end Text

namespace Json

open Text (Visible visible_nil visible_append visible_cons)

theorem visible_number (value : Number) : Visible value.chars := by
  intro c mem
  have numeric := value.isNumeric_of_mem_chars mem
  rw [Token.isNumeric, Bool.or_eq_true] at numeric
  rcases numeric with digit | mark
  · rw [Char.isDigit_iff_toNat] at digit
    exact Nat.le_trans (by decide) digit.1
  · simp only [List.contains_cons, List.contains_nil, Bool.or_false, Bool.or_eq_true,
      beq_iff_eq] at mark
    rcases mark with rfl | rfl | rfl | rfl <;> decide

theorem visible_hexDigit {n : Nat} (small : n < 16) : 0x20 ≤ (hexDigit n).toNat := by
  revert n
  decide

theorem visible_escaped (c : Char) : Visible (escaped c) := by
  fun_cases escaped c with
  | case1 | case2 | case3 | case4 | case5 | case6 | case7 =>
      exact visible_cons (by decide) (visible_cons (by decide) visible_nil)
  | case8 c =>
      next low =>
      refine visible_append (by decide : Visible ['\\', 'u', '0', '0'])
        (visible_cons (visible_hexDigit ?_) (visible_cons (visible_hexDigit ?_) visible_nil)) <;>
        omega
  | case9 c => exact visible_cons (Nat.le_of_not_lt ‹_›) visible_nil

theorem visible_quoted (text : String) : Visible (quoted text) := by
  refine visible_append (visible_cons (by decide) fun c mem => ?_) (by decide)
  obtain ⟨other, -, mem⟩ := List.mem_flatMap.1 mem
  exact visible_escaped other c mem

theorem visible_itemsChars {items : List Json} (inner : ∀ item ∈ items, Visible item.chars) :
    Visible (itemsChars items) := by
  induction items with
  | nil => exact visible_nil
  | cons item items ih =>
      obtain ⟨first, rest⟩ := List.forall_mem_cons.1 inner
      exact visible_append (visible_cons (by decide) first) (ih rest)

theorem visible_membersChars {members : List (String × Json)}
    (inner : ∀ member ∈ members, Visible member.2.chars) : Visible (membersChars members) := by
  induction members with
  | nil => exact visible_nil
  | cons member members ih =>
      obtain ⟨first, rest⟩ := List.forall_mem_cons.1 inner
      exact visible_append (visible_append (visible_cons (by decide) (visible_quoted member.1))
        (visible_cons (by decide) first)) (ih rest)

/-- The text of a value stands on one line. -/
theorem visible_chars (value : Json) : Visible value.chars := by
  induction value with
  | null => exact by decide
  | bool value => cases value <;> exact by decide
  | number value => exact visible_number value
  | string text => exact visible_quoted text
  | array items ih =>
      cases items with
      | nil => exact by decide
      | cons item items =>
          obtain ⟨first, rest⟩ := List.forall_mem_cons.1 ih
          exact visible_append (visible_append (visible_cons (by decide) first)
            (visible_itemsChars rest)) (by decide)
  | object members ih =>
      cases members with
      | nil => exact by decide
      | cons member members =>
          obtain ⟨first, rest⟩ := List.forall_mem_cons.1 ih
          exact visible_append (visible_append (visible_append
            (visible_cons (by decide) (visible_quoted member.1)) (visible_cons (by decide) first))
            (visible_membersChars rest)) (by decide)

end Json

/-! ## Lines -/

namespace Utf8

theorem encode_append (first second : List Char) :
    encode (first ++ second) = encode first ++ encode second := List.flatMap_append

/-- The bytes of the longer characters are no characters by themselves. -/
theorem toNat_of_mem_encodeChar {c : Char} {byte : UInt8} (mem : byte ∈ String.utf8EncodeChar c)
    (ascii : byte.toNat < 0x80) : c.toNat = byte.toNat := by
  have longer {code : Nat} (least : 0x80 ≤ code) (most : code < 0x100) :
      byte ≠ UInt8.ofNat code := by
    rintro rfl
    rw [toNat_ofNat most] at ascii
    omega
  have code : c.val.toNat = c.toNat := rfl
  rw [String.utf8EncodeChar] at mem
  split at mem
  · obtain rfl := List.mem_singleton.1 mem
    exact (toNat_ofNat (by omega)).symm
  · split at mem
    · simp only [List.mem_cons, List.not_mem_nil, or_false] at mem
      rcases mem with mem | mem <;> exact absurd mem (longer (by omega) (by omega))
    · split at mem <;> simp only [List.mem_cons, List.not_mem_nil, or_false] at mem
      · rcases mem with mem | mem | mem <;> exact absurd mem (longer (by omega) (by omega))
      · rcases mem with mem | mem | mem | mem <;>
          exact absurd mem (longer (by omega) (by omega))

theorem newline_not_mem_encode {text : List Char} (visible : Text.Visible text) :
    Line.newline ∉ encode text := by
  intro mem
  obtain ⟨c, inside, mem⟩ := List.mem_flatMap.1 mem
  have low := visible c inside
  rw [toNat_of_mem_encodeChar mem (by decide)] at low
  exact absurd low (by decide)

end Utf8

namespace Line

theorem data?_event {first last : Char} (middle : List Char)
    (starts : Text.isBlank first = false) (ends : Text.isBlank last = false) :
    data? ("data: ".toList ++ (first :: middle ++ [last])) = some (first :: middle ++ [last]) := by
  have line : Text.trim ("data: ".toList ++ (first :: middle ++ [last])) =
      "data: ".toList ++ (first :: middle ++ [last]) :=
    Text.trim_eq_self ("ata: ".toList ++ first :: middle) (by decide) ends
  have after : dataStart.isPrefixOf? ("data: ".toList ++ (first :: middle ++ [last])) =
      some (' ' :: (first :: middle ++ [last])) := rfl
  rw [data?, line, after, Option.map_some, Text.trim_blank_cons _ (by decide),
    Text.trim_eq_self middle starts ends]
  rfl

/-- An event that is no end mark, of data that is a chunk, yields the chunk. -/
theorem decodeLines_chunk {chunk : Chunk} (read : Chunk.ofText? chunk.text = some chunk)
    (rest : List (List UInt8)) :
    decodeLines (Utf8.encode ("data: ".toList ++ chunk.text.toList) :: [] :: rest) =
      .ok chunk :: decodeLines rest := by
  obtain ⟨middle, text⟩ : ∃ middle, chunk.text.toList = '\x7b' :: middle ++ ['\x7d'] :=
    ⟨_, String.toList_ofList⟩
  have data : data? ("data: ".toList ++ chunk.text.toList) = some chunk.text.toList := by
    rw [text, data?_event middle (by decide) (by decide)]
  have going : chunk.text.toList ≠ doneMark := by
    rw [text]
    simp [doneMark]
  have found : decodeData chunk.text.toList = .ok chunk := by
    rw [decodeData, String.ofList_toList, read]
  rw [decodeLines, Utf8.decode_encode]
  dsimp only
  rw [data]
  dsimp only
  rw [if_neg going, found]
  rfl

theorem decodeLines_doneMark (rest : List (List UInt8)) :
    decodeLines (Utf8.encode ("data: ".toList ++ doneMark) :: rest) = [] := by
  have data : data? ("data: ".toList ++ doneMark) = some doneMark :=
    data?_event ['D', 'O', 'N', 'E'] (by decide) (by decide)
  rw [decodeLines, Utf8.decode_encode]
  dsimp only
  rw [data]
  rfl

theorem splitOn_event {data : String} (visible : Text.Visible data.toList) (rest : List UInt8) :
    (Utf8.encode (Chunk.eventText data).toList ++ rest).splitOn newline =
      Utf8.encode ("data: ".toList ++ data.toList) :: [] :: rest.splitOn newline := by
  have inside : newline ∉ Utf8.encode ("data: ".toList ++ data.toList) :=
    Utf8.newline_not_mem_encode (Text.visible_append (by decide) visible)
  have bytes : Utf8.encode (Chunk.eventText data).toList ++ rest =
      Utf8.encode ("data: ".toList ++ data.toList) ++ newline :: ([] ++ newline :: rest) := by
    rw [Chunk.eventText, String.toList_append, String.toList_append, Utf8.encode_append,
      List.append_assoc]
    rfl
  rw [bytes, splitOn_append_newline inside, splitOn_append_newline List.not_mem_nil]

theorem decodeLines_eventBytes {chunks : List Chunk}
    (read : ∀ chunk ∈ chunks, Chunk.ofText? chunk.text = some chunk) :
    decodeLines ((Chunk.eventBytes chunks).flatten.splitOn newline) = chunks.map .ok := by
  induction chunks with
  | nil =>
      have lines := splitOn_event (by decide : Text.Visible "[DONE]".toList) []
      rw [List.append_nil] at lines
      have bytes : (Chunk.eventBytes []).flatten =
          Utf8.encode (Chunk.eventText "[DONE]").toList := List.append_nil _
      rw [bytes, lines]
      exact decodeLines_doneMark _
  | cons chunk chunks ih =>
      obtain ⟨first, rest⟩ := List.forall_mem_cons.1 read
      have visible : Text.Visible chunk.text.toList := by
        rw [Chunk.text, Json.text, String.toList_ofList]
        exact Json.visible_chars _
      have bytes : (Chunk.eventBytes (chunk :: chunks)).flatten =
          Utf8.encode (Chunk.eventText chunk.text).toList ++ (Chunk.eventBytes chunks).flatten :=
        rfl
      rw [bytes, splitOn_event visible, decodeLines_chunk first, ih rest, List.map_cons]

end Line

namespace ChunkStream

open Written (ofJson)

/-- However the events of some chunks are cut into parts, a stream yields the chunks, and then
it has ended for good.  As maps the chunks name nothing twice. -/
theorem yields_chunks {chunks : List Chunk}
    (distinct : ∀ chunk ∈ chunks, chunk.toJson.distinct = true)
    (shallow : ∀ chunk ∈ chunks, (ofJson chunk.toJson).depth ≤ Written.nestingLimit)
    (reads : ∀ chunk ∈ chunks, ∀ x ∈ chunk.toJson.binaries, x.ReadsBack)
    {parts : List (List UInt8)} (cut : parts.flatten = (Chunk.eventBytes chunks).flatten) :
    StreamItem.ofParts (parts.map .bytes) = chunks.map .ok ∧
      ∀ count, polls { source := parts.map .bytes } count =
        Poll.answers (chunks.map .ok) count := by
  have lines : awaited { source := parts.map .bytes } = chunks.map .ok := by
    rw [awaited_bytes, cut]
    exact Line.decodeLines_eventBytes fun chunk mem =>
      Chunk.ofText?_text (distinct chunk mem) (shallow chunk mem) (reads chunk mem)
  constructor
  · rw [StreamItem.ofParts, collect_eq_awaited, lines]
  · intro count
    rw [polls_eq_answers (prompt_bytes parts), lines]

def half : Json := .number (.binary ⟨false, ⟨1022 * Nat.pow 2 52, by decide⟩⟩)

/-- A chunk that uses every field, one that uses none, and one with a reason of no known name. -/
def variedChunks : List Chunk :=
  [{ choices :=
      [{ delta :=
          { content := "é"
            parsed := [("total", .nat 12), ("note", .object [("x", .null), ("y", .array [.nat 1])])]
            likelihoods := [("total", half)]
            deleted := ["old"]
            validJson := true
            keyMapping := some [("kept", some "shown"), ("dropped", none)] } },
        { finish := some .stop }] },
    {},
    { choices := [{ finish := some .other }] }]

/-- The first cut is inside the character that takes two bytes. -/
def variedParts : List (List UInt8) :=
  let bytes := (Chunk.eventBytes variedChunks).flatten
  [bytes.take 40, [], bytes.drop 40]

theorem yields_varied_chunks :
    (∀ chunk ∈ variedChunks, chunk.toJson.distinct = true) ∧
      (∀ chunk ∈ variedChunks, (ofJson chunk.toJson).depth ≤ Written.nestingLimit) ∧
      (∀ chunk ∈ variedChunks, ∀ x ∈ chunk.toJson.binaries, x.ReadsBack) ∧
      variedParts.flatten = (Chunk.eventBytes variedChunks).flatten ∧
      StreamItem.ofParts (variedParts.map .bytes) = variedChunks.map .ok ∧
      ∀ count, polls { source := variedParts.map .bytes } count =
        Poll.answers (variedChunks.map .ok) count := by
  have distinct : ∀ chunk ∈ variedChunks, chunk.toJson.distinct = true := by decide +kernel
  have shallow : ∀ chunk ∈ variedChunks, (ofJson chunk.toJson).depth ≤ Written.nestingLimit := by
    decide +kernel
  have reads : ∀ chunk ∈ variedChunks, ∀ x ∈ chunk.toJson.binaries, x.ReadsBack := by
    decide +kernel
  have cut : variedParts.flatten = (Chunk.eventBytes variedChunks).flatten := by
    rw [variedParts, List.flatten_cons, List.flatten_cons, List.flatten_cons, List.flatten_nil,
      List.nil_append, List.append_nil, List.take_append_drop]
  exact ⟨distinct, shallow, reads, cut, yields_chunks distinct shallow reads cut⟩

end ChunkStream

end SchemaStream
