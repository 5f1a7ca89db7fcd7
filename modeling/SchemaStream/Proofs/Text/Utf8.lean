import SchemaStream.Text.Utf8
import SchemaStream.Proofs.Outcome

/-!
# Texts and their bytes

Bytes decode to a text exactly if they are its encoding.  A line feed after the bytes comes
out as a line feed after the text and changes nothing about a fault, as it is part of no
longer character.
-/

namespace SchemaStream

namespace Utf8

variable {index code read due low high value : Nat} {byte : UInt8} {bytes rest : List UInt8}
  {state : State} {text : List Char}

/-! ## Steps of decoding -/

theorem decodeFrom_ascii (ascii : byte.toNat < 0x80) :
    decodeFrom index .between (byte :: rest) =
      (decodeFrom (index + 1) .between rest).map (Char.ofNat byte.toNat :: ·) := by
  rw [decodeFrom, if_pos ascii]

theorem decodeFrom_lead (large : 0x80 ≤ byte.toNat) (leads : lead? byte.toNat = some state) :
    decodeFrom index .between (byte :: rest) = decodeFrom index state rest := by
  rw [decodeFrom, if_neg (Nat.not_lt.2 large), leads]

theorem decodeFrom_more (inside : low ≤ byte.toNat ∧ byte.toNat ≤ high) (more : due ≠ 1) :
    decodeFrom index (.inside code read due low high) (byte :: rest) =
      decodeFrom index (.inside (code * 0x40 + (byte.toNat - 0x80)) (read + 1) (due - 1) 0x80 0xBF)
        rest := by
  rw [decodeFrom, if_pos inside]
  exact if_neg more

theorem decodeFrom_last (value : Nat) (inside : low ≤ byte.toNat ∧ byte.toNat ≤ high)
    (same : code * 0x40 + (byte.toNat - 0x80) = value) :
    decodeFrom index (.inside code read 1 low high) (byte :: rest) =
      (decodeFrom (index + read + 1) .between rest).map (Char.ofNat value :: ·) := by
  rw [decodeFrom, if_pos inside, same]
  exact if_pos rfl

/-- Within a character only a byte that fits is decoded. -/
theorem exists_of_decodeFrom_inside
    (decodes : decodeFrom index (.inside code read due low high) bytes = .ok text) :
    ∃ byte rest, bytes = byte :: rest ∧ low ≤ byte.toNat ∧ byte.toNat ≤ high := by
  cases bytes with
  | nil => cases decodes
  | cons byte rest =>
      rw [decodeFrom] at decodes
      split at decodes
      · next inside => exact ⟨byte, rest, rfl, inside⟩
      · cases decodes

/-- The states after a first byte: how many bytes are due and between which bounds the next
must lie, so that no character is written with more bytes than it needs, none is a surrogate
and none lies beyond the last one. -/
theorem lead?_eq_some_iff {byte : Nat} :
    lead? byte = some state ↔
      (0xC2 ≤ byte ∧ byte ≤ 0xDF ∧ state = .inside (byte - 0xC0) 1 1 0x80 0xBF) ∨
      (0xE0 ≤ byte ∧ byte ≤ 0xEF ∧
        state = .inside (byte - 0xE0) 1 2 (if byte = 0xE0 then 0xA0 else 0x80)
          (if byte = 0xED then 0x9F else 0xBF)) ∨
      (0xF0 ≤ byte ∧ byte ≤ 0xF4 ∧
        state = .inside (byte - 0xF0) 1 3 (if byte = 0xF0 then 0x90 else 0x80)
          (if byte = 0xF4 then 0x8F else 0xBF)) := by
  rw [lead?]
  grind

/-! ## Characters -/

theorem toNat_ofNat (small : value < 0x100) : (UInt8.ofNat value).toNat = value :=
  UInt8.toNat_ofNat_of_lt' small

theorem toNat_charOfNat (valid : value.isValidChar) : (Char.ofNat value).val.toNat = value := by
  rw [Char.ofNat, dif_pos valid]
  exact BitVec.toNat_ofNatLT ..

theorem decodeFrom_encodeChar (index : Nat) (c : Char) (rest : List UInt8) :
    decodeFrom index .between (String.utf8EncodeChar c ++ rest) =
      (decodeFrom (index + c.utf8Size) .between rest).map (c :: ·) := by
  have valid : c.val.toNat.isValidChar := c.valid
  have same : Char.ofNat c.val.toNat = c := Char.ofNat_toNat c
  rw [← String.length_utf8EncodeChar, String.utf8EncodeChar]
  generalize c.val.toNat = code at valid same ⊢
  subst same
  split
  · rw [List.singleton_append, decodeFrom_ascii (by rw [toNat_ofNat] <;> omega),
      toNat_ofNat (by omega)]
    rfl
  split
  · have lead : (UInt8.ofNat (code / 64 % 32 + 192)).toNat = code / 64 + 192 := by
      rw [toNat_ofNat] <;> omega
    have last : (UInt8.ofNat (code % 64 + 128)).toNat = code % 64 + 128 := toNat_ofNat (by omega)
    rw [List.cons_append, List.singleton_append,
      decodeFrom_lead (by omega) (lead?_eq_some_iff.2 (.inl ⟨by omega, by omega, rfl⟩)),
      decodeFrom_last code (by omega) (by omega)]
    rfl
  split
  · have lead : (UInt8.ofNat (code / 4096 % 16 + 224)).toNat = code / 4096 + 224 := by
      rw [toNat_ofNat] <;> omega
    have middle : (UInt8.ofNat (code / 64 % 64 + 128)).toNat = code / 64 % 64 + 128 :=
      toNat_ofNat (by omega)
    have last : (UInt8.ofNat (code % 64 + 128)).toNat = code % 64 + 128 := toNat_ofNat (by omega)
    rw [List.cons_append, List.cons_append, List.singleton_append,
      decodeFrom_lead (by omega) (lead?_eq_some_iff.2 (.inr (.inl ⟨by omega, by omega, rfl⟩))),
      decodeFrom_more (by split <;> split <;> omega) (by omega),
      decodeFrom_last code (by omega) (by omega)]
    rfl
  · have lead : (UInt8.ofNat (code / 262144 % 8 + 240)).toNat = code / 262144 + 240 := by
      rw [toNat_ofNat] <;> omega
    have second : (UInt8.ofNat (code / 4096 % 64 + 128)).toNat = code / 4096 % 64 + 128 :=
      toNat_ofNat (by omega)
    have third : (UInt8.ofNat (code / 64 % 64 + 128)).toNat = code / 64 % 64 + 128 :=
      toNat_ofNat (by omega)
    have last : (UInt8.ofNat (code % 64 + 128)).toNat = code % 64 + 128 := toNat_ofNat (by omega)
    rw [List.cons_append, List.cons_append, List.cons_append, List.singleton_append,
      decodeFrom_lead (by omega) (lead?_eq_some_iff.2 (.inr (.inr ⟨by omega, by omega, rfl⟩))),
      decodeFrom_more (by split <;> split <;> omega) (by omega),
      decodeFrom_more (by omega) (by omega), decodeFrom_last code (by omega) (by omega)]
    rfl

theorem decode_encode (text : List Char) : decode (encode text) = .ok text := by
  suffices ∀ index, decodeFrom index .between (encode text) = .ok text from this 0
  induction text with
  | nil => exact fun _ => rfl
  | cons c rest ih =>
      intro index
      rw [encode, List.flatMap_cons, decodeFrom_encodeChar]
      exact congrArg (Except.map (c :: ·)) (ih _)

section

variable {first second third fourth : UInt8}

theorem ofNat_eq (byte : UInt8) (same : byte.toNat = value) : UInt8.ofNat value = byte := by
  rw [← same, UInt8.ofNat_toNat]

theorem encodeChar_one (ascii : first.toNat < 0x80) :
    String.utf8EncodeChar (Char.ofNat first.toNat) = [first] := by
  rw [String.utf8EncodeChar, toNat_charOfNat (.inl (by omega)), if_pos (by omega),
    ofNat_eq first rfl]

theorem encodeChar_two (lead : 0xC2 ≤ first.toNat ∧ first.toNat ≤ 0xDF)
    (last : 0x80 ≤ second.toNat ∧ second.toNat ≤ 0xBF) :
    String.utf8EncodeChar
      (Char.ofNat ((first.toNat - 0xC0) * 0x40 + (second.toNat - 0x80))) = [first, second] := by
  rw [String.utf8EncodeChar, toNat_charOfNat (.inl (by omega)), if_neg (by omega),
    if_pos (by omega), ofNat_eq first (by omega), ofNat_eq second (by omega)]

theorem encodeChar_three (lead : 0xE0 ≤ first.toNat ∧ first.toNat ≤ 0xEF)
    (middle : 0x80 ≤ second.toNat ∧ second.toNat ≤ 0xBF)
    (notShorter : first.toNat = 0xE0 → 0xA0 ≤ second.toNat)
    (noSurrogate : first.toNat = 0xED → second.toNat ≤ 0x9F)
    (last : 0x80 ≤ third.toNat ∧ third.toNat ≤ 0xBF) :
    String.utf8EncodeChar
      (Char.ofNat (((first.toNat - 0xE0) * 0x40 + (second.toNat - 0x80)) * 0x40 +
        (third.toNat - 0x80))) = [first, second, third] := by
  rw [String.utf8EncodeChar, toNat_charOfNat (by omega), if_neg (by omega), if_neg (by omega),
    if_pos (by omega), ofNat_eq first (by omega),
    ofNat_eq second (by omega), ofNat_eq third (by omega)]

theorem encodeChar_four (lead : 0xF0 ≤ first.toNat ∧ first.toNat ≤ 0xF4)
    (middle : 0x80 ≤ second.toNat ∧ second.toNat ≤ 0xBF)
    (notShorter : first.toNat = 0xF0 → 0x90 ≤ second.toNat)
    (inRange : first.toNat = 0xF4 → second.toNat ≤ 0x8F)
    (next : 0x80 ≤ third.toNat ∧ third.toNat ≤ 0xBF)
    (last : 0x80 ≤ fourth.toNat ∧ fourth.toNat ≤ 0xBF) :
    String.utf8EncodeChar
      (Char.ofNat ((((first.toNat - 0xF0) * 0x40 + (second.toNat - 0x80)) * 0x40 +
        (third.toNat - 0x80)) * 0x40 + (fourth.toNat - 0x80))) =
      [first, second, third, fourth] := by
  rw [String.utf8EncodeChar, toNat_charOfNat (by omega), if_neg (by omega), if_neg (by omega),
    if_neg (by omega), ofNat_eq first (by omega),
    ofNat_eq second (by omega), ofNat_eq third (by omega),
    ofNat_eq fourth (by omega)]

end

/-- What a first character is decoded from is its encoding. -/
theorem exists_of_decodeFrom_between (decodes : decodeFrom index .between bytes = .ok text) :
    (bytes = [] ∧ text = []) ∨ ∃ c rest later index', bytes = String.utf8EncodeChar c ++ rest ∧
      text = c :: later ∧ decodeFrom index' .between rest = .ok later := by
  cases bytes with
  | nil => exact .inl ⟨rfl, by cases decodes; rfl⟩
  | cons first rest =>
      right
      by_cases ascii : first.toNat < 0x80
      · rw [decodeFrom_ascii ascii] at decodes
        obtain ⟨later, found, rfl⟩ := Outcome.map_eq_ok_iff.1 decodes
        exact ⟨_, rest, later, _, by rw [encodeChar_one ascii]; rfl, rfl, found⟩
      cases leads : lead? first.toNat with
      | none => simp [decodeFrom, ascii, leads] at decodes
      | some state =>
          rw [decodeFrom_lead (by omega) leads] at decodes
          rcases lead?_eq_some_iff.1 leads with ⟨low, high, rfl⟩ | ⟨low, high, rfl⟩ |
            ⟨low, high, rfl⟩
          · obtain ⟨second, rest, rfl, last⟩ := exists_of_decodeFrom_inside decodes
            rw [decodeFrom_last _ last rfl] at decodes
            obtain ⟨later, found, rfl⟩ := Outcome.map_eq_ok_iff.1 decodes
            exact ⟨_, rest, later, _, by rw [encodeChar_two ⟨low, high⟩ last]; rfl, rfl, found⟩
          · obtain ⟨second, _, rfl, middle⟩ := exists_of_decodeFrom_inside decodes
            rw [decodeFrom_more middle (by omega)] at decodes
            obtain ⟨third, rest, rfl, last⟩ := exists_of_decodeFrom_inside decodes
            rw [decodeFrom_last _ last rfl] at decodes
            obtain ⟨later, found, rfl⟩ := Outcome.map_eq_ok_iff.1 decodes
            refine ⟨_, rest, later, _, ?_, rfl, found⟩
            rw [encodeChar_three ⟨low, high⟩ (by grind) (by grind) (by grind) last]
            rfl
          · obtain ⟨second, _, rfl, middle⟩ := exists_of_decodeFrom_inside decodes
            rw [decodeFrom_more middle (by omega)] at decodes
            obtain ⟨third, _, rfl, next⟩ := exists_of_decodeFrom_inside decodes
            rw [decodeFrom_more next (by omega)] at decodes
            obtain ⟨fourth, rest, rfl, last⟩ := exists_of_decodeFrom_inside decodes
            rw [decodeFrom_last _ last rfl] at decodes
            obtain ⟨later, found, rfl⟩ := Outcome.map_eq_ok_iff.1 decodes
            refine ⟨_, rest, later, _, ?_, rfl, found⟩
            rw [encodeChar_four ⟨low, high⟩ (by grind) (by grind) (by grind) next last]
            rfl

theorem eq_encode_of_decodeFrom (decodes : decodeFrom index .between bytes = .ok text) :
    bytes = encode text := by
  induction text generalizing index bytes with
  | nil =>
      rcases exists_of_decodeFrom_between decodes with ⟨rfl, -⟩ | ⟨_, _, _, _, -, impossible, -⟩
      · rfl
      · cases impossible
  | cons c later ih =>
      rcases exists_of_decodeFrom_between decodes with ⟨-, impossible⟩ |
        ⟨_, rest, _, _, rfl, same, found⟩
      · cases impossible
      · cases same
        rw [encode, List.flatMap_cons, ih found, encode]

theorem decode_eq_ok_iff : decode bytes = .ok text ↔ bytes = encode text :=
  ⟨eq_encode_of_decodeFrom, fun h => h ▸ decode_encode text⟩

/-! ## A line feed at the end -/

/-- The bytes that continue a character are not ASCII. -/
def State.Continues : State → Prop
  | .between => True
  | .inside _ _ _ low _ => 0x80 ≤ low

theorem continues_of_lead? {byte : Nat} (leads : lead? byte = some state) :
    state.Continues := by
  rcases lead?_eq_some_iff.1 leads with ⟨-, -, rfl⟩ | ⟨-, -, rfl⟩ | ⟨-, -, rfl⟩
  · exact Nat.le_refl _
  · simp only [State.Continues]
    split <;> omega
  · simp only [State.Continues]
    split <;> omega

theorem decodeFrom_append_lineFeed (continues : state.Continues) :
    decodeFrom index state (bytes ++ [10]) =
      (decodeFrom index state bytes).map (· ++ ['\n']) := by
  fun_induction decodeFrom index state bytes with
  | case1 index => rfl
  | case2 index code read due low high =>
      have continues : 0x80 ≤ low := continues
      have short : ¬ (low ≤ (10 : UInt8).toNat ∧ (10 : UInt8).toNat ≤ high) := by
        rw [show (10 : UInt8).toNat = 10 from rfl]
        omega
      rw [List.nil_append, decodeFrom, if_neg short]
      rfl
  | case3 index byte rest ascii ih =>
      rw [List.cons_append, decodeFrom_ascii ascii, ih trivial]
      cases decodeFrom (index + 1) .between rest <;> rfl
  | case4 index byte rest ascii state leads ih =>
      rw [List.cons_append, decodeFrom_lead (by omega) leads, ih (continues_of_lead? leads)]
  | case5 index byte rest ascii leads =>
      rw [List.cons_append, decodeFrom, if_neg ascii, leads]
      rfl
  | case6 index code read low high byte rest inside value ih =>
      rw [List.cons_append, decodeFrom_last _ inside rfl, ih trivial]
      cases decodeFrom (index + read + 1) .between rest <;> rfl
  | case7 index code read due low high byte rest inside value more ih =>
      rw [List.cons_append, decodeFrom_more inside more, ih (Nat.le_refl _)]
  | case8 index code read due low high byte rest outside =>
      rw [List.cons_append, decodeFrom, if_neg outside]
      rfl

theorem decode_append_lineFeed (bytes : List UInt8) :
    decode (bytes ++ [10]) = (decode bytes).map (· ++ ['\n']) :=
  decodeFrom_append_lineFeed trivial

end Utf8

end SchemaStream
