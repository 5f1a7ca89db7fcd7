import SchemaStream.Json.Syntax
import SchemaStream.Proofs.Json.Numerals

/-!
# Values as tokens

The compact text of a value is read as the tokens of the value, whatever follows it that
does not prolong a number.  Integers always read back; of the binary64 numbers in a value
it is asked that each by itself does.
-/

namespace SchemaStream

namespace Token

/-! ## Scanning -/

variable {cs rest tail : List Char} {token : Token} {tokens : List Token}

theorem scan?_cons {c : Char} (visible : isBlank c = false) (cs : List Char) (fuel : Nat) :
    scan? (fuel + 1) (c :: cs) =
      (next? (c :: cs)).bind fun found => (scan? fuel found.2).map (found.1 :: ·) := by
  have kept : (c :: cs).dropWhile isBlank = c :: cs := by simp [visible]
  rw [scan?, kept]
  simp only [Option.map_eq_bind]
  rfl

theorem scan?_blank_append {blanks : List Char} (blank : ∀ c ∈ blanks, isBlank c = true)
    (fuel : Nat) : scan? fuel (blanks ++ tail) = scan? fuel tail := by
  cases fuel with
  | zero => rfl
  | succ fuel => rw [scan?, List.dropWhile_append_of_pos blank, scan?]

/-- A text is read as these tokens, whatever follows it that ends a number. -/
structure Spells (cs : List Char) (tokens : List Token) : Prop where
  length_le : tokens.length ≤ cs.length
  scan {tail : List Char} (ends : EndsNumber tail) (fuel : Nat) :
    scan? (fuel + tokens.length) (cs ++ tail) = (scan? fuel tail).map (tokens ++ ·)

namespace Spells

theorem nil : Spells [] [] where
  length_le := Nat.le_refl _
  scan _ _ := (Option.map_id_fun' ▸ rfl)

theorem ofChars? (spells : Spells cs tokens) : Token.ofChars? cs = some tokens := by
  have fuel : cs.length + 1 = (cs.length - tokens.length) + 1 + tokens.length := by
    have := spells.length_le
    omega
  have read := spells.scan (by simp [EndsNumber] : EndsNumber []) (cs.length - tokens.length + 1)
  rw [List.append_nil, ← fuel] at read
  rw [Token.ofChars?, read]
  exact congrArg some (List.append_nil _)

/-- A text that is one token, perhaps with blanks at its end. -/
theorem single {c : Char} (visible : isBlank c = false)
    (read : ∀ tail, EndsNumber tail → ∃ blanks, (∀ c ∈ blanks, isBlank c = true) ∧
      next? (c :: cs ++ tail) = some (token, blanks ++ tail)) : Spells (c :: cs) [token] where
  length_le := by simp
  scan {tail} ends fuel := by
    obtain ⟨blanks, blank, next⟩ := read tail ends
    rw [List.cons_append] at next ⊢
    change scan? (fuel + 1) _ = _
    rw [scan?_cons visible, next, Option.bind_some, scan?_blank_append blank]
    rfl

/-- A mark that is a token by itself may be followed by anything. -/
theorem cons {c : Char} (visible : isBlank c = false)
    (read : ∀ tail, next? (c :: tail) = some (token, tail)) (spells : Spells cs tokens) :
    Spells (c :: cs) (token :: tokens) where
  length_le := Nat.succ_le_succ spells.length_le
  scan {tail} ends fuel := by
    change scan? (fuel + tokens.length + 1) (c :: (cs ++ tail)) = _
    rw [scan?_cons visible, read, Option.bind_some, spells.scan ends, Option.map_map]
    rfl

theorem append {ds : List Char} {others : List Token} (first : Spells cs tokens)
    (second : Spells ds others)
    (ends : ∀ tail, EndsNumber tail → EndsNumber (ds ++ tail)) :
    Spells (cs ++ ds) (tokens ++ others) where
  length_le := by
    have := first.length_le
    have := second.length_le
    simp only [List.length_append]
    omega
  scan {tail} closed fuel := by
    have both := first.scan (ends tail closed) (fuel + others.length)
    rw [second.scan closed, Option.map_map] at both
    rw [List.length_append, List.append_assoc, Nat.add_comm tokens.length, ← Nat.add_assoc, both]
    simp only [Function.comp_def, List.append_assoc]

end Spells

theorem endsNumber_cons {c : Char} (other : isNumeric c = false ∧ c ≠ 'E') :
    EndsNumber (c :: rest) := by
  rintro _ ⟨⟩
  simp only [isNumeric, Bool.or_eq_false_iff, List.contains_cons] at other
  simp_all

/-! ## Strings -/

theorem hexValue?_hexDigit {n : Nat} (small : n < 16) :
    hexValue? (Json.hexDigit n) = some n := by
  revert n
  decide

theorem pieceChars?_unit {code : Nat} (low : code < 0xD800) (pieces : List Piece) :
    pieceChars? (.unit code :: pieces) = (pieceChars? pieces).map (Char.ofNat code :: ·) := by
  have unpaired : isHighSurrogate code = false ∧ isLowSurrogate code = false := by
    simp [isHighSurrogate, isLowSurrogate]
    omega
  cases pieces with
  | nil => simp [pieceChars?, unpaired]
  | cons piece rest => cases piece <;> simp [pieceChars?, unpaired]

/-- Every character of a string is read back as one piece. -/
theorem readString?_escaped (c : Char) : ∃ piece,
    (∀ rest, readString? (Json.escaped c ++ rest) =
      (readString? rest).map fun found => (piece :: found.1, found.2)) ∧
    ∀ pieces, pieceChars? (piece :: pieces) = (pieceChars? pieces).map (c :: ·) := by
  fun_cases Json.escaped c with
  | case1 | case2 | case3 | case4 | case5 | case6 | case7 =>
      refine ⟨.char _, fun rest => ?_, fun pieces => pieceChars?.eq_2 ..⟩
      cases read : readString? rest <;> simp [readString?, escapedChar?, read]
  | case8 c =>
      next low =>
      refine ⟨.unit c.toNat, fun rest => ?_, fun pieces => ?_⟩
      · have high := hexValue?_hexDigit (n := c.toNat / 16) (by omega)
        have ones := hexValue?_hexDigit (n := c.toNat % 16) (by omega)
        have zero : hexValue? '0' = some 0 := rfl
        have code : c.toNat / 16 * 16 + c.toNat % 16 = c.toNat := Nat.div_add_mod' ..
        cases read : readString? rest <;> simp [readString?, zero, high, ones, code, read]
      · rw [pieceChars?_unit (by omega), Char.ofNat_toNat]
  | case9 c quote backslash =>
      next high =>
      refine ⟨.char c, fun rest => ?_, fun pieces => pieceChars?.eq_2 ..⟩
      have kept : ¬(c = '\\' ∨ c.toNat < 0x20) := not_or.2 ⟨backslash, high⟩
      rw [List.singleton_append, readString?.eq_5 _ _ quote (by simp_all) (by simp_all),
        if_neg kept, Option.map_eq_bind]
      rfl

theorem readString?_flatMap_escaped (text rest : List Char) : ∃ pieces,
    readString? (text.flatMap Json.escaped ++ '"' :: rest) = some (pieces, rest) ∧
      pieceChars? pieces = some text := by
  induction text with
  | nil => exact ⟨[], rfl, rfl⟩
  | cons c text ih =>
      obtain ⟨pieces, read, spelled⟩ := ih
      obtain ⟨piece, first, char⟩ := readString?_escaped c
      refine ⟨piece :: pieces, ?_, ?_⟩
      · rw [List.flatMap_cons, List.append_assoc, first, read]
        rfl
      · rw [char, spelled]
        rfl

theorem next?_quoted (text : String) (tail : List Char) :
    next? (Json.quoted text ++ tail) = some (.string (some text), tail) := by
  obtain ⟨pieces, read, spelled⟩ := readString?_flatMap_escaped text.toList tail
  have opened : Json.quoted text ++ tail =
      '"' :: (text.toList.flatMap Json.escaped ++ '"' :: tail) := by
    simp [Json.quoted]
  rw [opened, next?, read, Option.map_some]
  dsimp only
  rw [spelled, Option.map_some, String.ofList_toList]

theorem spells_quoted (text : String) : Spells (Json.quoted text) [.string (some text)] :=
  Spells.single rfl fun tail _ => ⟨[], List.forall_mem_nil _, next?_quoted text tail⟩

/-! ## Numbers -/

theorem next?_of_isNumeric {c : Char} (numeric : isNumeric c = true) (unsigned : c ≠ '-')
    (cs : List Char) :
    next? (c :: cs) =
      (readNumeral? false (c :: cs)).map fun found => (.number found.1.number?, found.2) := by
  have ne {other : Char} (strange : isNumeric other = false) : c ≠ other := by
    rintro rfl
    rw [strange] at numeric
    cases numeric
  have noWord : readWord? (c :: cs) = none := by
    refine readWord?.eq_4 _ ?_ ?_ ?_ <;> rintro _ ⟨⟩ <;> exact ne rfl rfl
  rw [next?.eq_9, noWord]
  case x_8 =>
    rintro _ ⟨⟩
    exact unsigned rfl
  all_goals
    rintro _ ⟨⟩
    exact ne rfl rfl

theorem isBlank_of_isNumeric {c : Char} (numeric : isNumeric c = true) : isBlank c = false := by
  by_contra blank
  simp only [isBlank, Bool.not_eq_false, Bool.or_eq_true, decide_eq_true_eq] at blank
  obtain ((rfl | rfl) | rfl) | rfl := blank <;> cases numeric

end Token

/-- Whether a number by itself is read back from its text. -/
def Binary64.ReadsBack (x : Binary64) : Prop :=
  Json.ofText? (Json.number (.binary x)).text = some (.number (.binary x))

instance (x : Binary64) : Decidable x.ReadsBack := inferInstanceAs (Decidable (_ = _))

namespace Json

mutual

def tokens : Json → List Token
  | .null => [.null]
  | .bool value => [.bool value]
  | .number value => [.number (some value)]
  | .string text => [.string (some text)]
  | .array [] => [.openArray, .closeArray]
  | .array (item :: items) => .openArray :: (item.tokens ++ (itemsTokens items ++ [.closeArray]))
  | .object [] => [.openObject, .closeObject]
  | .object ((name, value) :: rest) =>
      .openObject :: .string (some name) :: .colon ::
        (value.tokens ++ (membersTokens rest ++ [.closeObject]))

/-- Each further item, after its comma. -/
def itemsTokens : List Json → List Token
  | [] => []
  | item :: items => .comma :: (item.tokens ++ itemsTokens items)

def membersTokens : List (String × Json) → List Token
  | [] => []
  | (name, value) :: rest =>
      .comma :: .string (some name) :: .colon :: (value.tokens ++ membersTokens rest)

end

mutual

/-- The binary64 numbers within a value. -/
def binaries : Json → List Binary64
  | .number (.binary value) => [value]
  | .array items => itemBinaries items
  | .object members => memberBinaries members
  | _ => []

def itemBinaries : List Json → List Binary64
  | [] => []
  | item :: rest => item.binaries ++ itemBinaries rest

def memberBinaries : List (String × Json) → List Binary64
  | [] => []
  | (_, value) :: rest => value.binaries ++ memberBinaries rest

end

theorem mem_binaries_array_iff {x : Binary64} {items : List Json} :
    x ∈ (array items).binaries ↔ ∃ item ∈ items, x ∈ item.binaries := by
  rw [binaries]
  induction items with
  | nil => simp [itemBinaries]
  | cons item rest ih => simp [itemBinaries, ih]

theorem mem_binaries_object_iff {x : Binary64} {members : List (String × Json)} :
    x ∈ (object members).binaries ↔ ∃ member ∈ members, x ∈ member.2.binaries := by
  rw [binaries]
  induction members with
  | nil => simp [memberBinaries]
  | cons member rest ih => simp [memberBinaries, ih]

end Json

namespace Token

open Json (itemsChars itemsTokens membersChars membersTokens)

/-! ## Values -/

/-- Nothing can follow a whole value. -/
theorem ofTokens?_number (value : Option Number) (tokens : List Token) :
    Written.ofTokens? (.number value :: tokens) =
      if tokens = [] then some (.leaf (value.map .number)) else none := by
  cases tokens with
  | nil => rfl
  | cons token tokens => cases token <;> rfl

theorem blank_of_scan?_eq_nil {fuel : Nat} {rest : List Char} (read : scan? fuel rest = some []) :
    ∀ c ∈ rest, isBlank c = true := by
  cases fuel with
  | zero => cases read
  | succ fuel =>
      rw [scan?] at read
      split at read
      · next none_left => exact List.dropWhile_eq_nil_iff.1 none_left
      · simp only [Option.bind_eq_bind, Option.bind_eq_some_iff] at read
        obtain ⟨_, -, _, -, ⟨⟩⟩ := read

theorem exists_next? {c : Char} (numeric : isNumeric c = true) (cs : List Char) :
    ∃ negative body, ∀ tail, next? (c :: cs ++ tail) =
      (readNumeral? negative (body ++ tail)).map
        fun found => (.number found.1.number?, found.2) := by
  by_cases signed : c = '-'
  · subst signed
    exact ⟨true, cs, fun _ => rfl⟩
  · exact ⟨false, c :: cs, fun tail => next?_of_isNumeric numeric signed (cs ++ tail)⟩

theorem spells_number {c : Char} {cs : List Char} {value : Number} {negative : Bool}
    {body blanks : List Char} {numeral : Numeral} (visible : isBlank c = false)
    (next : ∀ tail, next? (c :: cs ++ tail) = (readNumeral? negative (body ++ tail)).map
      fun found => (.number found.1.number?, found.2))
    (read : readNumeral? negative body = some (numeral, blanks))
    (blank : ∀ c ∈ blanks, isBlank c = true) (number : numeral.number? = some value) :
    Spells (c :: cs) [.number (some value)] :=
  .single visible fun tail ends => ⟨blanks, blank, by
    rw [next, readNumeral?_append ends read, Option.map_some, number]⟩

theorem spells_binary {x : Binary64} (reads : x.ReadsBack) :
    Spells x.chars [.number (some (.binary x))] := by
  have numeric : ∀ c ∈ x.chars, isNumeric c = true := fun _ => x.isNumeric_of_mem_chars
  rw [Binary64.ReadsBack, Json.text, Json.chars, Number.chars] at reads
  cases text : x.chars with
  | nil =>
      rw [text] at reads
      cases reads
  | cons c cs =>
      rw [text] at numeric reads
      have first := numeric c List.mem_cons_self
      have visible := isBlank_of_isNumeric first
      obtain ⟨negative, body, next⟩ := exists_next? first cs
      have start := next []
      rw [List.append_nil, List.append_nil] at start
      simp only [Json.ofText?, Written.ofText?, Token.ofChars?, String.toList_ofList,
        Option.bind_eq_bind, Option.bind_eq_some_iff] at reads
      obtain ⟨tree, ⟨tokens, scanned, built⟩, valued⟩ := reads
      rw [scan?_cons visible, start, Option.bind_eq_some_iff] at scanned
      obtain ⟨found, first, scanned⟩ := scanned
      obtain ⟨⟨numeral, blanks⟩, read, rfl⟩ := Option.map_eq_some_iff.1 first
      obtain ⟨others, rest, rfl⟩ := Option.map_eq_some_iff.1 scanned
      rw [ofTokens?_number] at built
      split at built
      · next alone =>
          subst alone
          cases built
          exact spells_number visible next read (blank_of_scan?_eq_nil rest)
            (by simpa [Written.value?] using valued)
      · cases built

theorem spells_natural (value : Fin UInt64.size) :
    Spells (Number.natural value).chars [.number (some (.natural value))] := by
  have digit : ∀ c ∈ Nat.toDigits 10 value.val, c.isDigit = true := fun _ =>
    Nat.isDigit_of_mem_toDigits (by decide) (by decide)
  have read := readNumeral?_toDigits false value.val
  have number := Numeral.number?_natural value
  rw [Number.chars]
  cases text : Nat.toDigits 10 value.val with
  | nil => exact absurd text Nat.toDigits_ne_nil
  | cons c cs =>
      rw [text] at read digit number
      have first := digit c List.mem_cons_self
      have numeric : isNumeric c = true := by rw [isNumeric, first, Bool.true_or]
      have unsigned : c ≠ '-' := by
        rintro rfl
        cases first
      have next (tail : List Char) : next? (c :: cs ++ tail) =
          (readNumeral? false ((c :: cs) ++ tail)).map
            fun found => (.number found.1.number?, found.2) :=
        next?_of_isNumeric numeric unsigned (cs ++ tail)
      exact spells_number (isBlank_of_isNumeric numeric) next read (List.forall_mem_nil _) number

theorem spells_negative (below : Fin (UInt64.size / 2)) :
    Spells (Number.negative below).chars [.number (some (.negative below))] :=
  spells_number rfl (fun _ => rfl) (readNumeral?_toDigits true (below.val + 1))
    (List.forall_mem_nil _) (Numeral.number?_negative below)

theorem endsNumber_itemsChars {tail : List Char} (items : List Json) (ends : EndsNumber tail) :
    EndsNumber (itemsChars items ++ tail) := by
  cases items with
  | nil => exact ends
  | cons item items => exact endsNumber_cons (by decide)

theorem endsNumber_membersChars {tail : List Char} (members : List (String × Json))
    (ends : EndsNumber tail) : EndsNumber (membersChars members ++ tail) := by
  cases members with
  | nil => exact ends
  | cons member members => exact endsNumber_cons (by decide)

theorem spells_itemsChars {items : List Json}
    (spells : ∀ item ∈ items, Spells item.chars item.tokens) :
    Spells (itemsChars items) (itemsTokens items) := by
  induction items with
  | nil => exact .nil
  | cons item items ih =>
      obtain ⟨first, rest⟩ := List.forall_mem_cons.1 spells
      exact .cons rfl (fun _ => rfl)
        (first.append (ih rest) fun _ => endsNumber_itemsChars items)

theorem spells_named (name : String) {value : Json} (spells : Spells value.chars value.tokens) :
    Spells (Json.quoted name ++ ':' :: value.chars)
      (.string (some name) :: .colon :: value.tokens) :=
  (spells_quoted name).append (.cons rfl (fun _ => rfl) spells)
    fun _ _ => endsNumber_cons (by decide)

theorem spells_membersChars {members : List (String × Json)}
    (spells : ∀ member ∈ members, Spells member.2.chars member.2.tokens) :
    Spells (membersChars members) (membersTokens members) := by
  induction members with
  | nil => exact .nil
  | cons member members ih =>
      obtain ⟨name, value⟩ := member
      obtain ⟨first, rest⟩ := List.forall_mem_cons.1 spells
      exact .cons rfl (fun _ => rfl)
        ((spells_named name first).append (ih rest) fun _ => endsNumber_membersChars members)

/-- The text of a value is read as its tokens. -/
theorem spells_chars (value : Json) (reads : ∀ x ∈ value.binaries, x.ReadsBack) :
    Spells value.chars value.tokens := by
  induction value with
  | null => exact .single rfl fun tail _ => ⟨[], List.forall_mem_nil _, rfl⟩
  | bool value => cases value <;> exact .single rfl fun tail _ => ⟨[], List.forall_mem_nil _, rfl⟩
  | number value =>
      cases value with
      | natural value => exact spells_natural value
      | negative below => exact spells_negative below
      | binary value => exact spells_binary (reads value (List.mem_singleton_self value))
  | string text => exact spells_quoted text
  | array items ih =>
      have inner : ∀ item ∈ items, Spells item.chars item.tokens := fun item mem =>
        ih item mem fun x inside => reads x (Json.mem_binaries_array_iff.2 ⟨item, mem, inside⟩)
      have closed : Spells [']'] [.closeArray] := .cons rfl (fun _ => rfl) .nil
      cases items with
      | nil => exact .cons rfl (fun _ => rfl) closed
      | cons item items =>
          obtain ⟨first, rest⟩ := List.forall_mem_cons.1 inner
          have later := (spells_itemsChars rest).append closed
            fun _ _ => endsNumber_cons (by decide)
          have all := first.append later fun _ ends => by
            rw [List.append_assoc]
            exact endsNumber_itemsChars items (endsNumber_cons (by decide))
          have opened : Spells ('[' :: (item.chars ++ (itemsChars items ++ [']']))) _ :=
            .cons rfl (fun _ => rfl) all
          rwa [Json.chars, Json.tokens, List.cons_append, List.cons_append, List.append_assoc]
  | object members ih =>
      have inner : ∀ member ∈ members, Spells member.2.chars member.2.tokens := fun member mem =>
        ih member mem fun x inside =>
          reads x (Json.mem_binaries_object_iff.2 ⟨member, mem, inside⟩)
      have closed : Spells ['\x7d'] [.closeObject] := .cons rfl (fun _ => rfl) .nil
      cases members with
      | nil => exact .cons rfl (fun _ => rfl) closed
      | cons member members =>
          obtain ⟨name, value⟩ := member
          obtain ⟨first, rest⟩ := List.forall_mem_cons.1 inner
          have later := (spells_membersChars rest).append closed
            fun _ _ => endsNumber_cons (by decide)
          have all := (spells_named name first).append later fun _ ends => by
            rw [List.append_assoc]
            exact endsNumber_membersChars members (endsNumber_cons (by decide))
          have mark (tail : List Char) : next? ('\x7b' :: tail) = some (.openObject, tail) := rfl
          simpa [Json.chars, Json.tokens] using Spells.cons rfl mark all

end Token

end SchemaStream
