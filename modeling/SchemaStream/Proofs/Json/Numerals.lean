import SchemaStream.Json.Printer
import SchemaStream.Json.Token
import Mathlib.Data.List.TakeWhile

/-!
# Numbers written and read

The text of a number is read as far as it goes, whatever follows it that cannot belong to a
number, and the text of an integer denotes that integer.
-/

namespace SchemaStream

/-! ## The characters of a number -/

/-- The characters that a number is written with. -/
def Token.isNumeric (c : Char) : Bool := c.isDigit || ['-', '+', '.', 'e'].contains c

theorem Decimal.isNumeric_of_mem_chars (d : Decimal) {c : Char} (mem : c ∈ d.chars) :
    Token.isNumeric c = true := by
  have digit {n : Nat} (mem : c ∈ Nat.toDigits 10 n) : Token.isNumeric c = true := by
    rw [Token.isNumeric, Nat.isDigit_of_mem_toDigits (by decide) (by decide) mem]
    rfl
  rw [Decimal.chars] at mem
  split at mem
  · split at mem
    · simp only [List.mem_append, List.mem_replicate, List.mem_cons, List.not_mem_nil] at mem
      obtain (mem | ⟨-, rfl⟩) | rfl | rfl | ⟨⟨⟩⟩ := mem
      · exact digit mem
      all_goals rfl
    · split at mem
      · simp only [List.mem_append, List.mem_cons] at mem
        obtain mem | rfl | mem := mem
        · exact digit (List.mem_of_mem_take mem)
        · rfl
        · exact digit (List.mem_of_mem_drop mem)
      · simp only [List.cons_append, List.mem_cons, List.mem_append, List.mem_replicate] at mem
        obtain rfl | rfl | ⟨-, rfl⟩ | mem := mem
        any_goals rfl
        exact digit mem
  · simp only [List.mem_append, List.mem_cons] at mem
    obtain mem | rfl | rfl | mem := mem
    · split at mem
      · next split =>
          simp only [List.mem_cons] at mem
          obtain rfl | rfl | mem := mem
          · exact digit (by rw [split]; exact List.mem_cons_self)
          · rfl
          · exact digit (by rw [split]; exact List.mem_cons_of_mem _ (List.mem_cons.2 mem))
      · exact digit mem
    · rfl
    · split <;> rfl
    · exact digit mem

theorem Binary64.isNumeric_of_mem_chars (x : Binary64) {c : Char} (mem : c ∈ x.chars) :
    Token.isNumeric c = true := by
  have body (mem : c ∈ if x.isZero then ['0', '.', '0'] else
      (Decimal.shortest x.magnitude).chars) : Token.isNumeric c = true := by
    split at mem
    · simp only [List.mem_cons, List.not_mem_nil] at mem
      obtain rfl | rfl | rfl | ⟨⟨⟩⟩ := mem <;> rfl
    · exact Decimal.isNumeric_of_mem_chars _ mem
  rw [Binary64.chars] at mem
  split at mem
  · obtain rfl | mem := List.mem_cons.1 mem
    · rfl
    · exact body mem
  · exact body mem

theorem Number.isNumeric_of_mem_chars (value : Number) {c : Char} (mem : c ∈ value.chars) :
    Token.isNumeric c = true := by
  have digit {n : Nat} (mem : c ∈ Nat.toDigits 10 n) : Token.isNumeric c = true := by
    rw [Token.isNumeric, Nat.isDigit_of_mem_toDigits (by decide) (by decide) mem]
    rfl
  cases value with
  | natural value => exact digit mem
  | negative below =>
      obtain rfl | mem := List.mem_cons.1 mem
      · rfl
      · exact digit mem
  | binary value => exact value.isNumeric_of_mem_chars mem

namespace Token

/-! ## Reading as far as a number goes -/

variable {cs rest tail : List Char}

/-- No number that ends before this text could go on in it. -/
def EndsNumber (tail : List Char) : Prop :=
  ∀ c ∈ tail.head?, c.isDigit = false ∧ c ≠ '.' ∧ c ≠ 'e' ∧ c ≠ 'E'

theorem digits_append (ends : EndsNumber tail) (cs : List Char) :
    digits (cs ++ tail) = ((digits cs).1, (digits cs).2 ++ tail) := by
  induction cs with
  | nil =>
      cases tail with
      | nil => rfl
      | cons c tail => simp [digits, (ends c rfl).1]
  | cons c cs ih =>
      simp only [digits, Prod.mk.injEq] at ih
      cases found : c.isDigit with
      | false => simp [digits, found]
      | true => simp [digits, found, ih.1, ih.2]

theorem digits?_append (ends : EndsNumber tail) {found : List Nat}
    (read : digits? cs = some (found, rest)) :
    digits? (cs ++ tail) = some (found, rest ++ tail) := by
  rw [digits?, digits_append ends]
  rw [digits?] at read
  revert read
  obtain ⟨values, after⟩ := digits cs
  cases values with
  | nil => simp
  | cons value values =>
      rintro ⟨⟩
      rfl

theorem readWhole?_append (ends : EndsNumber tail) {found : List Nat}
    (read : readWhole? cs = some (found, rest)) :
    readWhole? (cs ++ tail) = some (found, rest ++ tail) := by
  rw [readWhole?] at read
  split at read
  · cases read
  · next lone =>
      rw [readWhole?, digits?_append ends read]
      split
      · next both =>
          cases both
          exact (lone _ _ _ read).elim
      · rfl

theorem readFraction?_of_head_ne (other : cs.head? ≠ some '.') :
    readFraction? cs = some (none, cs) := by
  fun_cases readFraction? cs with
  | case1 after => exact absurd rfl other
  | case2 => rfl

theorem readFraction?_append (ends : EndsNumber tail) {found : Option (List Nat)}
    (read : readFraction? cs = some (found, rest)) :
    readFraction? (cs ++ tail) = some (found, rest ++ tail) := by
  by_cases point : cs.head? = some '.'
  · obtain ⟨after, rfl⟩ := List.head?_eq_some_iff.1 point
    rw [readFraction?] at read
    obtain ⟨⟨values, after⟩, digits, ⟨⟩⟩ := Option.map_eq_some_iff.1 read
    rw [List.cons_append, readFraction?, digits?_append ends digits]
    rfl
  · rw [readFraction?_of_head_ne point] at read
    cases read
    refine readFraction?_of_head_ne fun starts => ?_
    cases cs with
    | nil => exact (ends '.' starts).2.1 rfl
    | cons c cs => exact point starts

theorem readSign_append (some_left : cs ≠ []) (tail : List Char) :
    readSign (cs ++ tail) = ((readSign cs).1, (readSign cs).2 ++ tail) := by
  obtain ⟨c, cs, rfl⟩ := List.exists_cons_of_ne_nil some_left
  by_cases minus : c = '-'
  · subst minus
    rfl
  by_cases plus : c = '+'
  · subst plus
    rfl
  rw [List.cons_append]
  simp [readSign, minus, plus]

theorem readExponent?_of_head_ne (lower : cs.head? ≠ some 'e') (upper : cs.head? ≠ some 'E') :
    readExponent? cs = some (none, cs) := by
  cases cs with
  | nil => rfl
  | cons c cs =>
      rw [readExponent?, if_neg]
      rintro (rfl | rfl)
      · exact lower rfl
      · exact upper rfl

theorem readExponent?_append (ends : EndsNumber tail) {found : Option Int}
    (read : readExponent? cs = some (found, rest)) :
    readExponent? (cs ++ tail) = some (found, rest ++ tail) := by
  by_cases mark : cs.head? = some 'e' ∨ cs.head? = some 'E'
  · obtain ⟨c, after, rfl, isMark⟩ : ∃ c after, cs = c :: after ∧ (c = 'e' ∨ c = 'E') := by
      cases cs with
      | nil => simp at mark
      | cons c after => exact ⟨c, after, rfl, by simpa using mark⟩
    have some_left : after ≠ [] := by
      rintro rfl
      rw [readExponent?, if_pos isMark] at read
      cases read
    have signed := readSign_append some_left tail
    rw [readExponent?, if_pos isMark] at read
    rw [List.cons_append, readExponent?, if_pos isMark, signed]
    clear signed
    generalize readSign after = sign at read ⊢
    obtain ⟨negative, left⟩ := sign
    obtain ⟨⟨values, last⟩, digits, ⟨⟩⟩ := Option.map_eq_some_iff.1 read
    dsimp only
    rw [digits?_append ends digits]
    rfl
  · rw [not_or] at mark
    rw [readExponent?_of_head_ne mark.1 mark.2] at read
    cases read
    refine readExponent?_of_head_ne (fun starts => ?_) (fun starts => ?_) <;> cases cs with
    | nil =>
        have := ends _ starts
        simp at this
    | cons c cs => simp_all

theorem readNumeral?_append (ends : EndsNumber tail) {negative : Bool} {numeral : Numeral}
    (read : readNumeral? negative cs = some (numeral, rest)) :
    readNumeral? negative (cs ++ tail) = some (numeral, rest ++ tail) := by
  simp only [readNumeral?, Option.bind_eq_bind, Option.bind_eq_some_iff, Prod.exists] at read ⊢
  obtain ⟨whole, first, wholeRead, fraction, second, fractionRead, exponent, third,
    exponentRead, last⟩ := read
  cases last
  exact ⟨_, _, readWhole?_append ends wholeRead, _, _, readFraction?_append ends fractionRead,
    _, _, readExponent?_append ends exponentRead, rfl⟩

/-! ## Integers -/

theorem ofDigits_toDigits (n : Nat) :
    Numeral.ofDigits ((Nat.toDigits 10 n).map digitValue) = n := by
  have same : Nat.ofDigitChars 10 (Nat.toDigits 10 n) 0 = n :=
    Nat.ofDigitChars_toDigits (by decide) (by decide)
  rw [Numeral.ofDigits, List.foldl_map]
  simpa only [Nat.ofDigitChars, digitValue, Nat.mul_comm] using same

/-- A positive integer is written without leading zeros. -/
theorem head?_toDigits_ne {n : Nat} (positive : n ≠ 0) :
    (Nat.toDigits 10 n).head? ≠ some '0' := by
  induction n using Nat.strongRecOn with
  | ind n ih =>
      rw [Nat.toDigits_eq_if (by decide)]
      split
      · simp [positive]
      · next large =>
          rw [List.head?_append, Option.or_of_isSome]
          · exact ih (n / 10) (by omega) (by omega)
          · rw [List.isSome_head?, ne_eq, ← List.length_eq_zero_iff]
            have := Nat.length_toDigits_pos (b := 10) (n := n / 10)
            omega

theorem digits?_toDigits (n : Nat) :
    digits? (Nat.toDigits 10 n) = some ((Nat.toDigits 10 n).map digitValue, []) := by
  have all : ∀ c ∈ Nat.toDigits 10 n, c.isDigit = true := fun c =>
    Nat.isDigit_of_mem_toDigits (by decide) (by decide)
  have found : digits (Nat.toDigits 10 n) = ((Nat.toDigits 10 n).map digitValue, []) := by
    rw [digits, List.takeWhile_eq_self_iff.2 all, List.dropWhile_eq_nil_iff.2 all]
  rw [digits?, found]
  split
  · next none_left =>
      rw [Prod.mk.injEq, List.map_eq_nil_iff] at none_left
      exact absurd none_left.1 Nat.toDigits_ne_nil
  · rfl

theorem eq_zero_of_digitValue_eq_zero {c : Char} (digit : c.isDigit = true)
    (zero : digitValue c = 0) : c = '0' := by
  rw [Char.isDigit_iff_toNat] at digit
  rw [digitValue, Nat.sub_eq_zero_iff_le] at zero
  exact Char.toNat_inj.1 (Nat.le_antisymm zero digit.1)

theorem readWhole?_toDigits (n : Nat) :
    readWhole? (Nat.toDigits 10 n) = some ((Nat.toDigits 10 n).map digitValue, []) := by
  rw [readWhole?, digits?_toDigits]
  split
  · next values more after led =>
      simp only [Option.some.injEq, Prod.mk.injEq, List.map_eq_cons_iff] at led
      obtain ⟨⟨first, later, text, zero, second, last, rfl, -⟩, -⟩ := led
      have digit : first.isDigit = true :=
        Nat.isDigit_of_mem_toDigits (by decide) (by decide) (text ▸ List.mem_cons_self)
      obtain rfl := eq_zero_of_digitValue_eq_zero digit zero
      by_cases none_left : n = 0
      · subst none_left
        cases text
      · exact absurd (by rw [text]; rfl) (head?_toDigits_ne none_left)
  · rfl

theorem readNumeral?_toDigits (negative : Bool) (n : Nat) :
    readNumeral? negative (Nat.toDigits 10 n) =
      some (⟨negative, (Nat.toDigits 10 n).map digitValue, none, none⟩, []) := by
  rw [readNumeral?, readWhole?_toDigits]
  rfl

end Token

namespace Numeral

theorem number?_natural (value : Fin UInt64.size) :
    number? ⟨false, (Nat.toDigits 10 value.val).map Token.digitValue, none, none⟩ =
      some (.natural value) := by
  have whole : wholeValue ⟨false, (Nat.toDigits 10 value.val).map Token.digitValue, none, none⟩ =
      value.val := Token.ofDigits_toDigits _
  simp [number?, whole]

theorem number?_negative (below : Fin (UInt64.size / 2)) :
    number? ⟨true, (Nat.toDigits 10 (below.val + 1)).map Token.digitValue, none, none⟩ =
      some (.negative below) := by
  have whole : wholeValue
      ⟨true, (Nat.toDigits 10 (below.val + 1)).map Token.digitValue, none, none⟩ =
      below.val + 1 := Token.ofDigits_toDigits _
  simp [number?, whole]

end Numeral

end SchemaStream
