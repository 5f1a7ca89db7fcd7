import SchemaStream.Text.Blank
import Mathlib.Data.List.TakeWhile

/-!
# Trimmed texts

Trimming does not see a blank at the end, leaves nothing of blanks alone, and leaves a text
as it is that has a blank at neither end.
-/

namespace SchemaStream

namespace Text

variable {text : List Char} {c : Char}

theorem trim_of_blank (blank : ∀ c ∈ text, isBlank c = true) : trim text = [] := by
  rw [trim, List.dropWhile_eq_nil_iff.2 blank]
  rfl

theorem trim_append_blank (text : List Char) (blank : isBlank c = true) :
    trim (text ++ [c]) = trim text := by
  by_cases all : ∀ c ∈ text, isBlank c = true
  · rw [trim_of_blank all]
    refine trim_of_blank fun other mem => ?_
    rcases List.mem_append.1 mem with mem | mem
    · exact all other mem
    · rw [List.mem_singleton.1 mem]
      exact blank
  · have some : text.dropWhile isBlank ≠ [] := by
      intro none
      exact all fun c mem => List.dropWhile_eq_nil_iff.1 none c mem
    rw [trim, trim, List.dropWhile_append, if_neg (by simpa using some), List.reverse_append,
      List.reverse_singleton, List.singleton_append, List.dropWhile_cons_of_pos blank]

theorem trim_blank_cons (text : List Char) (blank : isBlank c = true) :
    trim (c :: text) = trim text := by
  rw [trim, trim, List.dropWhile_cons_of_pos blank]

theorem dropWhile_isBlank_of_head {first : Char} {rest : List Char}
    (starts : isBlank first = false) :
    (first :: rest).dropWhile isBlank = first :: rest :=
  List.dropWhile_cons_of_neg (by simp [starts])

theorem trim_eq_self {first last : Char} (middle : List Char) (starts : isBlank first = false)
    (ends : isBlank last = false) :
    trim (first :: middle ++ [last]) = first :: middle ++ [last] := by
  rw [trim, List.cons_append, dropWhile_isBlank_of_head starts]
  rw [← List.cons_append, List.reverse_append, List.reverse_singleton, List.singleton_append,
    dropWhile_isBlank_of_head ends]
  simp

end Text

end SchemaStream
