import SchemaStream.Json.Members
import SchemaStream.Number.Binary64

/-!
# JSON values

Numbers keep the form in which they were written: an unsigned or a negative integer of
64 bits, or a finite binary64 number.  Objects keep the order of their members.
-/

namespace SchemaStream

inductive Number where
  | natural (value : Fin UInt64.size)
  /-- The integer `-1 - below`. -/
  | negative (below : Fin (UInt64.size / 2))
  | binary (value : Binary64)
  deriving DecidableEq, Repr

inductive Json where
  | null
  | bool (value : Bool)
  | number (value : Number)
  | string (text : String)
  | array (items : List Json)
  | object (members : List (String × Json))

/-- The six kinds of value, as they are named in messages. -/
inductive ValueKind where
  | null | boolean | number | string | array | object
  deriving DecidableEq, Repr

def ValueKind.name : ValueKind → String
  | .null => "null"
  | .boolean => "boolean"
  | .number => "number"
  | .string => "string"
  | .array => "array"
  | .object => "object"

namespace Number

/-- Integers are compared with integers and binary numbers with binary numbers. -/
def same : Number → Number → Bool
  | .natural a, .natural b => a == b
  | .negative a, .negative b => a == b
  | .binary a, .binary b => a.same b
  | _, _ => false

def isIntegral : Number → Bool
  | .natural _ | .negative _ => true
  | .binary value => value.isIntegral

def toBinary64 : Number → Binary64
  | .natural value => (Binary64.ofNat? value.val).getD (.zero false)
  | .negative below =>
      ((Binary64.ofNat? (below.val + 1)).map fun x => { x with negative := true }).getD (.zero true)
  | .binary value => value

end Number

namespace Json

def nat (n : Nat) : Json := .number (.natural (Fin.ofNat _ n))

def strings (texts : List String) : Json := .array (texts.map .string)

def kind : Json → ValueKind
  | .null => .null
  | .bool _ => .boolean
  | .number _ => .number
  | .string _ => .string
  | .array _ => .array
  | .object _ => .object

def string? : Json → Option String
  | .string text => some text
  | _ => none

def bool? : Json → Option Bool
  | .bool value => some value
  | _ => none

def object? : Json → Option (Members Json)
  | .object members => some members
  | _ => none

def array? : Json → Option (List Json)
  | .array items => some items
  | _ => none

def strings? (items : List Json) : Option (List String) := items.mapM string?

mutual

/-- Equality of values: numbers by `Number.same`, objects whatever the order of their members. -/
def same : Json → Json → Bool
  | .null, .null => true
  | .bool a, .bool b => a == b
  | .number a, .number b => a.same b
  | .string a, .string b => a == b
  | .array items, .array others => sameItems items others
  | .object members, .object others =>
      members.length == others.length && sameMembers members others
  | _, _ => false

def sameItems : List Json → List Json → Bool
  | [], [] => true
  | item :: items, other :: others => same item other && sameItems items others
  | _, _ => false

def sameMembers : List (String × Json) → List (String × Json) → Bool
  | [], _ => true
  | (name, value) :: rest, others =>
      (match Members.get? others name with
        | some other => same value other
        | none => false) && sameMembers rest others

end

mutual

def decEq : (a b : Json) → Decidable (a = b)
  | .null, .null => isTrue rfl
  | .bool a, .bool b => decidable_of_iff (a = b) (by simp)
  | .number a, .number b => decidable_of_iff (a = b) (by simp)
  | .string a, .string b => decidable_of_iff (a = b) (by simp)
  | .array a, .array b =>
      have := decEqItems a b
      decidable_of_iff (a = b) (by simp)
  | .object a, .object b =>
      have := decEqMembers a b
      decidable_of_iff (a = b) (by simp)
  | .null, .bool _ | .null, .number _ | .null, .string _ | .null, .array _ | .null, .object _
  | .bool _, .null | .bool _, .number _ | .bool _, .string _ | .bool _, .array _
  | .bool _, .object _ | .number _, .null | .number _, .bool _ | .number _, .string _
  | .number _, .array _ | .number _, .object _ | .string _, .null | .string _, .bool _
  | .string _, .number _ | .string _, .array _ | .string _, .object _ | .array _, .null
  | .array _, .bool _ | .array _, .number _ | .array _, .string _ | .array _, .object _
  | .object _, .null | .object _, .bool _ | .object _, .number _ | .object _, .string _
  | .object _, .array _ => isFalse nofun

def decEqItems : (a b : List Json) → Decidable (a = b)
  | [], [] => isTrue rfl
  | [], _ :: _ | _ :: _, [] => isFalse nofun
  | a :: as, b :: bs =>
      have := decEq a b
      have := decEqItems as bs
      decidable_of_iff (a = b ∧ as = bs) (by simp)

def decEqMembers : (a b : List (String × Json)) → Decidable (a = b)
  | [], [] => isTrue rfl
  | [], _ :: _ | _ :: _, [] => isFalse nofun
  | (name, a) :: as, (other, b) :: bs =>
      have := decEq a b
      have := decEqMembers as bs
      decidable_of_iff (name = other ∧ a = b ∧ as = bs) (by simp [and_assoc])

end

instance : DecidableEq Json := decEq

/-- To show something of every value, show it of an array from its items, and of an object
from the values of its members. -/
@[elab_as_elim, induction_eliminator]
theorem induct {motive : Json → Prop} (null : motive .null)
    (bool : ∀ value, motive (.bool value)) (number : ∀ value, motive (.number value))
    (string : ∀ text, motive (.string text))
    (array : ∀ items, (∀ item ∈ items, motive item) → motive (.array items))
    (object : ∀ members, (∀ member ∈ members, motive member.2) → motive (.object members))
    (value : Json) : motive value :=
  @Json.rec motive (fun items => ∀ item ∈ items, motive item)
    (fun members => ∀ member ∈ members, motive member.2) (fun member => motive member.2)
    null bool number string array object
    nofun (fun _ _ first rest => List.forall_mem_cons.2 ⟨first, rest⟩)
    nofun (fun _ _ first rest => List.forall_mem_cons.2 ⟨first, rest⟩)
    (fun _ _ value => value) value

end Json

end SchemaStream
