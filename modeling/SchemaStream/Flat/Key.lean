import SchemaStream.Json.Basic

/-!
# Flat keys

A flat key is a path through nested values, its segments joined by points.  An empty
parent key adds no point, so a segment below it stands alone.
-/

namespace SchemaStream

namespace FlatKey

def separator : Char := '.'

def join (parent segment : String) : String :=
  if parent = "" then segment else parent ++ String.singleton separator ++ segment

def splitChars : List Char → List (List Char)
  | [] => [[]]
  | c :: rest =>
      if c = separator then [] :: splitChars rest
      else match splitChars rest with
        | [] => [[c]]
        | segment :: segments => (c :: segment) :: segments

/-- The empty key has one segment, the empty one. -/
def segments (key : String) : List String := (splitChars key.toList).map String.ofList

def ofIndex (index : Nat) : String := String.ofList (Nat.toDigits 10 index)

/-- The index that a segment spells, within 64 bits and in no other way than `ofIndex`
writes it. -/
def index? (segment : String) : Option Nat :=
  let digits := segment.toList
  if digits ≠ [] ∧ digits.all Char.isDigit then
    let index := digits.foldl (fun value c => value * 10 + (c.toNat - '0'.toNat)) 0
    if index < UInt64.size ∧ ofIndex index = segment then some index else none
  else none

end FlatKey

end SchemaStream
