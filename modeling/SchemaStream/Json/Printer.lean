import SchemaStream.Json.Basic
import SchemaStream.Number.Shortest

/-!
# Compact JSON text

A value is written without blanks, members in their order.  In a string only the quote,
the backslash and the controls below the blank are escaped.
-/

namespace SchemaStream

def Number.chars : Number → List Char
  | .natural value => Nat.toDigits 10 value.val
  | .negative below => '-' :: Nat.toDigits 10 (below.val + 1)
  | .binary value => value.chars

namespace Json

def hexDigit (n : Nat) : Char := Nat.digitChar n

def escaped (c : Char) : List Char :=
  match c with
  | '"' => ['\\', '"']
  | '\\' => ['\\', '\\']
  | '\x08' => ['\\', 'b']
  | '\x0c' => ['\\', 'f']
  | '\n' => ['\\', 'n']
  | '\r' => ['\\', 'r']
  | '\t' => ['\\', 't']
  | c =>
      if c.toNat < 0x20 then
        ['\\', 'u', '0', '0', hexDigit (c.toNat / 16), hexDigit (c.toNat % 16)]
      else [c]

def quoted (text : String) : List Char := '"' :: text.toList.flatMap escaped ++ ['"']

mutual

def chars : Json → List Char
  | .null => "null".toList
  | .bool true => "true".toList
  | .bool false => "false".toList
  | .number value => value.chars
  | .string text => quoted text
  | .array [] => ['[', ']']
  | .array (item :: items) => '[' :: item.chars ++ itemsChars items ++ [']']
  | .object [] => ['\x7b', '\x7d']
  | .object ((name, value) :: rest) =>
      '\x7b' :: quoted name ++ ':' :: value.chars ++ membersChars rest ++ ['\x7d']

/-- Each further item, after its comma. -/
def itemsChars : List Json → List Char
  | [] => []
  | item :: items => ',' :: item.chars ++ itemsChars items

def membersChars : List (String × Json) → List Char
  | [] => []
  | (name, value) :: rest => ',' :: quoted name ++ ':' :: value.chars ++ membersChars rest

end

def text (value : Json) : String := String.ofList value.chars

end Json

end SchemaStream
