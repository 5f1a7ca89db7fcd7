import SchemaStream.Json.Numeral

/-!
# Tokens of JSON text

Reading text into tokens checks its spelling only.  A string with an unpaired surrogate
escape and a number beyond the finite range are tokens like others, without a value: such
a token does no harm where its value is not asked for.
-/

namespace SchemaStream

inductive Token where
  | openArray
  | closeArray
  | openObject
  | closeObject
  | colon
  | comma
  | null
  | bool (value : Bool)
  | number (value : Option Number)
  | string (text : Option String)
  deriving DecidableEq, Repr

namespace Token

/-! ## Strings -/

/-- A string holds characters and escaped units of sixteen bits. -/
inductive Piece where
  | char (c : Char)
  | unit (code : Nat)
  deriving DecidableEq, Repr

def hexValue? (c : Char) : Option Nat :=
  if '0' ≤ c ∧ c ≤ '9' then some (c.toNat - '0'.toNat)
  else if 'a' ≤ c ∧ c ≤ 'f' then some (c.toNat - 'a'.toNat + 10)
  else if 'A' ≤ c ∧ c ≤ 'F' then some (c.toNat - 'A'.toNat + 10)
  else none

def isHighSurrogate (code : Nat) : Bool := 0xD800 ≤ code && code < 0xDC00

def isLowSurrogate (code : Nat) : Bool := 0xDC00 ≤ code && code < 0xE000

/-- A high unit and the low unit right after it make one character; neither stands alone. -/
def pieceChars? : List Piece → Option (List Char)
  | [] => some []
  | .char c :: rest => (pieceChars? rest).map (c :: ·)
  | .unit high :: .unit low :: rest =>
      if isHighSurrogate high && isLowSurrogate low then
        let code := 0x10000 + (high - 0xD800) * 0x400 + (low - 0xDC00)
        (pieceChars? rest).map (Char.ofNat code :: ·)
      else if isHighSurrogate high || isLowSurrogate high then none
      else (pieceChars? (.unit low :: rest)).map (Char.ofNat high :: ·)
  | .unit code :: rest =>
      if isHighSurrogate code || isLowSurrogate code then none
      else (pieceChars? rest).map (Char.ofNat code :: ·)

def escapedChar? : Char → Option Char
  | '"' => some '"'
  | '\\' => some '\\'
  | '/' => some '/'
  | 'b' => some '\x08'
  | 'f' => some '\x0c'
  | 'n' => some '\n'
  | 'r' => some '\r'
  | 't' => some '\t'
  | _ => none

/-- The pieces up to the closing quote, and what follows it. -/
def readString? : List Char → Option (List Piece × List Char)
  | [] => none
  | '"' :: rest => some ([], rest)
  | '\\' :: 'u' :: a :: b :: c :: d :: rest => do
      let code := (← hexValue? a) * 0x1000 + (← hexValue? b) * 0x100 +
        (← hexValue? c) * 0x10 + (← hexValue? d)
      let (pieces, rest) ← readString? rest
      some (.unit code :: pieces, rest)
  | '\\' :: c :: rest => do
      let char ← escapedChar? c
      let (pieces, rest) ← readString? rest
      some (.char char :: pieces, rest)
  | c :: rest => do
      if c = '\\' ∨ c.toNat < 0x20 then none
      else
        let (pieces, rest) ← readString? rest
        some (.char c :: pieces, rest)

/-! ## Numbers -/

def digitValue (c : Char) : Nat := c.toNat - '0'.toNat

/-- The digits at the front, and what follows them. -/
def digits (cs : List Char) : List Nat × List Char :=
  ((cs.takeWhile Char.isDigit).map digitValue, cs.dropWhile Char.isDigit)

/-- A run of at least one digit. -/
def digits? (cs : List Char) : Option (List Nat × List Char) :=
  match digits cs with
  | ([], _) => none
  | found => some found

/-- A leading zero stands alone. -/
def readWhole? (cs : List Char) : Option (List Nat × List Char) :=
  match digits? cs with
  | some (0 :: _ :: _, _) => none
  | found => found

def readFraction? : List Char → Option (Option (List Nat) × List Char)
  | '.' :: rest => (digits? rest).map fun (found, rest) => (some found, rest)
  | cs => some (none, cs)

def readSign : List Char → Bool × List Char
  | '-' :: rest => (true, rest)
  | '+' :: rest => (false, rest)
  | cs => (false, cs)

def readExponent? (cs : List Char) : Option (Option Int × List Char) :=
  match cs with
  | c :: rest =>
      if c = 'e' ∨ c = 'E' then
        let (negative, rest) := readSign rest
        (digits? rest).map fun (found, rest) =>
          let size := Numeral.ofDigits found
          (some (if negative then -(size : Int) else size), rest)
      else some (none, cs)
  | [] => some (none, [])

def readNumeral? (negative : Bool) (cs : List Char) : Option (Numeral × List Char) := do
  let (whole, cs) ← readWhole? cs
  let (fraction, cs) ← readFraction? cs
  let (exponent, cs) ← readExponent? cs
  some (⟨negative, whole, fraction, exponent⟩, cs)

/-! ## Text -/

def isBlank (c : Char) : Bool := c = ' ' || c = '\n' || c = '\t' || c = '\r'

def readWord? : List Char → Option (Token × List Char)
  | 'n' :: 'u' :: 'l' :: 'l' :: rest => some (.null, rest)
  | 't' :: 'r' :: 'u' :: 'e' :: rest => some (.bool true, rest)
  | 'f' :: 'a' :: 'l' :: 's' :: 'e' :: rest => some (.bool false, rest)
  | _ => none

/-- The token at the front, and what follows it. -/
def next? : List Char → Option (Token × List Char)
  | '[' :: rest => some (.openArray, rest)
  | ']' :: rest => some (.closeArray, rest)
  | '\x7b' :: rest => some (.openObject, rest)
  | '\x7d' :: rest => some (.closeObject, rest)
  | ':' :: rest => some (.colon, rest)
  | ',' :: rest => some (.comma, rest)
  | '"' :: rest =>
      (readString? rest).map fun (pieces, rest) =>
        (.string ((pieceChars? pieces).map String.ofList), rest)
  | '-' :: rest =>
      (readNumeral? true rest).map fun (numeral, rest) => (.number numeral.number?, rest)
  | cs =>
      match readWord? cs with
      | some found => some found
      | none => (readNumeral? false cs).map fun (numeral, rest) => (.number numeral.number?, rest)

/-- At most `fuel` tokens; no text has more tokens than characters. -/
def scan? : Nat → List Char → Option (List Token)
  | 0, _ => none
  | fuel + 1, cs =>
      match cs.dropWhile isBlank with
      | [] => some []
      | rest => do
          let (token, rest) ← next? rest
          let tokens ← scan? fuel rest
          some (token :: tokens)

def ofChars? (cs : List Char) : Option (List Token) := scan? (cs.length + 1) cs

end Token

end SchemaStream
