/-!
# UTF-8

Bytes are decoded one at a time.  Decoding stops at the first byte that no character can
have where it stands; the fault tells where the broken character begins and how many bytes
of it were good, counting at least one.
-/

namespace SchemaStream

structure Utf8Fault where
  index : Nat
  length : Nat
  deriving DecidableEq, Repr

def Utf8Fault.message (fault : Utf8Fault) : String :=
  "invalid utf-8 sequence of " ++ toString fault.length ++ " bytes from index " ++
    toString fault.index

namespace Utf8

/-- Where decoding stands: between characters, or inside one of which `read` bytes were read,
`due` more must come, and the next lies between `low` and `high`. -/
inductive State where
  | between
  | inside (code read due low high : Nat)
  deriving DecidableEq, Repr

/-- The state after the first byte of a longer character. -/
def lead? (byte : Nat) : Option State :=
  if 0xC2 ≤ byte ∧ byte ≤ 0xDF then some (.inside (byte - 0xC0) 1 1 0x80 0xBF)
  else if byte = 0xE0 then some (.inside 0 1 2 0xA0 0xBF)
  else if byte = 0xED then some (.inside 0xD 1 2 0x80 0x9F)
  else if 0xE1 ≤ byte ∧ byte ≤ 0xEF then some (.inside (byte - 0xE0) 1 2 0x80 0xBF)
  else if byte = 0xF0 then some (.inside 0 1 3 0x90 0xBF)
  else if 0xF1 ≤ byte ∧ byte ≤ 0xF3 then some (.inside (byte - 0xF0) 1 3 0x80 0xBF)
  else if byte = 0xF4 then some (.inside 4 1 3 0x80 0x8F)
  else none

/-- Decodes from a state; `index` counts the bytes before the character at hand. -/
def decodeFrom (index : Nat) : State → List UInt8 → Except Utf8Fault (List Char)
  | .between, [] => .ok []
  | .inside _ read _ _ _, [] => .error ⟨index, read⟩
  | .between, byte :: rest =>
      if byte.toNat < 0x80 then
        (decodeFrom (index + 1) .between rest).map (Char.ofNat byte.toNat :: ·)
      else
        match lead? byte.toNat with
        | some state => decodeFrom index state rest
        | none => .error ⟨index, 1⟩
  | .inside code read due low high, byte :: rest =>
      if low ≤ byte.toNat ∧ byte.toNat ≤ high then
        let code := code * 0x40 + (byte.toNat - 0x80)
        if due = 1 then
          (decodeFrom (index + read + 1) .between rest).map (Char.ofNat code :: ·)
        else decodeFrom index (.inside code (read + 1) (due - 1) 0x80 0xBF) rest
      else .error ⟨index, read⟩

def decode (bytes : List UInt8) : Except Utf8Fault (List Char) := decodeFrom 0 .between bytes

def encode (text : List Char) : List UInt8 := text.flatMap String.utf8EncodeChar

end Utf8

end SchemaStream
