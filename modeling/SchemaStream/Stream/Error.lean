import SchemaStream.Stream.Snapshot
import SchemaStream.Text.Utf8

/-!
# Faults of streams
-/

namespace SchemaStream

inductive DecodeFault where
  | invalidUtf8 (fault : Utf8Fault)
  /-- Data that is no chunk; of long data, the message shows the beginning. -/
  | malformedChunk (data : String)
  deriving DecidableEq

/-- The longest beginning of a text within a number of bytes. -/
def Text.within (bytes : Nat) : List Char → List Char
  | [] => []
  | c :: rest =>
      if c.utf8Size ≤ bytes then c :: Text.within (bytes - c.utf8Size) rest else []

namespace DecodeFault

/-- What stands in a message for the reason why data is no chunk, which is not reported. -/
def unreportedReason : String := "<json error>"

def message : DecodeFault → String
  | .invalidUtf8 fault => "invalid UTF-8 in stream: " ++ fault.message
  | .malformedChunk data =>
      "failed to parse stream chunk: " ++ unreportedReason ++ " (data: " ++
        String.ofList (Text.within 200 data.toList) ++ ")"

end DecodeFault

inductive ExtractionError where
  | schema (error : SchemaError)
  | terminalValidation (failure : TerminalFailure)
  | decode (fault : DecodeFault)
  | transport (message : String)
  deriving DecidableEq

def ExtractionError.message : ExtractionError → String
  | .schema error => "schema error: " ++ error.message
  | .terminalValidation failure =>
      "choice " ++ toString failure.choice ++ " failed terminal validation: " ++
        failure.source.message
  | .decode fault => "decode error: " ++ fault.message
  | .transport message => "transport error: " ++ message

end SchemaStream
