import SchemaStream.Stream.Wire
import SchemaStream.Text.Utf8

/-!
# Producing streams

Choices put together piece by piece, a whole value as a stream of its leaves, and a stream
of chunks as lines of bytes.
-/

namespace SchemaStream

namespace Choice

def modifyDelta (choice : Choice) (change : Delta → Delta) : Choice :=
  { choice with delta := change choice.delta }

def withParsed (choice : Choice) (key : String) (value : Json) : Choice :=
  choice.modifyDelta fun delta => { delta with parsed := Members.insert delta.parsed key value }

/-- Adds every leaf of a value. -/
def withLeaves (choice : Choice) (value : Json) : Choice :=
  choice.modifyDelta fun delta =>
    { delta with parsed := Members.insertAll delta.parsed value.flatten }

def withLikelihood (choice : Choice) (key : String) (likelihood : Binary64) : Choice :=
  choice.modifyDelta fun delta =>
    { delta with
      likelihoods := Members.insert delta.likelihoods key (.number (.binary likelihood)) }

def withDeleted (choice : Choice) (key : String) : Choice :=
  choice.modifyDelta fun delta => { delta with deleted := delta.deleted ++ [key] }

def withContent (choice : Choice) (text : String) : Choice :=
  choice.modifyDelta fun delta => { delta with content := delta.content ++ text }

def withValidJson (choice : Choice) (valid : Bool) : Choice :=
  choice.modifyDelta fun delta => { delta with validJson := valid }

def withKeyMapping (choice : Choice) (mapping : KeyMapping) : Choice :=
  choice.modifyDelta fun delta => { delta with keyMapping := some mapping }

def withFinish (choice : Choice) (reason : FinishReason) : Choice :=
  { choice with finish := some reason }

end Choice

namespace Chunk

def single (choice : Choice) : Chunk := { choices := [choice] }

/-- One leaf per chunk, the last of which stops. -/
def ofLeaves : FlatMap → List Chunk
  | [] => [single (Choice.withFinish {} .stop)]
  | [(key, value)] => [single ((Choice.withParsed {} key value).withFinish .stop)]
  | (key, value) :: rest => single (Choice.withParsed {} key value) :: ofLeaves rest

def leafByLeaf (value : Json) : List Chunk := ofLeaves value.flatten

def eventText (data : String) : String := "data: " ++ data ++ "\n\n"

/-- Every chunk as an event, and the mark of the end. -/
def eventTexts (chunks : List Chunk) : List String :=
  chunks.map (fun chunk => eventText chunk.text) ++ [eventText "[DONE]"]

def eventBytes (chunks : List Chunk) : List (List UInt8) :=
  (eventTexts chunks).map fun event => Utf8.encode event.toList

end Chunk

end SchemaStream
