import SchemaStream.Flat.Unflatten

/-!
# Deltas

A stream brings, for each candidate by position, what has changed: leaves newly parsed,
with their likelihoods, keys to retract, and the text itself.  The state of a candidate is
what its deltas add up to.
-/

namespace SchemaStream

inductive FinishReason where
  | stop
  | length
  | contentFilter
  | other
  deriving DecidableEq, Repr

/-- A renaming of keys; a key without a target is dropped. -/
abbrev KeyMapping := Members (Option String)

structure Delta where
  content : String := ""
  parsed : FlatMap := []
  likelihoods : FlatMap := []
  deleted : List String := []
  validJson : Bool := false
  keyMapping : Option KeyMapping := none
  deriving DecidableEq

structure Choice where
  delta : Delta := {}
  finish : Option FinishReason := none
  deriving DecidableEq

structure Chunk where
  choices : List Choice := []
  deriving DecidableEq

structure ChoiceState where
  parsed : FlatMap := []
  likelihoods : FlatMap := []
  content : String := ""
  validJson : Bool := false
  keyMapping : Option KeyMapping := none
  deriving DecidableEq

namespace ChoiceState

/-- Retractions come first, so a delta may retract a key and set it again. -/
def merge (flat : FlatMap) (deleted : List String) (added : FlatMap) : FlatMap :=
  Members.insertAll (deleted.foldl Members.erase flat) added

/-- The validity is that of the latest delta, the key mapping the first that came. -/
def apply (state : ChoiceState) (delta : Delta) : ChoiceState where
  parsed := merge state.parsed delta.deleted delta.parsed
  likelihoods := merge state.likelihoods delta.deleted delta.likelihoods
  content := state.content ++ delta.content
  validJson := delta.validJson
  keyMapping := state.keyMapping.or delta.keyMapping

def applyAll (state : ChoiceState) (deltas : List Delta) : ChoiceState := deltas.foldl apply state

/-- The states after one chunk.  A candidate without a choice in the chunk stays as it is,
one without a state before starts from the empty one. -/
def advance (states : List ChoiceState) (chunk : Chunk) : List ChoiceState :=
  (List.range (max states.length chunk.choices.length)).map fun index =>
    let state := states[index]?.getD {}
    match chunk.choices[index]? with
    | some choice => state.apply choice.delta
    | none => state

def advanceAll (states : List ChoiceState) (chunks : List Chunk) : List ChoiceState :=
  chunks.foldl advance states

end ChoiceState

end SchemaStream
