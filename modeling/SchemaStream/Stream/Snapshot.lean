import SchemaStream.Preparation
import SchemaStream.Stream.Alignment

/-!
# Snapshots of a stream

A snapshot holds what is known of every candidate after some chunks, and a chunk takes it
to the next.  A candidate that has stopped no longer changes, and a snapshot in which all
have stopped is the last.  Data in progress is checked against the partial type, so that
the last valid value stays at hand; data of a stopped candidate against the full type.
-/

namespace SchemaStream

structure Candidate where
  index : Nat
  state : ChoiceState := {}
  finish : Option FinishReason := none
  /-- The latest value that passed the check for data in progress. -/
  lastValid : Option Json := none
  /-- The outcome of the full check of a stopped candidate. -/
  terminal : Option (Except ValidationError Unit) := none

namespace Candidate

def isFinished (candidate : Candidate) : Bool := candidate.finish = some .stop

def parsed (candidate : Candidate) : Json := Json.unflatten candidate.state.parsed

def likelihoods (candidate : Candidate) : Json := Json.unflatten candidate.state.likelihoods

def filtered (candidate : Candidate) : Json := Auxiliary.filter candidate.parsed

/-- The parsed value with its keys renamed, if the candidate has a key mapping. -/
def aligned (candidate : Candidate) : Json :=
  match candidate.state.keyMapping with
  | none => candidate.parsed
  | some mapping => Json.unflatten (mapping.align candidate.state.parsed)

def failure? (candidate : Candidate) : Option ValidationError :=
  match candidate.terminal with
  | some (.error failure) => some failure
  | _ => none

end Candidate

inductive Phase where
  | empty
  | accumulating
  | terminal
  deriving DecidableEq, Repr

inductive Status where
  | streaming
  | complete
  | invalid
  deriving DecidableEq, Repr

structure Snapshot where
  /-- The type of complete data; without one, all data is valid. -/
  type : Option RecordType
  options : AccumulatorOptions
  candidates : List Candidate := []
  phase : Phase := .empty

structure TerminalFailure where
  choice : Nat
  source : ValidationError
  deriving DecidableEq

namespace Snapshot

def ofPrepared (prepared : Prepared) : Except SchemaError Snapshot := do
  return { type := some (← prepared.recordType), options := prepared.config.accumulator }

def untyped (options : AccumulatorOptions) : Snapshot := { type := none, options }

/-- Whether a value passes the check for data in progress. -/
def allows (snapshot : Snapshot) (value : Json) : Bool :=
  match snapshot.type with
  | some type => !snapshot.options.validatePartials || type.toPartial.accepts value
  | none => true

def outcome (snapshot : Snapshot) (value : Json) : Except ValidationError Unit :=
  match snapshot.type with
  | some type => type.validate value
  | none => .ok ()

/-- A candidate after one more choice. -/
def advance (snapshot : Snapshot) (candidate : Candidate) (choice : Choice) : Candidate :=
  if candidate.isFinished then candidate
  else
    let state := candidate.state.apply choice.delta
    let value := Json.unflatten state.parsed
    let finish := choice.finish.or candidate.finish
    { candidate with
      state
      finish
      lastValid := if snapshot.allows value then some value else candidate.lastValid
      terminal := if finish = some .stop then some (snapshot.outcome value) else none }

/-- The choices of a chunk that are followed. -/
def followed (snapshot : Snapshot) (chunk : Chunk) : List Choice :=
  match snapshot.options.maxChoices with
  | some max => chunk.choices.take max
  | none => chunk.choices

def nextCandidates (snapshot : Snapshot) (chunk : Chunk) : List Candidate :=
  let choices := snapshot.followed chunk
  (List.range (max snapshot.candidates.length choices.length)).map fun index =>
    let candidate := snapshot.candidates[index]?.getD { index }
    match choices[index]? with
    | some choice => snapshot.advance candidate choice
    | none => candidate

def next (snapshot : Snapshot) (chunk : Chunk) : Snapshot :=
  if snapshot.phase = .terminal then snapshot
  else
    let candidates := snapshot.nextCandidates chunk
    { snapshot with
      candidates
      phase :=
        if !candidates.isEmpty && candidates.all Candidate.isFinished then .terminal
        else .accumulating }

def nextAll (snapshot : Snapshot) (chunks : List Chunk) : Snapshot := chunks.foldl next snapshot

def isTerminal (snapshot : Snapshot) : Bool := snapshot.phase = .terminal

/-- A stream stops once every candidate has. -/
def finish (snapshot : Snapshot) : Option FinishReason :=
  if snapshot.isTerminal then some .stop else none

def failure? (snapshot : Snapshot) : Option TerminalFailure :=
  snapshot.candidates.findSome? fun candidate =>
    candidate.failure?.map fun source => ⟨candidate.index, source⟩

def status (snapshot : Snapshot) : Status :=
  if snapshot.isTerminal then
    if snapshot.failure?.isSome then .invalid else .complete
  else .streaming

/-- The snapshot itself, unless the full check of a candidate failed. -/
def result (snapshot : Snapshot) : Except TerminalFailure Snapshot :=
  match snapshot.failure? with
  | some failure => .error failure
  | none => .ok snapshot

end Snapshot

end SchemaStream
