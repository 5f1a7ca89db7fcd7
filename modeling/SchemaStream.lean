import SchemaStream.Proofs.Outcome
import SchemaStream.Proofs.Stream.LastWrite
import SchemaStream.Stream.Events
import SchemaStream.Stream.Production
import SchemaStream.Proofs.Schema.Expansion
import SchemaStream.Proofs.Schema.Grounding
import SchemaStream.Proofs.Json.Reordering
import SchemaStream.Proofs.Schema.WellFormed
import SchemaStream.Proofs.Schema.Overlay
import SchemaStream.Proofs.Schema.ReferenceChains
import SchemaStream.Proofs.Schema.Respelling
import SchemaStream.Proofs.Schema.Simulation
import SchemaStream.Proofs.Json.Rearrangement
import SchemaStream.Proofs.Schema.Rendering
import SchemaStream.Proofs.Schema.ReadBack
import SchemaStream.Proofs.Schema.Rounds
import SchemaStream.Proofs.Schema.Cycles
import SchemaStream.Proofs.Schema.Remaining
import SchemaStream.Proofs.Schema.Invariants
import SchemaStream.Proofs.Schema.DocumentSimulation
import SchemaStream.Proofs.Schema.Expanded
import SchemaStream.Proofs.Schema.SoleMember
import SchemaStream.Proofs.Schema.Conformance
import SchemaStream.Proofs.Schema.Compilation
import SchemaStream.Proofs.Typing.Integrality
import SchemaStream.Proofs.Typing.Acceptance
import SchemaStream.Proofs.Typing.StrictValues
import SchemaStream.Proofs.Stream.History
import SchemaStream.Proofs.Stream.Lifecycle
import SchemaStream.Proofs.Stream.Capping
import SchemaStream.Proofs.Typing.PartialTypes
import SchemaStream.Proofs.Typing.Alike
import SchemaStream.Proofs.Typing.ExpandedTypes
import SchemaStream.Proofs.Stream.LastValid
import SchemaStream.Proofs.Flat.Paths
import SchemaStream.Proofs.Flat.FirstLeaves
import SchemaStream.Proofs.Flat.Sequences
import SchemaStream.Proofs.Flat.Survivors
import SchemaStream.Proofs.Schema.Vocabulary
import SchemaStream.Proofs.Typing.Vocabulary
import SchemaStream.Proofs.Schema.Augmented
import SchemaStream.Proofs.Schema.AugmentedAgain
import SchemaStream.Proofs.Schema.AugmentedRequired
import SchemaStream.Proofs.Typing.Cuts
import SchemaStream.Proofs.Preparation
import SchemaStream.Proofs.Stability
import SchemaStream.Proofs.Stream.HonestStream
import SchemaStream.Proofs.Schema.Filter
import SchemaStream.Proofs.Typing.Filtering
import SchemaStream.Proofs.Text.Blank
import SchemaStream.Proofs.Text.Utf8
import SchemaStream.Proofs.Stream.LineReader
import SchemaStream.Proofs.Stream.Lines
import SchemaStream.Proofs.Stream.Disturbances
import SchemaStream.Proofs.Json.Numerals
import SchemaStream.Proofs.Json.Spelling
import SchemaStream.Proofs.Json.RoundTrip
import SchemaStream.Proofs.Stream.ChunkText
import SchemaStream.Proofs.Stream.EventText
import SchemaStream.Proofs.StrictPreparation
import SchemaStream.Proofs.ReferenceFaults
import SchemaStream.Proofs.Schema.CompiledMembers
import SchemaStream.Proofs.Schema.Obtained
import SchemaStream.Proofs.StrictDialect
import SchemaStream.Proofs.SurvivingReferences
import SchemaStream.Proofs.Schema.InPlace
import SchemaStream.Proofs.Schema.Resolution
import SchemaStream.Proofs.Schema.CycleSearch
import SchemaStream.Proofs.Typing.Pruning
import SchemaStream.Proofs.Stream.Accumulation
import SchemaStream.Proofs.Stream.Padding
import SchemaStream.Proofs.Stream.Alignment
import SchemaStream.Proofs.Termination
import SchemaStream.Proofs.Conservation
import SchemaStream.Proofs.Completeness
import SchemaStream.Proofs.Slots
import SchemaStream.Proofs.Markers
import SchemaStream.Proofs.AllOfArity
import SchemaStream.Proofs.Schema.Grammar
import SchemaStream.Proofs.Schema.NormalForm
import SchemaStream.Proofs.NormalForm
import SchemaStream.Proofs.Schema.Recompiling
import SchemaStream.Proofs.StrictStability
import SchemaStream.Proofs.RequiredNames
import SchemaStream.Proofs.Forest
