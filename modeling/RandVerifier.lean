import RandVerifier.Alu
import RandVerifier.Ancestry
import RandVerifier.Arith
import RandVerifier.Branch
import RandVerifier.Branches
import RandVerifier.Calls
import RandVerifier.Concrete
import RandVerifier.Control
import RandVerifier.Ctx
import RandVerifier.Exec
import RandVerifier.Flow
import RandVerifier.FrameAccess
import RandVerifier.Frames
import RandVerifier.Helper
import RandVerifier.Insn
import RandVerifier.Liveness
import RandVerifier.Mini
import RandVerifier.Paths
import RandVerifier.Precision
import RandVerifier.Refine
import RandVerifier.Runtime
import RandVerifier.Stack
import RandVerifier.State
import RandVerifier.StateEq
import RandVerifier.Tnum
import RandVerifier.Transition
import RandVerifier.Contain
import RandVerifier.Ledger
import RandVerifier.Refs
import RandVerifier.Codec
import RandVerifier.Cfg
import RandVerifier.CfgSound
import RandVerifier.Explorer
import RandVerifier.SharedStore
import RandVerifier.Explore
import RandVerifier.CallDepth
import RandVerifier.Engines
import RandVerifier.KnownBits
import RandVerifier.Sync
import RandVerifier.AluSound
import RandVerifier.Spec.Memory
import RandVerifier.Spec.Helper
import RandVerifier.Spec.Runner
import RandVerifier.Spec.StackValues
import RandVerifier.Spec.Steps
import RandVerifier.Spec.Paths
import RandVerifier.Spec.CallFrames
import RandVerifier.Spec.Cells
import RandVerifier.Spec.Resources
import RandVerifier.Alu32Sound
import RandVerifier.BranchSound
import RandVerifier.StackSound
import RandVerifier.PointerOffsets
import RandVerifier.BufferBounds
import RandVerifier.Dynptrs
import RandVerifier.ExactMatch
import RandVerifier.IdPairs
import RandVerifier.ConcreteMemory
import RandVerifier.CallReturn
import RandVerifier.Fixup
import RandVerifier.AccessBounds
import RandVerifier.Settle
import RandVerifier.StructuralPasses
import RandVerifier.Walks
import RandVerifier.StackBudget
import RandVerifier.Spec.Intervals
import RandVerifier.Spec.BranchIntervals
import RandVerifier.Spec.Offsets
import RandVerifier.Spec.AccessSafety
import RandVerifier.MapFds
import RandVerifier.Deletions
import RandVerifier.Ddmin
import RandVerifier.Operand
import RandVerifier.Passes
import RandVerifier.Shrink
import RandVerifier.Driver
import RandVerifier.Slices
import RandVerifier.Draws
import RandVerifier.Generator
import RandVerifier.Renaming
import RandVerifier.Mutator
import RandVerifier.Oracle
import RandVerifier.Replay
import RandVerifier.Metadata
import RandVerifier.Constants
import RandVerifier.SmtEncoding
import RandVerifier.TnumLaws
import RandVerifier.SyncLaws
import RandVerifier.Seeds
import RandVerifier.Chaotic
import RandVerifier.LiveSolution
import RandVerifier.OrderedMap
import RandVerifier.Triage
import RandVerifier.Novelty
import RandVerifier.TnumPrecision
import RandVerifier.GuestSafety
