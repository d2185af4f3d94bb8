import Codegen6502.CommandLine.FileTree
import Codegen6502.Main
import Codegen6502.Processor.Boot
import Codegen6502.Processor.Run
import Codegen6502.Program.Builder
import Codegen6502.Proofs.Processor.LineRun
import Codegen6502.Proofs.Calls.Components
import Codegen6502.Proofs.Calls.ClobberSets
import Codegen6502.Proofs.Calls.Closure
import Codegen6502.Proofs.Calls.Pipeline
import Codegen6502.Proofs.Calls.Table
import Codegen6502.Proofs.Calls.Emitted
import Codegen6502.Proofs.Calls.HandlerSaves
import Codegen6502.Proofs.Allocating.Scan
import Codegen6502.Proofs.Calls.LiveAcross
import Codegen6502.Proofs.Processor.Straight
import Codegen6502.Proofs.Platform.Regions
import Codegen6502.Proofs.Selecting.Numbering
import Codegen6502.Proofs.Selecting.Places
import Codegen6502.Proofs.Selecting.Moves
import Codegen6502.Proofs.Liveness.Flow
import Codegen6502.Proofs.Liveness.Intervals
import Codegen6502.Proofs.Allocating.Assignment
import Codegen6502.Proofs.Allocating.Blocks
import Codegen6502.Proofs.Processor.Agreement
import Codegen6502.Proofs.Allocating.Housing
import Codegen6502.Proofs.Selecting.Growth
import Codegen6502.Proofs.Selecting.Shapes
import Codegen6502.Proofs.Selecting.Nodes
import Codegen6502.Proofs.Selecting.Bodies
import Codegen6502.Proofs.Selecting.FrameReach
import Codegen6502.Proofs.Selecting.Displacement
import Codegen6502.Proofs.Selecting.Shifting
import Codegen6502.Proofs.Selecting.Registers
import Codegen6502.Proofs.Selecting.Folding
import Codegen6502.Proofs.Liveness.Least
import Codegen6502.Proofs.Allocating.NeededX
import Codegen6502.Proofs.Allocating.Outcomes
import Codegen6502.Proofs.Selecting.Branches
import Codegen6502.Proofs.Selecting.Knowing
import Codegen6502.Proofs.Routines.Jumps
import Codegen6502.Proofs.Routines.Trampolines
import Codegen6502.Proofs.Routines.Interrupts
import Codegen6502.Proofs.Selecting.Operations
import Codegen6502.Proofs.Emitting.Collisions
import Codegen6502.Proofs.Emitting.Containers
import Codegen6502.Proofs.Emitting.Contents
import Codegen6502.Proofs.Emitting.Crossing
import Codegen6502.Proofs.Emitting.Decoding
import Codegen6502.Proofs.Emitting.Extents
import Codegen6502.Proofs.Emitting.LoadFiles
import Codegen6502.Proofs.Emitting.MemoryUse
import Codegen6502.Proofs.Selecting.Stacking
import Codegen6502.Proofs.Selecting.Addresses
import Codegen6502.Proofs.Routines.Handover
import Codegen6502.Proofs.Programs.RoundTrip
import Codegen6502.Proofs.Emitting.Encoding
import Codegen6502.Proofs.Emitting.CellKeeping
import Codegen6502.Proofs.Routines.Handlers
import Codegen6502.Proofs.Emitting.FlatTargets
import Codegen6502.Proofs.Routines.Variadics
import Codegen6502.Proofs.Allocating.Preservation
import Codegen6502.Proofs.Calls.Recomputing
import Codegen6502.Proofs.Selecting.Signatures
import Codegen6502.Proofs.Emitting.BankRegister
import Codegen6502.Proofs.Emitting.Relaxing
import Codegen6502.Proofs.Emitting.Refusals
import Codegen6502.Proofs.Processor.EffectsTable
import Codegen6502.Proofs.Selecting.OutOfRange
import Codegen6502.Proofs.Processor.Requests
import Codegen6502.Proofs.Allocating.Sharing
import Codegen6502.Proofs.Liveness.Exact
import Codegen6502.Proofs.Allocating.Depths
import Codegen6502.Proofs.Allocating.FrameAddresses
import Codegen6502.Proofs.Selecting.Counters
import Codegen6502.Proofs.Emitting.SymbolCount
