import NativeExpr.Word
import NativeExpr.Scalar.Basic
import NativeExpr.Scalar.Precision
import NativeExpr.Register.Basic
import NativeExpr.Register.File
import NativeExpr.Error
import NativeExpr.Arena
import NativeExpr.Session
import NativeExpr.Graph.Basic
import NativeExpr.Graph.Builder
import NativeExpr.Graph.Operation
import NativeExpr.Graph.Eval
import NativeExpr.Storage
import NativeExpr.X64.Instruction
import NativeExpr.X64.Encode
import NativeExpr.X64.Decode
import NativeExpr.X64.Text
import NativeExpr.X64.CodeBuffer
import NativeExpr.X64.Assembler
import NativeExpr.Convention
import NativeExpr.Frame
import NativeExpr.Options
import NativeExpr.Graph.Uses
import NativeExpr.Lowering.State
import NativeExpr.Lowering.Arithmetic
import NativeExpr.Lowering.Memory
import NativeExpr.Lowering.Cast
import NativeExpr.Lowering.Call
import NativeExpr.Lowering.Conditional
import NativeExpr.Lowering.Function
import NativeExpr.Machine.State
import NativeExpr.Machine.Step
import NativeExpr.Machine.Foreign
import NativeExpr.Machine.Library
import NativeExpr.Machine.Run
import NativeExpr.Decimal.Shortest
import NativeExpr.Region
import NativeExpr.Compile
import NativeExpr.Scalar.Text
import NativeExpr.Report
import NativeExpr.Main
import NativeExpr.Proofs.Floats
import NativeExpr.Proofs.Outcome
import NativeExpr.Proofs.Graph.Typing
import NativeExpr.Proofs.Graph.Counting
import NativeExpr.Proofs.Graph.Construction
import NativeExpr.Proofs.Graph.Evaluation
import NativeExpr.Proofs.Graph.Extension
import NativeExpr.Proofs.Graph.Arms
import NativeExpr.Proofs.Encoding
import NativeExpr.Proofs.Layout
import NativeExpr.Proofs.Listing
import NativeExpr.Proofs.Execution
import NativeExpr.Proofs.Occupancy
import NativeExpr.Proofs.Requests
import NativeExpr.Proofs.Registers
import NativeExpr.Proofs.Convention
import NativeExpr.Proofs.Cells
import NativeExpr.Proofs.Entry
import NativeExpr.Proofs.Schedule
import NativeExpr.Proofs.Widths
import NativeExpr.Proofs.Effects
import NativeExpr.Proofs.Arithmetic
import NativeExpr.Proofs.Lowering.Noted
import NativeExpr.Proofs.Lowering.Crossing
import NativeExpr.Proofs.Lowering.Invariant
import NativeExpr.Proofs.Lowering.Tables
import NativeExpr.Proofs.Lowering.Running
import NativeExpr.Proofs.Lowering.Reading
import NativeExpr.Proofs.Lowering.Allocation
import NativeExpr.Proofs.Lowering.Values
import NativeExpr.Proofs.Lowering.Turn
import NativeExpr.Proofs.Lowering.Binary
import NativeExpr.Proofs.Lowering.Division
import NativeExpr.Proofs.Lowering.Compare
import NativeExpr.Proofs.Lowering.Memory
import NativeExpr.Proofs.Lowering.Cast
import NativeExpr.Proofs.Lowering.Call
import NativeExpr.Proofs.Playing
import NativeExpr.Proofs.Lowering.Ledger
import NativeExpr.Proofs.Lowering.Immediate
import NativeExpr.Proofs.Lowering.Decision
import NativeExpr.Proofs.Lowering.Arm
import NativeExpr.Proofs.Lowering.Merge
import NativeExpr.Proofs.Lowering.Legs
import NativeExpr.Proofs.Lowering.Passage
import NativeExpr.Proofs.Lowering.Meeting
import NativeExpr.Proofs.Lowering.Select
import NativeExpr.Proofs.Lowering.Generate
import NativeExpr.Proofs.Lowering.Parameters
import NativeExpr.Proofs.Lowering.Body
import NativeExpr.Proofs.Lowering.Journal
import NativeExpr.Proofs.Lowering.Entered
import NativeExpr.Proofs.Safety
import NativeExpr.Proofs.Canonical
import NativeExpr.Proofs.Calls
import NativeExpr.Proofs.Linking
import NativeExpr.Proofs.Determined
import NativeExpr.Proofs.Graph.Answers
import NativeExpr.Proofs.Graph.Bypass
import NativeExpr.Proofs.Reference
import NativeExpr.Proofs.Correctness
import NativeExpr.Proofs.Demand
import NativeExpr.Proofs.Exclusivity
import NativeExpr.Proofs.Convergence
import NativeExpr.Proofs.InStep
import NativeExpr.Proofs.Assembling
import NativeExpr.Proofs.Lowering.Twins
import NativeExpr.Proofs.Lowering.Lockstep
import NativeExpr.Proofs.Lowering.Room
import NativeExpr.Proofs.Completeness
import NativeExpr.Proofs.Capacity
import NativeExpr.Proofs.Stream
import NativeExpr.Proofs.Stability
import NativeExpr.Proofs.Graph.Atomicity
import NativeExpr.Proofs.Labels
import NativeExpr.Proofs.Lowering.Arrival
import NativeExpr.Proofs.Graph.Numbers
import NativeExpr.Proofs.Graph.Laziness
import NativeExpr.Proofs.Eviction
import NativeExpr.Proofs.Graph.Traversal
import NativeExpr.Proofs.Replay
import NativeExpr.Proofs.Residue
