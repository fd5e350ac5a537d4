import Protocell.Assembly.Draft
import Protocell.Assembly.Error
import Protocell.Assembly.Fold
import Protocell.Assembly.Literal
import Protocell.Assembly.Statement
import Protocell.ByteTable
import Protocell.Cell.Basic
import Protocell.Cell.Json
import Protocell.Cell.State
import Protocell.Command.Assemble
import Protocell.Command.Inspect
import Protocell.Command.Options
import Protocell.Command.Outcome
import Protocell.Command.Run
import Protocell.Files
import Protocell.Flow.Analysis
import Protocell.Flow.Block
import Protocell.Flow.Location
import Protocell.Flow.Report
import Protocell.Host.Basic
import Protocell.Host.Script
import Protocell.Instruction
import Protocell.InstructionSet.Basic
import Protocell.InstructionSet.Describe
import Protocell.InstructionSet.Standard
import Protocell.Json.Basic
import Protocell.Json.Decode
import Protocell.Json.Parser
import Protocell.Json.Text
import Protocell.Listing
import Protocell.Machine.Action
import Protocell.Machine.Basic
import Protocell.Machine.Repertoire
import Protocell.Machine.Snapshot
import Protocell.Machine.Step
import Protocell.Main
import Protocell.Memory
import Protocell.Operation
import Protocell.Operation.Arithmetic
import Protocell.Program.Basic
import Protocell.Program.Files
import Protocell.Program.Json
import Protocell.Text.Blank
import Protocell.Text.Digits
import Protocell.Text.Line
import Protocell.Text.Pieces
import Protocell.Proofs.Frames.Live
import Protocell.Proofs.Frames.Basic
import Protocell.Proofs.Frames.Machine
import Protocell.Proofs.Access
import Protocell.Proofs.Frames.Layout
import Protocell.Proofs.Frames.Refinement
import Protocell.Proofs.Folding.Forest
import Protocell.Proofs.Opcodes
import Protocell.Proofs.Expression.Execution
import Protocell.Proofs.Folding.Settle
import Protocell.Proofs.Folding.Applied
import Protocell.Proofs.Source.LineCode
import Protocell.Proofs.Expression.Line
import Protocell.Proofs.Flow.Closure
import Protocell.Proofs.Flow.Exact
import Protocell.Proofs.Flow.Tracking
import Protocell.Proofs.Flow.Soundness
import Protocell.Proofs.Runs.Status
import Protocell.Proofs.Runs.Halting
import Protocell.Proofs.Runs.Calls
import Protocell.Proofs.Runs.Hiding
import Protocell.Proofs.Runs.Requests
import Protocell.Proofs.Runs.Isolation
import Protocell.Proofs.Encoding
import Protocell.Proofs.Faults
import Protocell.Proofs.Folding.Locality
import Protocell.Proofs.Source.Numbering
import Protocell.Proofs.Labels
import Protocell.Proofs.Source.Reading
import Protocell.Proofs.Capacity
import Protocell.Proofs.Source.Replacement
import Protocell.Proofs.Names
import Protocell.Proofs.Source.Order
import Protocell.Proofs.Source.Instructions
import Protocell.Proofs.Listing
import Protocell.Proofs.Runs.Hosts
import Protocell.Proofs.Runs.Slices
import Protocell.Proofs.Runs.Stores
import Protocell.Proofs.Extension
import Protocell.Proofs.BankFiles
import Protocell.Proofs.Flow.Onward
import Protocell.Proofs.Runs.Metering
import Protocell.Proofs.Flow.Chains
import Protocell.Proofs.Flow.Discovery
import Protocell.Proofs.Flow.Partition
import Protocell.Proofs.Flow.BlockListing
import Protocell.Proofs.Variants
import Protocell.Proofs.Runs.Arguments
import Protocell.Proofs.Runs.Unwinding
import Protocell.Proofs.Tiling
import Protocell.Proofs.LineText
import Protocell.Proofs.ErrorLines
import Protocell.Proofs.Source.DataLines
import Protocell.Proofs.DataSource
import Protocell.Proofs.Runs.Following
import Protocell.Proofs.Runs.Energy
import Protocell.Proofs.Runs.Asking
import Protocell.Proofs.Numerals
import Protocell.Proofs.Json.Tokens
import Protocell.Proofs.Json.Reading
import Protocell.Proofs.WireForm
import Protocell.Proofs.Flow.Budget
import Protocell.Proofs.Mnemonics
import Protocell.Proofs.Literals
import Protocell.Proofs.Json.Layout
import Protocell.Proofs.Json.Records
import Protocell.Proofs.SnapshotText
import Protocell.Proofs.Configurations
