import DataflowSynth.Actor.Basic
import DataflowSynth.Actor.Document
import DataflowSynth.Actor.Loading
import DataflowSynth.Actor.Validation
import DataflowSynth.Build
import DataflowSynth.CommandLine.Arguments
import DataflowSynth.CommandLine.Help
import DataflowSynth.CommandLine.Paths
import DataflowSynth.CommandLine.Run
import DataflowSynth.Design.Basic
import DataflowSynth.Design.Clock
import DataflowSynth.Design.Listing
import DataflowSynth.Design.Printer
import DataflowSynth.Design.Resource
import DataflowSynth.Design.Task
import DataflowSynth.Destination
import DataflowSynth.Digraph
import DataflowSynth.Error
import DataflowSynth.Fifo.Accessor
import DataflowSynth.Fifo.Basic
import DataflowSynth.Fifo.Direction
import DataflowSynth.Handle
import DataflowSynth.Job
import DataflowSynth.Journal
import DataflowSynth.Json.Basic
import DataflowSynth.Json.Number
import DataflowSynth.Json.Reader
import DataflowSynth.Json.Schema
import DataflowSynth.Json.Token
import DataflowSynth.Json.Writer
import DataflowSynth.Main
import DataflowSynth.Memory.Document
import DataflowSynth.Memory.LogicalValue
import DataflowSynth.Memory.Read
import DataflowSynth.Naming
import DataflowSynth.Netlist.Basic
import DataflowSynth.Netlist.Copy
import DataflowSynth.Netlist.Listing
import DataflowSynth.Netlist.Module
import DataflowSynth.Netlist.Order
import DataflowSynth.Netlist.Primitive
import DataflowSynth.Netlist.Printer
import DataflowSynth.Netlist.Wiring
import DataflowSynth.OrderedMap
import DataflowSynth.Pass.Basic
import DataflowSynth.Pass.Plan
import DataflowSynth.Pass.Run
import DataflowSynth.Pass.Setting
import DataflowSynth.Procedure.Basic
import DataflowSynth.Procedure.Printer
import DataflowSynth.Scheduler.Dispatch
import DataflowSynth.Scheduler.Lowering
import DataflowSynth.Synthesis.Actor
import DataflowSynth.Synthesis.Block
import DataflowSynth.Text.Cut
import DataflowSynth.Text.Lines
import DataflowSynth.Text.Plain
import DataflowSynth.Proofs.Actor.Validity
import DataflowSynth.Proofs.Scheduler.Checks
import DataflowSynth.Proofs.Build.Outcome
import DataflowSynth.Proofs.Design.Consistency
import DataflowSynth.Proofs.Scheduler.Choice
import DataflowSynth.Proofs.Scheduler.Refinement
import DataflowSynth.Proofs.Clone.Mapping
import DataflowSynth.Proofs.Clone.Matching
import DataflowSynth.Proofs.Clone.Shell
import DataflowSynth.Proofs.Clone.Buffers
import DataflowSynth.Proofs.Digraph.Sorting
import DataflowSynth.Proofs.Netlist.Ordering
import DataflowSynth.Proofs.Scheduler.Encoding
import DataflowSynth.Proofs.Clone.Frame
import DataflowSynth.Proofs.Design.Layout
import DataflowSynth.Proofs.Synthesis.Resources
import DataflowSynth.Proofs.Synthesis.Sampling
import DataflowSynth.Proofs.Actor.RoundTrip
import DataflowSynth.Proofs.Actor.Defects
import DataflowSynth.Proofs.Circuit.Accessors
import DataflowSynth.Proofs.Design.Boundaries
import DataflowSynth.Proofs.Design.Handshake
import DataflowSynth.Proofs.Design.Ownership
import DataflowSynth.Proofs.Pass.Pipeline
import DataflowSynth.Proofs.Design.Rejection
import DataflowSynth.Proofs.Pass.Repeat
import DataflowSynth.Proofs.Pass.Traffic
import DataflowSynth.Proofs.Scheduler.Enabling
import DataflowSynth.Proofs.Design.Records
import DataflowSynth.Proofs.Pass.PinNames
import DataflowSynth.Proofs.Pass.Registers
import DataflowSynth.Proofs.Design.Sessions
import DataflowSynth.Proofs.Clone.Isomorphism
import DataflowSynth.Proofs.Memory.Removal
import DataflowSynth.Proofs.Pass.Plans
import DataflowSynth.Proofs.Design.Detaching
import DataflowSynth.Proofs.Design.Merging
import DataflowSynth.Proofs.Scheduler.Assignment
import DataflowSynth.Proofs.Scheduler.Closed
import DataflowSynth.Proofs.Scheduler.Requests
import DataflowSynth.Proofs.Memory.TakeOver
import DataflowSynth.Proofs.Memory.Answers
import DataflowSynth.Proofs.Netlist.Cycles
import DataflowSynth.Proofs.Pass.Reordering
import DataflowSynth.Proofs.Pass.Probes
import DataflowSynth.Proofs.Procedure.Unambiguous
import DataflowSynth.Proofs.Actor.Presentation
import DataflowSynth.Proofs.Pass.Options
import DataflowSynth.Proofs.Clone.Withdrawal
