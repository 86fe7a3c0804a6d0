import HostCode.Addressing
import HostCode.Assembler
import HostCode.Buffer
import HostCode.CommandLine.File
import HostCode.CommandLine.Flags
import HostCode.CommandLine.Run
import HostCode.Condition
import HostCode.Config
import HostCode.Decoder
import HostCode.Decoder.Layout
import HostCode.Decoder.Modifiers
import HostCode.Decoder.OneByte
import HostCode.Decoder.TwoByte
import HostCode.Encoding.Family
import HostCode.Encoding.Field
import HostCode.Encoding.Memory
import HostCode.Encoding.Rejection
import HostCode.Error
import HostCode.Fault
import HostCode.Jump
import HostCode.Listing
import HostCode.Log.Record
import HostCode.Log.Scope
import HostCode.Main
import HostCode.Memory
import HostCode.Metrics
import HostCode.Operand
import HostCode.Operation
import HostCode.Precision
import HostCode.Proofs.Assembler.Jump
import HostCode.Proofs.Assembler.Layout
import HostCode.Proofs.Attempt
import HostCode.Proofs.Buffer.Field
import HostCode.Proofs.Buffer.Growth
import HostCode.Proofs.Emission.Basic
import HostCode.Proofs.Emission.Discard
import HostCode.Proofs.Emission.Invariant
import HostCode.Proofs.Listing
import HostCode.Proofs.Processor.Decode
import HostCode.Proofs.Processor.Fields
import HostCode.Proofs.Processor.OpcodeMap
import HostCode.Proofs.Relocation.Layout
import HostCode.Proofs.Relocation.Pass
import HostCode.Proofs.Relocation.Resolve
import HostCode.Proofs.Relocation.Truncate
import HostCode.Proofs.Session.Block
import HostCode.Proofs.Session.Calls
import HostCode.Proofs.Session.Destinations
import HostCode.Proofs.Session.Invariant
import HostCode.Proofs.Session.Rollback
import HostCode.Proofs.Session.Tables
import HostCode.Reference
import HostCode.Register
import HostCode.Relocation
import HostCode.Request
import HostCode.Segment
import HostCode.Session
import HostCode.Source.Line
import HostCode.Source.Operand
import HostCode.Source.Program
import HostCode.Text.Blank
import HostCode.Text.Case
import HostCode.Text.Numeral
import HostCode.Text.Printable
import HostCode.Text.Quoted
import HostCode.Word
import HostCode.Proofs.Processor.Operands
import HostCode.Proofs.Processor.Forms
import HostCode.Proofs.Processor.Integer
import HostCode.Proofs.Processor.RoundTrip
import HostCode.Proofs.Assembler.Outcome
import HostCode.Proofs.Processor.NarrowHost
import HostCode.Proofs.Processor.Constants
import HostCode.Proofs.Emission.Effect
import HostCode.Proofs.Session.Completion
import HostCode.Proofs.Processor.Jumps
import HostCode.Proofs.Processor.StateFields
import HostCode.Proofs.Session.Branches
import HostCode.Proofs.Emission.Twins
import HostCode.Proofs.Session.Twins
import HostCode.Proofs.Session.Independence
import HostCode.Proofs.Buffer.Refinement
import HostCode.Proofs.Buffer.Region
import HostCode.Proofs.Text.Numeral
import HostCode.Proofs.Source.RoundTrip
import HostCode.Proofs.Session.Figures
import HostCode.Proofs.Session.Counters
import HostCode.Proofs.Processor.Layouts
import HostCode.Proofs.Processor.Lengths
import HostCode.Proofs.Listing.Forms
import HostCode.Proofs.Listing.Parts
import HostCode.Proofs.Listing.Emitted
import HostCode.Proofs.Relocation.Reach
import HostCode.Proofs.Relocation.Commutation
import HostCode.Proofs.Session.Undo
import HostCode.Proofs.Processor.BothHosts
import HostCode.Proofs.Listing.Partition
import HostCode.Proofs.Session.Gauges
import HostCode.Proofs.Session.Prologue
import HostCode.Proofs.Session.LocalJumps
import HostCode.Proofs.Source.Blocks
import HostCode.Proofs.Processor.Surplus
import HostCode.Proofs.Processor.Shortest
import HostCode.Proofs.Text.Literal
import HostCode.Proofs.Source.Terms
import HostCode.Proofs.Source.Grammar
