import Outliner.Access
import Outliner.Assembly.Code
import Outliner.Assembly.Emit
import Outliner.Assembly.Layout
import Outliner.Assembly.Operand
import Outliner.Assembly.Pool
import Outliner.Boundary
import Outliner.Bytes
import Outliner.Cbor.Item
import Outliner.Cbor.Reader
import Outliner.Cbor.Writer
import Outliner.Command.Completion
import Outliner.Command.Console
import Outliner.Command.Failure
import Outliner.Command.Files
import Outliner.Command.Flag
import Outliner.Command.Help
import Outliner.Command.Run
import Outliner.Command.Settings
import Outliner.Command.Show
import Outliner.Command.Verb
import Outliner.Cut
import Outliner.Decimal.Binary
import Outliner.Decimal.Nearest
import Outliner.Decimal.Reader
import Outliner.Decimal.Shortest
import Outliner.Decimal.Text
import Outliner.Descriptor
import Outliner.Draft
import Outliner.Flow
import Outliner.Footprint
import Outliner.Frame
import Outliner.Instruction
import Outliner.JType
import Outliner.Journal
import Outliner.Listing
import Outliner.Machine.Activation
import Outliner.Machine.Classes
import Outliner.Machine.Fault
import Outliner.Machine.Native
import Outliner.Machine.Numeric
import Outliner.Machine.Observer
import Outliner.Machine.Perform
import Outliner.Machine.Run
import Outliner.Machine.Value
import Outliner.Main
import Outliner.Opcode
import Outliner.Outline
import Outliner.Proofs.Conformance
import Outliner.Proofs.Descriptors
import Outliner.Proofs.Grammar
import Outliner.Proofs.Made
import Outliner.Proofs.Merging
import Outliner.Proofs.Operands
import Outliner.Proofs.Passage
import Outliner.Proofs.Ranges
import Outliner.Proofs.Rest
import Outliner.Proofs.Slots
import Outliner.Proofs.Soundness
import Outliner.Proofs.Splice
import Outliner.Proofs.Trimming
import Outliner.Routine
import Outliner.Sample
import Outliner.Sha256
import Outliner.SlotMap
import Outliner.Snippet
import Outliner.Stop
import Outliner.Survey
import Outliner.Text.Case
import Outliner.Text.Collected
import Outliner.Text.Grid
import Outliner.Text.Hex
import Outliner.Text.Number
import Outliner.Text.Printable
import Outliner.Text.Quoted
import Outliner.Tracker
import Outliner.TypeName
import Outliner.Watch
import Outliner.Wire.Document
import Outliner.Wire.Form
import Outliner.Wire.Record
import Outliner.Word
import Outliner.Proofs.Crossing
import Outliner.Proofs.Closure
import Outliner.Proofs.Farthest
import Outliner.Proofs.Enumeration
import Outliner.Proofs.Reached
import Outliner.Proofs.Analyzability
import Outliner.Proofs.Marshalling
import Outliner.Proofs.Pools
import Outliner.Proofs.Emission
import Outliner.Proofs.Renaming
import Outliner.Proofs.Repetition
import Outliner.Proofs.WireForms
import Outliner.Proofs.Resting
import Outliner.Proofs.Breakdowns
import Outliner.Proofs.Ranked
import Outliner.Proofs.Liveness
import Outliner.Proofs.Untouched
import Outliner.Proofs.Selection
import Outliner.Proofs.Overruns
import Outliner.Proofs.Settling
import Outliner.Proofs.Readback
import Outliner.Proofs.Capacity
import Outliner.Proofs.Reservations
import Outliner.Proofs.Nesting
import Outliner.Proofs.Printing
import Outliner.Proofs.Locality
import Outliner.Proofs.Joining
import Outliner.Proofs.WideSlots
