import TensorLowering.Abi.Code
import TensorLowering.Abi.EntryPoint
import TensorLowering.Abi.TensorBlock
import TensorLowering.Command.Arguments
import TensorLowering.Command.Run
import TensorLowering.Command.Sample
import TensorLowering.Conversion.Legality
import TensorLowering.Conversion.Renaming
import TensorLowering.Conversion.Run
import TensorLowering.Conversion.TypeMap
import TensorLowering.Diagnostic
import TensorLowering.Fault
import TensorLowering.Files
import TensorLowering.Lowering.Rules
import TensorLowering.Lowering.Sparse
import TensorLowering.Machine.AddressSpace
import TensorLowering.Machine.Basic
import TensorLowering.Machine.Description
import TensorLowering.Machine.Lookup
import TensorLowering.Main
import TensorLowering.Pattern.Basic
import TensorLowering.Pattern.Script
import TensorLowering.Program.Basic
import TensorLowering.Program.Build
import TensorLowering.Program.Printer
import TensorLowering.Proofs.Acceptance
import TensorLowering.Proofs.Alignment
import TensorLowering.Proofs.Attempts
import TensorLowering.Proofs.Attribution
import TensorLowering.Proofs.BlockReading
import TensorLowering.Proofs.CallAgreement
import TensorLowering.Proofs.Chains
import TensorLowering.Proofs.Completion
import TensorLowering.Proofs.Congruence
import TensorLowering.Proofs.Counts
import TensorLowering.Proofs.Courses
import TensorLowering.Proofs.Dataflow
import TensorLowering.Proofs.Declarations
import TensorLowering.Proofs.Emission
import TensorLowering.Proofs.Encodings
import TensorLowering.Proofs.Evidence
import TensorLowering.Proofs.Expansions
import TensorLowering.Proofs.Faithfulness
import TensorLowering.Proofs.Faults
import TensorLowering.Proofs.FileErrors
import TensorLowering.Proofs.FileGrammar
import TensorLowering.Proofs.FileLayout
import TensorLowering.Proofs.FileMeaning
import TensorLowering.Proofs.Finished
import TensorLowering.Proofs.FoldRule
import TensorLowering.Proofs.Frames
import TensorLowering.Proofs.History
import TensorLowering.Proofs.Idempotence
import TensorLowering.Proofs.Inverses
import TensorLowering.Proofs.Listings
import TensorLowering.Proofs.Lockstep
import TensorLowering.Proofs.LoweredCalls
import TensorLowering.Proofs.LoweredTypes
import TensorLowering.Proofs.Matching
import TensorLowering.Proofs.Mirroring
import TensorLowering.Proofs.OrderIndependence
import TensorLowering.Proofs.Ranges
import TensorLowering.Proofs.Reachability
import TensorLowering.Proofs.Readings
import TensorLowering.Proofs.Reassembly
import TensorLowering.Proofs.Rejections
import TensorLowering.Proofs.RenamingHistory
import TensorLowering.Proofs.Representation
import TensorLowering.Proofs.Resubmission
import TensorLowering.Proofs.Schedule
import TensorLowering.Proofs.Scoping
import TensorLowering.Proofs.ScriptSteps
import TensorLowering.Proofs.Signatures
import TensorLowering.Proofs.SparseFree
import TensorLowering.Proofs.Stops
import TensorLowering.Proofs.TextPlaces
import TensorLowering.Proofs.Transparency
import TensorLowering.Proofs.Turns
import TensorLowering.Proofs.Twins
import TensorLowering.Proofs.TypedForm
import TensorLowering.Proofs.UniqueReading
import TensorLowering.Proofs.Validity
import TensorLowering.Proofs.Walk
import TensorLowering.Proofs.Withdrawal
import TensorLowering.Recipe
import TensorLowering.Text.Blank
import TensorLowering.Text.Layout
import TensorLowering.Text.Lines
import TensorLowering.Text.Number
import TensorLowering.Ty.Basic
import TensorLowering.Ty.Check
import TensorLowering.Ty.Sparsity
import TensorLowering.Ty.Test
