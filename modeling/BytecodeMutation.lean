import BytecodeMutation.Main
import BytecodeMutation.Stack.Shuffle
import BytecodeMutation.Proofs.Body.Block
import BytecodeMutation.Proofs.Body.Extent
import BytecodeMutation.Proofs.Body.Layout
import BytecodeMutation.Proofs.Body.Line
import BytecodeMutation.Proofs.Body.Normal
import BytecodeMutation.Proofs.Body.Obstacle
import BytecodeMutation.Proofs.Body.Outcome
import BytecodeMutation.Proofs.Body.Tidy
import BytecodeMutation.Proofs.Body.Twin
import BytecodeMutation.Proofs.Code.Canonical
import BytecodeMutation.Proofs.Code.Displacement
import BytecodeMutation.Proofs.Code.Emission
import BytecodeMutation.Proofs.Code.Emitted
import BytecodeMutation.Proofs.Code.Markers
import BytecodeMutation.Proofs.Code.Marking
import BytecodeMutation.Proofs.Code.Refusal
import BytecodeMutation.Proofs.Code.Relocation
import BytecodeMutation.Proofs.Code.RoundTrip
import BytecodeMutation.Proofs.Code.Spelling
import BytecodeMutation.Proofs.Code.Split
import BytecodeMutation.Proofs.Code.WellFormed
import BytecodeMutation.Proofs.Code.Word
import BytecodeMutation.Proofs.Code.Writable
import BytecodeMutation.Proofs.Code.WriteBack
import BytecodeMutation.Proofs.Hex
import BytecodeMutation.Proofs.Listing.Shaped
import BytecodeMutation.Proofs.Mutation.Application
import BytecodeMutation.Proofs.Mutation.Distinct
import BytecodeMutation.Proofs.Mutation.Editing
import BytecodeMutation.Proofs.Mutation.Enumeration
import BytecodeMutation.Proofs.Mutation.Offer
import BytecodeMutation.Proofs.Mutation.Pass
import BytecodeMutation.Proofs.Mutation.Patch
import BytecodeMutation.Proofs.Mutation.Skipping
import BytecodeMutation.Proofs.Mutation.Stages
import BytecodeMutation.Proofs.Mutation.Survival
import BytecodeMutation.Proofs.Mutation.Validation
import BytecodeMutation.Proofs.Mutation.Writability
import BytecodeMutation.Proofs.Opcode.Byte
import BytecodeMutation.Proofs.Opcode.Name
import BytecodeMutation.Proofs.Stack.Depth
import BytecodeMutation.Proofs.Stack.Exchange
import BytecodeMutation.Proofs.Stack.Shuffle
import BytecodeMutation.Proofs.Text.Blank
import BytecodeMutation.Proofs.Text.Numeral
import BytecodeMutation.Proofs.Traversal
import BytecodeMutation.Proofs.Listing.Operands
import BytecodeMutation.Proofs.Listing.Legible
import BytecodeMutation.Proofs.Listing.Faithful
import BytecodeMutation.Proofs.Mutation.Neutrality
import BytecodeMutation.Proofs.Command.Report
import BytecodeMutation.Proofs.Coverage.Answers
import BytecodeMutation.Proofs.Body.Shift
import BytecodeMutation.Proofs.Mutation.Growth
import BytecodeMutation.Proofs.Mutation.Independence
import BytecodeMutation.Proofs.Mutation.Blocks
import BytecodeMutation.Proofs.Mutation.Lines
import BytecodeMutation.Proofs.Stack.Need
import BytecodeMutation.Proofs.Stack.Agreement
import BytecodeMutation.Proofs.Coverage.Fingerprint
import BytecodeMutation.Proofs.Mutation.Selection
import BytecodeMutation.Proofs.Mutation.Reversal
import BytecodeMutation.Proofs.Json.Quoted
import BytecodeMutation.Proofs.Text.Trimmed
import BytecodeMutation.Proofs.Hex.Reading
import BytecodeMutation.Proofs.Code.Field
import BytecodeMutation.Proofs.Body.Passes
