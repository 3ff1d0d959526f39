import NeoListing.Archive.Inflate
import NeoListing.Archive.Zip
import NeoListing.Base64
import NeoListing.Bytes
import NeoListing.Command.Arguments
import NeoListing.Command.Failure
import NeoListing.Command.Run
import NeoListing.Contract.CallFlags
import NeoListing.Contract.Input
import NeoListing.Contract.Manifest
import NeoListing.Contract.MethodToken
import NeoListing.Contract.Nef
import NeoListing.Contract.ScriptHash
import NeoListing.Contract.State
import NeoListing.Debug.Documents
import NeoListing.Debug.Info
import NeoListing.Debug.SideFile
import NeoListing.Digest.Crc32
import NeoListing.Digest.Sha256
import NeoListing.File.DocumentName
import NeoListing.File.Path
import NeoListing.File.Tree
import NeoListing.Hex
import NeoListing.Json.Display
import NeoListing.Json.Reader
import NeoListing.Json.Shape
import NeoListing.Json.Token
import NeoListing.Json.Value
import NeoListing.Json.Writer
import NeoListing.Listing.Comment
import NeoListing.Listing.Entry
import NeoListing.Listing.Plan
import NeoListing.Listing.Render
import NeoListing.Machine
import NeoListing.Main
import NeoListing.Node.Answer
import NeoListing.Node.Session
import NeoListing.Notice
import NeoListing.Number.Binary64
import NeoListing.Number.Shortest
import NeoListing.Proofs.Command.AllOrNothing
import NeoListing.Proofs.Command.Routes
import NeoListing.Proofs.Command.SourceChoice
import NeoListing.Proofs.Command.Stages
import NeoListing.Proofs.Command.UnusableDebugInfo
import NeoListing.Proofs.Contract.DeployedState
import NeoListing.Proofs.Contract.NefFormat
import NeoListing.Proofs.Contract.NefReader
import NeoListing.Proofs.Contract.NefRoundTrip
import NeoListing.Proofs.Debug.DocumentCache
import NeoListing.Proofs.File.Removal
import NeoListing.Proofs.Listing.CommentDefined
import NeoListing.Proofs.Listing.CommentText
import NeoListing.Proofs.Listing.InstructionLine
import NeoListing.Proofs.Listing.Landmarks
import NeoListing.Proofs.Listing.LineBreaks
import NeoListing.Proofs.Listing.PlainListing
import NeoListing.Proofs.Listing.PlanEntries
import NeoListing.Proofs.Listing.PlanReference
import NeoListing.Proofs.Listing.PlanSteps
import NeoListing.Proofs.Listing.RenderedLines
import NeoListing.Proofs.Outcome
import NeoListing.Proofs.TableLookup
import NeoListing.Proofs.Text.ByteText
import NeoListing.Proofs.Text.Characters
import NeoListing.Proofs.Text.Utf8Codec
import NeoListing.Proofs.Vm.DecodeFaults
import NeoListing.Proofs.Vm.InstructionCodec
import NeoListing.Proofs.Vm.OpcodeNames
import NeoListing.Proofs.Vm.ScriptCodec
import NeoListing.Proofs.Vm.ScriptNormalForm
import NeoListing.Settings
import NeoListing.Table
import NeoListing.Text.Blank
import NeoListing.Text.Digit
import NeoListing.Text.Integer
import NeoListing.Text.Lines
import NeoListing.Text.Printable
import NeoListing.Text.Quoted
import NeoListing.Text.Split
import NeoListing.Text.Upper
import NeoListing.Text.Utf8
import NeoListing.Vm.Instruction
import NeoListing.Vm.ItemType
import NeoListing.Vm.Opcode
import NeoListing.Vm.Service
import NeoListing.Proofs.Listing.PlanFailures
import NeoListing.Proofs.Node.CacheHistory
import NeoListing.Proofs.Contract.AnswerFaults
import NeoListing.Proofs.Debug.NumberPatterns
import NeoListing.Proofs.Debug.InfoSchema
import NeoListing.Proofs.Vm.ScriptAppend
import NeoListing.Proofs.Listing.RecordOrder
import NeoListing.Proofs.Debug.InfoRoundTrip
import NeoListing.Proofs.Text.Newlines
import NeoListing.Proofs.Json.NumberNewlines
import NeoListing.Proofs.Json.TextNewlines
import NeoListing.Proofs.Json.ReadNewlines
import NeoListing.Proofs.Debug.ArchiveAndPlain
import NeoListing.Proofs.Listing.MethodBrackets
import NeoListing.Proofs.Debug.DocumentHistory
import NeoListing.Proofs.Listing.AddressGroups
import NeoListing.Proofs.Listing.Colours
import NeoListing.Proofs.Text.Decimal
import NeoListing.Proofs.Listing.AddressColumn
import NeoListing.Proofs.Contract.InlineScript
import NeoListing.Proofs.Contract.LocalInput
import NeoListing.Proofs.Contract.ManifestFaults
import NeoListing.Proofs.Listing.SignedOperands
import NeoListing.Proofs.Contract.TokenList
import NeoListing.Proofs.Contract.TokenText
import NeoListing.Proofs.Listing.ServiceNames
import NeoListing.Proofs.Listing.DataText
import NeoListing.Proofs.Contract.FlagNames
import NeoListing.Proofs.Contract.HashText
import NeoListing.Proofs.Contract.NefPrefix
import NeoListing.Proofs.Text.SourceLines
import NeoListing.Proofs.Listing.SpanColumns
