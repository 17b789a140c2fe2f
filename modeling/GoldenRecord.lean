import GoldenRecord.Extractor.Scripted
import GoldenRecord.Main
import GoldenRecord.Proofs.Batch.Artifacts
import GoldenRecord.Proofs.Binary64.Shortest
import GoldenRecord.Proofs.Extractor.Bridge
import GoldenRecord.Proofs.Json.Literal
import GoldenRecord.Proofs.Extractor.Scripted
import GoldenRecord.Proofs.Files.Verdict
import GoldenRecord.Proofs.Batch.Isolation
import GoldenRecord.Proofs.Batch.Resilience
import GoldenRecord.Proofs.Json.Number
import GoldenRecord.Proofs.Json.Text
import GoldenRecord.Proofs.Json.Layout
import GoldenRecord.Proofs.Schema
import GoldenRecord.Proofs.Golden
import GoldenRecord.Proofs.Coordinate
import GoldenRecord.Proofs.Lint
import GoldenRecord.Proofs.Extractor.Lines
import GoldenRecord.Proofs.Extractor.Replay
import GoldenRecord.Proofs.Files.Creation
import GoldenRecord.Proofs.Files.WellFormed
import GoldenRecord.Proofs.Batch.Frame
import GoldenRecord.Proofs.Batch.Skips
import GoldenRecord.Proofs.Batch.Discovery
import GoldenRecord.Proofs.Batch.Regeneration
import GoldenRecord.Proofs.Batch.InputDirectories
import GoldenRecord.Proofs.Extractor.Handles
import GoldenRecord.Proofs.Binary64.Scaled
import GoldenRecord.Proofs.Json.Reread
import GoldenRecord.Proofs.Legacy
import GoldenRecord.Proofs.Binary64.Interval
import GoldenRecord.Proofs.Binary64.Rational
import GoldenRecord.Proofs.Coordinate.Nearest
import GoldenRecord.Proofs.Coordinate.Places
import GoldenRecord.Proofs.Json.Written
import GoldenRecord.Proofs.Json.Grammar
import GoldenRecord.Proofs.Accepted
import GoldenRecord.Proofs.Edits
import GoldenRecord.Proofs.Numeral
import GoldenRecord.Proofs.Projection.Defaults
import GoldenRecord.Proofs.Projection.Encodings
import GoldenRecord.Proofs.Extractor.Containment
import GoldenRecord.Proofs.Lint.Findings
import GoldenRecord.Proofs.Batch.ArtifactNames
import GoldenRecord.Proofs.Extractor.Calls
import GoldenRecord.Proofs.Loss
import GoldenRecord.Proofs.Extractor.PageCalls
import GoldenRecord.Proofs.Batch.Settings
import GoldenRecord.Proofs.Files.Room
import GoldenRecord.Proofs.Batch.SingleFile
import GoldenRecord.Proofs.Cli.Check
import GoldenRecord.Proofs.Binary64.Reading
import GoldenRecord.Proofs.Binary64.Fewest
import GoldenRecord.Proofs.Coordinate.LeastPlaces
import GoldenRecord.Proofs.Files.Atomicity
