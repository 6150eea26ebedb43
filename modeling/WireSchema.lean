import WireSchema.Text.Utf8
import WireSchema.Catalog
import WireSchema.Naming
import WireSchema.Naming.Suggestion
import WireSchema.Graph.Order
import WireSchema.Wire.Reader
import WireSchema.Wire.Writer
import WireSchema.Wire.Text
import WireSchema.Resolve
import WireSchema.Schema.Load
import WireSchema.Schema.Write
import WireSchema.Plan.Layout
import WireSchema.Message.Encode
import WireSchema.Message.Decode
import WireSchema.Message.Compare
import WireSchema.Message.View
import WireSchema.Emit
import WireSchema.Output
import WireSchema.Settings
import WireSchema.Log
import WireSchema.Surface
import WireSchema.Main
import WireSchema.Proofs.Codec.RoundTrip
import WireSchema.Proofs.Codec.Canonical
import WireSchema.Proofs.Codec.Reachable
import WireSchema.Proofs.Codec.Layout
import WireSchema.Proofs.Codec.Size
import WireSchema.Proofs.Codec.Termination
import WireSchema.Proofs.Codec.Delimited
import WireSchema.Proofs.Codec.Acceptance
import WireSchema.Proofs.Codec.Closed
import WireSchema.Proofs.Codec.Equality
import WireSchema.Proofs.Graph.Least
import WireSchema.Proofs.Plan.Rejected
import WireSchema.Proofs.Plan.ParentsFirst
import WireSchema.Proofs.Codec.Defaults
import WireSchema.Proofs.Schema.Loaded
import WireSchema.Proofs.Resolve.Again
import WireSchema.Proofs.Reports.Sorted
import WireSchema.Proofs.Naming.Suggestion
import WireSchema.Proofs.Graph.Relocation
import WireSchema.Proofs.Schema.Rearranged
import WireSchema.Proofs.Schema.Written
import WireSchema.Proofs.Resolve.Findings
import WireSchema.Proofs.Resolve.Relocated
import WireSchema.Proofs.Resolve.Containment
import WireSchema.Proofs.Resolve.Declared
import WireSchema.Proofs.Resolve.Rearranged
import WireSchema.Proofs.Resolve.Reloaded
import WireSchema.Proofs.Text.Split
import WireSchema.Proofs.Disk.Sound
import WireSchema.Proofs.Output.Progress
import WireSchema.Proofs.Emit.Files
import WireSchema.Proofs.Compile.Effects
import WireSchema.Proofs.Compile.Pruning
import WireSchema.Proofs.Graph.Exact
import WireSchema.Proofs.Plan.InStep
import WireSchema.Proofs.Codec.Overwrite
import WireSchema.Proofs.Graph.CyclePath
import WireSchema.Proofs.Wire.Reader
import WireSchema.Proofs.Emit.Locals
import WireSchema.Proofs.Emit.Surface
import WireSchema.Proofs.Resolve.Setters
import WireSchema.Proofs.Wire.Writer
import WireSchema.Proofs.Message.NumberList
import WireSchema.Proofs.Number.TypedLiteral
import WireSchema.Proofs.Codec.TextAccess
import WireSchema.Proofs.Naming.Ranking
import WireSchema.Proofs.Reports.Merged
import WireSchema.Proofs.Schema.Ancestors
import WireSchema.Proofs.Schema.FixedList
import WireSchema.Proofs.Naming.Words
