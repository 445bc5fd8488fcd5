import TextCatalog.Change
import TextCatalog.CommandLine.Commands
import TextCatalog.Disk.Edit
import TextCatalog.Json.Parse
import TextCatalog.Main
import TextCatalog.Proofs.Artifact.Agreement
import TextCatalog.Proofs.Artifact.Slots
import TextCatalog.Proofs.CommandLine.Init
import TextCatalog.Proofs.CommandLine.Listing
import TextCatalog.Proofs.Config.Schema
import TextCatalog.Proofs.Disk.Replaced
import TextCatalog.Proofs.Entry.Merge
import TextCatalog.Proofs.Pipeline.Failure
import TextCatalog.Proofs.Pipeline.Included
import TextCatalog.Proofs.Pipeline.Notices
import TextCatalog.Proofs.Placeholder.Closing
import TextCatalog.Proofs.Placeholder.Splice
import TextCatalog.Proofs.Reader.Names
import TextCatalog.Proofs.Reader.LineEnds
import TextCatalog.Proofs.Selection.Judged
import TextCatalog.Proofs.Source.Braces
import TextCatalog.Proofs.Source.Collisions
import TextCatalog.Proofs.Source.Repeats
import TextCatalog.Proofs.Text.Literal
