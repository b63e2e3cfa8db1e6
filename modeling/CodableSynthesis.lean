import CodableSynthesis.Artifact.Writer
import CodableSynthesis.CommandLine.Reading
import CodableSynthesis.CommandLine.Usage
import CodableSynthesis.Declaration.Reading
import CodableSynthesis.Expansion.Source
import CodableSynthesis.FieldModel.Report
import CodableSynthesis.FileTree.Access
import CodableSynthesis.Glob.Search
import CodableSynthesis.Json.Document
import CodableSynthesis.Main
import CodableSynthesis.Proofs.Coding.Containers
import CodableSynthesis.Proofs.Fronts.Interleaved
import CodableSynthesis.Proofs.Joining.Amid
import CodableSynthesis.Proofs.Layout.Locations
import CodableSynthesis.Proofs.Nesting.Interpolations
import CodableSynthesis.Proofs.Nesting.Observers
import CodableSynthesis.Proofs.Nesting.Recognition
import CodableSynthesis.Proofs.Plain.Expansions
import CodableSynthesis.Proofs.Printing.Writing
import CodableSynthesis.Proofs.Progress.Readers
import CodableSynthesis.Proofs.Relocation.Layouts
import CodableSynthesis.Proofs.Repeated.Again
import CodableSynthesis.Proofs.Reporting.Agreement
import CodableSynthesis.Proofs.Reporting.Conformances
import CodableSynthesis.Proofs.Reporting.Errors
import CodableSynthesis.Proofs.Reporting.Losses
import CodableSynthesis.Proofs.Respelling.Annotations
import CodableSynthesis.Proofs.Rewriting.Preserved
import CodableSynthesis.Proofs.Storing.Checks
import CodableSynthesis.Proofs.Storing.Comparisons
import CodableSynthesis.Proofs.Storing.Destinations
import CodableSynthesis.Proofs.Storing.Refusals
import CodableSynthesis.Run.Request
import CodableSynthesis.Settings
