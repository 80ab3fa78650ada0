import JsonLines.Dataset.Diagnostic
import JsonLines.Main
import JsonLines.Proofs.Schema.Registration
import JsonLines.Proofs.Schema.TypeTree
import JsonLines.Proofs.Schema.Unfolding
import JsonLines.Proofs.Schema.UnionTheorems
import JsonLines.Proofs.Scan.Scanned
import JsonLines.Proofs.Schema.Reachable
import JsonLines.Proofs.Schema.UnionLattice
import JsonLines.Proofs.Dataset.Gathering
import JsonLines.Proofs.Json.Literal
import JsonLines.Proofs.Json.Numeral
import JsonLines.Proofs.Json.Grammar
import JsonLines.Proofs.Json.Reading
import JsonLines.Proofs.Scan.Rereading
import JsonLines.Proofs.Scan.Parts
import JsonLines.Proofs.Scan.Growth
import JsonLines.Proofs.Dataset.Chain
import JsonLines.Proofs.Dataset.Origin
import JsonLines.Proofs.Source.Lines
import JsonLines.Proofs.Scan.Copying
import JsonLines.Proofs.Dataset.Reloading
import JsonLines.Proofs.Scan.Acceptance
import JsonLines.Proofs.Scan.ParseTree
import JsonLines.Proofs.Schema.Canonicity
import JsonLines.Proofs.Schema.NamedTree
import JsonLines.Proofs.Scan.ValueType
import JsonLines.Proofs.Dataset.ViewTypes
import JsonLines.Proofs.Scan.Counterparts
import JsonLines.Proofs.Dataset.Outcome
import JsonLines.Proofs.Dataset.Failures
import JsonLines.Proofs.Dataset.Selecting
import JsonLines.Proofs.Dataset.Narrowing
import JsonLines.Proofs.Collecting
import JsonLines.Proofs.Schema.Rendering
import JsonLines.Proofs.Dataset.TypeTexts
import JsonLines.Proofs.Json.Shifting
import JsonLines.Proofs.Scan.Relocating
import JsonLines.Proofs.Source.RecordTexts
import JsonLines.Proofs.Dataset.Independence
import JsonLines.Proofs.Coercion.Simplifying
import JsonLines.Proofs.Columns.Exporting
import JsonLines.Proofs.Scan.Legibility
import JsonLines.Proofs.Command.Showing
import JsonLines.Proofs.Command.RecordAlone
import JsonLines.Proofs.Source.RecordSpans
import JsonLines.Proofs.Text.Pieces
import JsonLines.Proofs.Command.RowList
import JsonLines.Proofs.Dataset.Projecting
import JsonLines.Proofs.Number.Rounding
import JsonLines.Proofs.Coercion.Classification
import JsonLines.Proofs.Coercion.Magnitude
import JsonLines.Proofs.Number.Nearest
import JsonLines.Proofs.Coercion.Doubles
import JsonLines.Proofs.Dataset.Values
import JsonLines.Proofs.Command.Paths
import JsonLines.Proofs.Schema.Kinds
import JsonLines.Proofs.Coercion.RowValues
import JsonLines.Proofs.Columns.Cells
import JsonLines.Proofs.Coercion.Widening
import JsonLines.Proofs.Dataset.ValueLines
import JsonLines.Proofs.Dataset.Spelling
import JsonLines.Proofs.Coercion.LostTexts
import JsonLines.Proofs.Schema.UnionOrder
import JsonLines.Proofs.Dataset.FieldOrder
import JsonLines.Proofs.Schema.Avoidance
import JsonLines.Proofs.Columns.TextSizes
import JsonLines.Proofs.Scan.Avoidance
import JsonLines.Proofs.Dataset.AlikeObjects
import JsonLines.Proofs.Dataset.FieldLists
import JsonLines.Proofs.Scan.Denotation
import JsonLines.Proofs.Command.ReportLines
import JsonLines.Proofs.Scan.Bounds
import JsonLines.Proofs.Scan.Steps
import JsonLines.Proofs.Schema.Repetition
import JsonLines.Proofs.Scan.Repetition
import JsonLines.Proofs.Scan.Independence
import JsonLines.Proofs.Dataset.RowStoreRuns
