/-
JsonLines.Dataset.Diagnostic — sources and datasets as a diagnostic shows them.

A dataset that is not realized is shown without its rows, and showing it does not load them.
-/
import JsonLines.Dataset.Dataset

namespace JsonLines

/-- The name of a kind, capitalised. -/
def Kind.diagnostic (kind : Kind) : String := kind.name.capitalize

/-- A source: its path, its size, and whether it is mapped. -/
def ByteSource.diagnostic (source : ByteSource) : String :=
  Inspect.record "ByteSource"
    [("path", Inspect.option (source.path.map Inspect.path)),
     ("len", toString source.size),
     ("mapped", toString source.mapped)]

/-- A provenance: the projected fields, and the source rows unless they are those of the source. -/
def Provenance.diagnostic (p : Provenance) : String :=
  Inspect.record "Provenance"
    [("fields", Inspect.list (p.fields.map Inspect.text)),
     ("rows", Inspect.option (p.rows.map fun rows => Inspect.list (rows.toList.map toString)))]

/-- A dataset, with the number of its rows and their kind once it is realized. -/
def Dataset.diagnostic (dataset : Dataset) : String :=
  Inspect.record "Dataset" <|
    [("source", dataset.source.diagnostic),
     ("provenance", dataset.provenance.diagnostic),
     ("realized", toString dataset.isRealized)] ++
    match dataset with
    | .pending _ _ => []
    | .realized view =>
      [("nrow", toString view.rowCount), ("kind", view.kind.diagnostic)]

end JsonLines
