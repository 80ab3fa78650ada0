/-
JsonLines.Dataset.Dataset — datasets that load when they are first used.

A dataset is a source and the settings to read it with until it is realized; from then on it is a
view. A failed load changes nothing, so a later one is tried anew. Views of a view are realized from
the start.
-/
import JsonLines.Dataset.View
import JsonLines.Text.Inspect

namespace JsonLines

/-- A source that is still to be read, or rows that were. -/
inductive Dataset where
  | pending (source : ByteSource) (config : Config)
  | realized (view : View)

namespace Dataset

/-- The bytes that the rows are read from. -/
def source : Dataset → ByteSource
  | .pending source _ => source
  | .realized view => view.source

/-- The settings that the rows are read with. -/
def config : Dataset → Config
  | .pending _ config => config
  | .realized view => view.config

/-- Where the rows come from. -/
def provenance : Dataset → Provenance
  | .pending _ _ => .root
  | .realized view => view.provenance

/-- The rows are at hand. -/
def isRealized : Dataset → Bool
  | .pending _ _ => false
  | .realized _ => true

/-- The rows, read from the source if they are not at hand. -/
def view : Dataset → Except Error View
  | .pending source config => View.load source config
  | .realized view => .ok view

/-- The dataset after its rows were asked for, and the error if they cannot be read. -/
def realize (dataset : Dataset) : Except Error Unit × Dataset :=
  match dataset.view with
  | .error e => (.error e, dataset)
  | .ok view => (.ok (), .realized view)

/-- What the dataset is, in words. -/
def description (dataset : Dataset) : String :=
  match dataset.view with
  | .error e => "JSON dataset (not loaded: " ++ e.message ++ ")"
  | .ok view => view.description

end Dataset

end JsonLines
