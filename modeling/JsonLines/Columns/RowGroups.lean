/-
JsonLines.Columns.RowGroups — how tables are laid out in a columnar file.

Rows fill groups of a fixed size, across tables that are written one after the other; only the last
group may hold fewer. A file without columns is not written.
-/
import JsonLines.Columns.Batch

namespace JsonLines

/-- How the pages of a file are compressed. -/
inductive Compression where
  | uncompressed
  | snappy
  | zstd
  | gzip
deriving DecidableEq, Repr, Inhabited

namespace Compression

/-- The codec with its level. -/
def name : Compression → String
  | .uncompressed => "UNCOMPRESSED"
  | .snappy => "SNAPPY"
  | .zstd => "ZSTD(ZstdLevel(1))"
  | .gzip => "GZIP(GzipLevel(6))"

/-- The letters A to Z in lower case, all else as it is. -/
def lowerCase (name : String) : String := String.ofList (name.toList.map Char.toLower)

/-- The compression of a name in letters of either case. -/
def parse (name : String) : Except Error Compression :=
  match lowerCase name with
  | "none" => .ok .uncompressed
  | "uncompressed" => .ok .uncompressed
  | "snappy" => .ok .snappy
  | "zstd" => .ok .zstd
  | "gzip" => .ok .gzip
  | other => .error (.unknownCompression other)

end Compression

/-- How a columnar file is written. -/
structure FileLayout where
  compression : Compression := .snappy
  rowGroupSize : Nat := 1024 * 1024
deriving DecidableEq, Repr, Inhabited

/-- The sizes of the groups that some rows fill. -/
def rowGroups (size rows : Nat) : List Nat :=
  List.replicate (rows / size) size ++ (if rows % size = 0 then [] else [rows % size])

/-- The table of a dataset, which must have a column. -/
def View.toFileBatch (v : View) : Except Error Batch :=
  match v.toBatch with
  | .error e => .error e
  | .ok batch => if batch.columns.isEmpty then .error .noColumns else .ok batch

end JsonLines
