/-
JsonLines.Dataset.RowStore — rows that are collected one by one.

A store makes room for rows in steps: from no slot to one, then by a factor of 1.618 in
double-precision arithmetic, by one slot at least, and never past its limit. Only a full store asks
for room, and a store that has reached its limit refuses to.
-/
import JsonLines.Error
import JsonLines.Number.Binary64

namespace JsonLines

/-- Rows in the order in which they came, and the slots made for them. -/
structure RowStore (α : Type) where
  rows : Array α := #[]
  capacity : Nat := 0
  limit : Nat
deriving Repr

namespace RowStore

variable {α : Type}

/-- The most rows of `width` bytes that memory can address. -/
def addressable (width : Nat) : Nat := (Word.half - 1) / max width 1

/-- An empty store for rows of `width` bytes, with a limit of its own or none. -/
def withLimit (width : Nat) (limit : Option Nat) : RowStore α :=
  match limit with
  | none => { limit := addressable width }
  | some limit => { limit := min limit (addressable width) }

/-- The number of rows. -/
def size (store : RowStore α) : Nat := store.rows.size

/-- The largest 64-bit word. -/
def wordLimit : Nat := Word.modulus - 1

/-- The factor by which a store grows, as a double. -/
def growthFactor : Nat := Binary64.nearest 1618 1000

/-- The number of slots that follows `size`: the product with the growth factor rounded up, but at
least one more, within a word. -/
def nextCapacity (size : Nat) : Nat :=
  if size = 0 then 1
  else
    let grown := Binary64.ceilCode (Binary64.mulCode (Binary64.nearest size 1) growthFactor)
    if wordLimit < grown then wordLimit else max grown (min (size + 1) wordLimit)

/-- A full store with more slots, if its limit allows. -/
def grow (store : RowStore α) : Except Error (RowStore α) :=
  if store.limit ≤ store.size then .error (.capacityExceeded (store.size + 1) store.limit)
  else
    let target := min (nextCapacity store.capacity) store.limit
    .ok { store with capacity := store.size + (target - store.size) }

/-- The store with a slot for one more row. -/
def makeRoom (store : RowStore α) : Except Error (RowStore α) :=
  if store.size = store.capacity then store.grow else .ok store

/-- The row in the next slot. -/
def append (store : RowStore α) (row : α) : RowStore α :=
  { store with rows := store.rows.push row }

/-- The store with one more row. -/
def push (store : RowStore α) (row : α) : Except Error (RowStore α) :=
  match store.makeRoom with
  | .error e => .error e
  | .ok store => .ok (store.append row)

/-- The store after some pushes, of which the first that fails is the last. -/
def pushAll (store : RowStore α) : List α → RowStore α × Option Error
  | [] => (store, none)
  | row :: rows =>
    match store.makeRoom with
    | .error e => (store, some e)
    | .ok store => (store.append row).pushAll rows

/-- The rows alone, in exactly as many slots. -/
def finish (store : RowStore α) : Array α := store.rows

end RowStore

end JsonLines
