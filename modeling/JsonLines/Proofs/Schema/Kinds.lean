/-
JsonLines.Proofs.Schema.Kinds — the kind of a type that covers others.

A kind is what is left of a type when its parts are forgotten, and kinds are ordered as types are:
null is below all, any is above all, and integers are below reals. Each kind has a greatest type
(`Kind.top`), and a type is covered by it when its kind is (`TypeTree.le_top_iff`). So the kind of
the type that covers all rows is told by the kinds of the rows alone.
-/
import JsonLines.Proofs.Schema.Unfolding

namespace JsonLines

variable {N : Type}

namespace Kind

/-- The second kind covers the first one. -/
def Le (k l : Kind) : Prop := k = l ∨ k = .null ∨ l = .any ∨ k = .integer ∧ l = .real

instance : LE Kind := ⟨Le⟩

theorem le_iff {k l : Kind} :
    k ≤ l ↔ k = l ∨ k = .null ∨ l = .any ∨ k = .integer ∧ l = .real := Iff.rfl

instance (k l : Kind) : Decidable (k ≤ l) := inferInstanceAs (Decidable (k = l ∨ _))

theorem le_antisymm {k l : Kind} (h : k ≤ l) (h' : l ≤ k) : k = l := by
  revert h h'
  cases k <;> cases l <;> decide

/-- The greatest type of a kind. -/
def top : Kind → TypeTree N
  | .null => .null
  | .boolean => .boolean
  | .integer => .integer
  | .real => .real
  | .text => .text
  | .array => .array .any
  | .record => .record (fun _ => .optional) fun _ => .any
  | .any => .any

end Kind

/-- What a type is, without what it refers to. -/
def TypeTree.kind : TypeTree N → Kind
  | .null => .null
  | .boolean => .boolean
  | .integer => .integer
  | .real => .real
  | .text => .text
  | .any => .any
  | .array _ => .array
  | .record _ _ => .record

theorem Presence.join_optional (p : Presence) : p.join .optional = .optional := by
  cases p <;> rfl

/-- **A type is below the greatest one of a kind** when its own kind is covered. -/
theorem TypeTree.le_top_iff {t : TypeTree N} {k : Kind} : t ≤ k.top ↔ t.kind ≤ k := by
  rw [TypeTree.le_def, Kind.le_iff]
  cases t with
  | array a => cases k <;> simp [Kind.top, TypeTree.kind, join_any]
  | record p a => cases k <;> simp [Kind.top, TypeTree.kind, join_any, Presence.join_optional]
  | _ => cases k <;> simp [Kind.top, TypeTree.kind]

theorem Schema.kind_eq {s : Schema} (hs : s.WellFormed) (id : TypeId) :
    s.kind id = (s.tree id).kind := by
  unfold Schema.kind
  cases hget : s.get? id with
  | none =>
    rw [Schema.tree, hget]
    rfl
  | some type =>
    rw [tree_eq_typeTree hs hget]
    cases type with
    | composite composite => cases composite <;> rfl
    | _ => rfl

end JsonLines
