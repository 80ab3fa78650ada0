/-
JsonLines.Proofs.Coercion.Simplifying — when the plainest form of a view can be made.

Converting a row to a scalar has an outcome for every row, so views of scalars never fail, and views
of records and of mixed values stay as they are. Only a view of arrays can fail: each of its rows
becomes a view of items, and there is none for a row that has more items than there may be rows
(`simplify_eq_error_iff`). There is one outcome and one view of items for each row.
-/
import JsonLines.Coercion.Simplified
import JsonLines.Proofs.Dataset.Selecting

namespace JsonLines.View

variable {v : View} {e : Error} {views : List View}

/-- If the covering type is an array, no row has more items than there may be rows. -/
def ItemsFit (v : View) : Prop :=
  v.kind = .array → ∀ row ∈ v.rows.toList, row.elements.length ≤ v.rowLimit

theorem not_itemsFit_iff : ¬ v.ItemsFit ↔
    v.kind = .array ∧ ∃ row ∈ v.rows.toList, v.rowLimit < row.elements.length := by
  simp only [ItemsFit, not_forall, not_le, exists_prop]

/-- **Simplifying fails for a row that has too many items**, and for nothing else. -/
theorem simplify_eq_error_iff (hv : v.Sound) : v.simplify = .error e ↔
    e = .capacityExceeded (v.rowLimit + 1) v.rowLimit ∧ ¬ v.ItemsFit := by
  rw [not_itemsFit_iff]
  unfold simplify
  cases v.kind with
  | array =>
    simp only [true_and, ← elements_eq_error_iff hv]
    cases v.elements <;> simp
  | integer =>
    dsimp only
    split <;> simp
  | _ => simp

theorem exists_simplify_iff (hv : v.Sound) : (∃ s, v.simplify = .ok s) ↔ v.ItemsFit := by
  cases hsimplify : v.simplify with
  | error e =>
    have hfit := ((simplify_eq_error_iff hv).mp hsimplify).2
    simp [hfit]
  | ok s =>
    simp only [Except.ok.injEq, exists_eq', true_iff]
    by_contra hfit
    cases hsimplify.symm.trans ((simplify_eq_error_iff hv).mpr ⟨rfl, hfit⟩)

theorem length_coerce {α : Type} (v : View) (convert : Kind → List Char → Outcome α) :
    (v.coerce convert).values.length = v.rowCount := by
  simp only [coerce, Coerced.ofOutcomes, List.length_map, length_numberedRows]

theorem length_elements (h : v.elements = .ok views) : views.length = v.rowCount := by
  rw [← (elementsOf_eq_ok_iff.mp h).length_eq, length_numberedRows]

end JsonLines.View
