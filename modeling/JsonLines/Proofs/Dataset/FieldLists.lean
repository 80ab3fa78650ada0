/-
JsonLines.Proofs.Dataset.FieldLists — the fields of a loaded dataset, as all that lists them shows
them.

A dataset of records lists its fields in one order: by their names, as columns, by subscripts, in a
batch and in a report. It has a field for each name that occurs in its rows, and `listsFields` says
when the order is that of first occurrence.
-/
import JsonLines.Proofs.Columns.Cells
import JsonLines.Proofs.Dataset.AlikeObjects

namespace JsonLines.View

open Json

variable {root : View} {source : ByteSource} {config : Config} {names : List String}

/-- The order of the fields of a record dataset, and all that goes by it. -/
structure ListsFields (root : View) (names : List String) : Prop where
  /-- The names are those in the rows, each once. -/
  perm : names.Perm (root.firstNames root.rowCount)
  nodup : names.Nodup
  /-- They stand in the order of first occurrence if no turn comes to a record type that was
  registered earlier in another order. -/
  in_order : (∀ k < root.rowCount, ¬ root.Reorders k) → names = root.firstNames root.rowCount
  /-- No turn does so if objects with the same names list them alike, and the first name is the name
  of rows only. -/
  of_alike : root.ListsAlike → ∀ k < root.rowCount, ¬ root.Reorders k
  /-- This is what it takes for the names to stand in that order after every row. -/
  in_order_iff : (∀ k ≤ root.rowCount, root.InOrderAfter k) ↔
    ∀ k < root.rowCount, ¬ root.Reorders k
  columns : ∃ views, root.columns = .ok views ∧ views.map Prod.fst = names ∧
    ∀ (k : Nat) name w, views[k]? = some (name, w) →
      root.subscript (k + 1) = .ok w ∧ root.field? name = .ok (some w)
  batch : ∀ batch, root.toBatch = .ok batch → batch.columns.map Prod.fst = names
  report : ∃ types report, root.datatypes? = some types ∧ types.map Prod.fst = names ∧
    root.fieldsReport = .ok report ∧
    report.message = .ofMembers [("type", .string "FIELDS"), ("fields", .array
      (types.map fun (name, type) =>
        .ofMembers [("name", .string name), ("datatype", .string type)]))] ∧
    report.text = String.intercalate "\n" (types.map fun (name, type) => name ++ ": " ++ type)

theorem fields_of_names? (h : root.names? = some names) :
    ∃ fields, root.contents.schema.fields? root.contents.type = some fields ∧
      root.contents.schema.fieldNames root.contents.type = names := by
  obtain ⟨fields, hfields, rfl⟩ := Option.map_eq_some_iff.mp h
  have hfields' : root.contents.schema.fields? root.contents.type = some fields := hfields
  refine ⟨fields, hfields', ?_⟩
  rw [Schema.fieldNames, Schema.fieldIds_of_fields? hfields', List.map_map]
  rfl

/-- **The names of a loaded dataset of records** are those that occur in its rows, in the order in
which they first occur, except for record types that were registered in another order. -/
theorem listsFields (hroot : load source config = .ok root) (hnames : root.names? = some names) :
    root.ListsFields names := by
  obtain ⟨fields, hfields, heq⟩ := fields_of_names? hnames
  have hlisted := Schema.listed_of_fields? hfields
  have hrecord : root.isRecord = true := by
    rw [isRecord, kind, Contents.kind, Schema.kind, Schema.fields?_eq_some_iff.mp hfields]
    rfl
  have hv := sound_chain hroot .refl
  have hall := contentsAfter_rowCount hroot
  obtain ⟨names, views, hcolumns⟩ := hasColumns hv hrecord
  cases hnames.symm.trans hcolumns.names_eq
  refine ⟨?_, ?_, fun horder => ?_, not_reorders_of_listsAlike hroot hlisted,
    inOrderAfter_iff hroot hlisted, ?_, fun batch hbatch => ?_, ?_⟩
  · rw [← heq]
    exact perm_firstNames hroot le_rfl hall hlisted
  · rw [← heq]
    exact Schema.nodup_fieldNames hv.wellFormed (Contents.fieldsNamed_gather hall)
  · obtain ⟨c, hc, hfirst⟩ := inOrderAfter hroot hlisted le_rfl horder
    cases hc.symm.trans hall
    exact heq.symm.trans hfirst
  · exact ⟨views, hcolumns.columns_eq, hcolumns.map_name, hcolumns.same⟩
  · obtain ⟨names', hnames', hfill⟩ := (holdsCells hv hbatch).record hrecord
    cases hnames.symm.trans hnames'
    have := map_eq_map_of_forall₂ hfill fun _ _ h => h.1.symm
    rw [← this, List.map_id']
  · obtain ⟨types, htypes, hmap⟩ : ∃ types, root.datatypes? = some types ∧
        types.map Prod.fst = names := by
      obtain ⟨fields, hfields, rfl⟩ := Option.map_eq_some_iff.mp hnames
      exact ⟨_, by rw [datatypes?, hfields]; rfl, by rw [List.map_map]; rfl⟩
    exact ⟨types, _, htypes, hmap, by rw [fieldsReport, htypes], rfl, rfl⟩

/-- Names that come one after the other, and an object inside that has two of them the other way
round. -/
def growingRecords : ByteSource := .ofString
  "\x7b\"b\":1\x7d\n\x7b\"a\":\x7b\"c\":1,\"d\":2\x7d\x7d\n\x7b\"d\":[],\"c\":1,\"e\":2\x7d\n"

/-- Objects are alike here, since the one inside has not all names of the last row. -/
theorem listsFields_growingRecords : ∃ root, load growingRecords {} = .ok root ∧
    root.names? = some ["b", "a", "d", "c", "e"] ∧ root.ListsAlike ∧
    root.firstNames root.rowCount = ["b", "a", "d", "c", "e"] ∧
    root.ListsFields ["b", "a", "d", "c", "e"] := by
  have hrun : (load growingRecords {}).toOption.map (fun root =>
      (root.names?, decide root.ListsAlike)) = some (some ["b", "a", "d", "c", "e"], true) := by
    decide +kernel
  obtain ⟨root, hload, hrun⟩ := Option.map_eq_some_iff.mp hrun
  obtain ⟨hnames, halike⟩ := Prod.mk.inj hrun
  have hroot := eq_ok_of_toOption hload
  have hlists := listsFields hroot hnames
  have halike := of_decide_eq_true halike
  exact ⟨root, hroot, hnames, halike, (hlists.in_order (hlists.of_alike halike)).symm, hlists⟩

/-- Two records with the same names in two orders, of numbers of two kinds. -/
def swappedMembers : ByteSource := .ofString
  "\x7b\"a\":1,\"b\":1\x7d\n\x7b\"b\":1.5,\"a\":1.5\x7d\n"

/-- **Names need not stand in the order of first occurrence**: the union of the two records is the
type of the second one, which was registered with its fields the other way round. -/
theorem not_in_order_swappedMembers : ¬ ∀ (source : ByteSource) (config : Config) (root : View)
    (names : List String), load source config = .ok root → root.names? = some names →
      names = root.firstNames root.rowCount := by
  intro h
  have hrun : (load swappedMembers {}).toOption.map (fun root =>
      (root.names?, root.firstNames root.rowCount)) = some (some ["b", "a"], ["a", "b"]) := by
    decide +kernel
  obtain ⟨root, hload, hrun⟩ := Option.map_eq_some_iff.mp hrun
  obtain ⟨hnames, hfirst⟩ := Prod.mk.inj hrun
  have heq := h _ _ root _ (eq_ok_of_toOption hload) hnames
  rw [hfirst] at heq
  exact absurd heq (by decide)

end JsonLines.View
