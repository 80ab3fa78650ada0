/-
JsonLines.Proofs.Dataset.Values — the values that rows are read as.

`View.valueAt` is the value of a row as a function: what the text of the row is read as, none for a
row that is not there. All views of a chain share their source, so values can be compared across
them. A selection has the values of the selected rows, a column has what `Json.Node.member?` finds
in them, and the items of a row are those of its value. With these equations, what is proved of the
rows of a view is a statement about the values alone.
-/
import JsonLines.Proofs.Dataset.Projecting

namespace JsonLines

open Json

namespace Json.Node

/-- The value that an object binds to a name. What is no object binds no name. -/
def member? (m : Node) (name : String) : Option Node :=
  match m with
  | .object _ members => (members.find? fun member => member.1.name? = some name).map Prod.snd
  | _ => none

/-- The items of an array. What is no array has none. -/
def items : Node → List Node
  | .array _ items => items
  | _ => []

/-- The value that names lead to, each taken in the object that the names before it lead to. -/
def follow? : List String → Node → Option Node
  | [], m => some m
  | name :: names, m => (m.member? name).bind (follow? names)

end Json.Node

namespace View

variable {v w : View} {provenance : Provenance} {cells : List Cell} {c : Cell} {m : Node}
  {i k row : Nat} {name : String} {indices : List Nat}

/-! ## Values -/

/-- The value that a cell is read as. -/
def valueOf (v : View) (c : Cell) : Option Node :=
  (spanOf? c).bind fun span => (Scanner.readTree v.source span).toOption

/-- The value that a row is read as. -/
def valueAt (v : View) (i : Nat) : Option Node := v.valueOf (v.rowAt i)

/-- The values of all rows, in order. -/
def values (v : View) : List (Option Node) := v.rows.toList.map v.valueOf

theorem valueAt_eq_some_iff : v.valueAt i = some m ↔ v.ReadsAs i m := by
  rw [valueAt, valueOf, Option.bind_eq_some_iff, ReadsAs]
  refine exists_congr fun span => and_congr_right fun _ => ?_
  cases Scanner.readTree v.source span <;> simp [Except.toOption]

theorem valueOf_of_scanned (hscanned : Scanned v.schema m c)
    (hread : Scanner.readTree v.source m.span = .ok m) : v.valueOf c = some m := by
  rw [valueOf, spanOf?_of_scanned hscanned hread, Option.bind_some, hread]
  rfl

theorem Stores.valueOf_eq_some_iff (h : v.Stores c) : v.valueOf c = some m ↔
    Scanned v.schema m c ∧ Scanner.readTree v.source m.span = .ok m := by
  constructor
  · intro hvalue
    obtain ⟨span, hspan, hread⟩ := Option.bind_eq_some_iff.mp hvalue
    have hread' : Scanner.readTree v.source span = .ok m := by
      cases hnode : Scanner.readTree v.source span with
      | error e => simp [hnode, Except.toOption] at hread
      | ok node => simpa [hnode, Except.toOption] using hread
    exact ⟨h.scanned hspan hread', (readTree_part hread' .self).1⟩
  · rintro ⟨hscanned, hread⟩
    exact valueOf_of_scanned hscanned hread

theorem Stores.valueOf_eq_none_iff (h : v.Stores c) : v.valueOf c = none ↔ c = .absent := by
  constructor
  · intro hnone
    rcases h with habsent | ⟨m, hscanned, hread, -⟩
    · exact habsent
    · cases hnone.symm.trans (valueOf_of_scanned hscanned hread)
  · rintro rfl
    rfl

theorem valueAt_eq_none_iff (hv : v.Sound) : v.valueAt i = none ↔ v.rowAt i = .absent :=
  (hv.stores_rowAt i).valueOf_eq_none_iff

theorem getElem?_values (hi : v.HasRow i) : v.values[i - 1]? = some (v.valueAt i) := by
  rw [values, List.getElem?_map, Array.getElem?_toList, getElem?_rows hi]
  rfl

theorem length_values (v : View) : v.values.length = v.rowCount := by
  rw [values, List.length_map, Array.length_toList, rowCount]

/-- The value of a row of a root is that of the record at its index. -/
theorem valueAt_root {root : View} {source : ByteSource} {config : Config}
    (hroot : load source config = .ok root) (hi : root.HasRow i) : ∃ span m,
      root.records[i - 1]? = some span ∧ Scanner.readTree root.source span = .ok m ∧
        root.valueAt i = some m := by
  obtain ⟨span, m, hspan, hread, hscanned⟩ := scanned_root hroot (getElem?_rows hi)
  exact ⟨span, m, hspan, hread, valueOf_of_scanned hscanned (readTree_part hread .self).1⟩

/-! ## Values of views that are gathered anew -/

theorem Regathered.valueOf_eq (h : Regathered v w provenance cells) {d : Cell}
    (hd : Counterparts v.schema w.schema c d) : w.valueOf d = v.valueOf c := by
  rw [valueOf, valueOf, hd.spanOf?_eq, h.source_eq]

theorem Regathered.valueAt_eq (h : Regathered v w provenance cells) (hk : cells[k]? = some c) :
    w.valueAt (k + 1) = v.valueOf c :=
  h.valueOf_eq (h.counterparts_rowAt hk)

theorem Regathered.values_eq (h : Regathered v w provenance cells) :
    w.values = cells.map v.valueOf :=
  (map_eq_map_of_forall₂ h.counterparts fun _ _ hd => (h.valueOf_eq hd).symm).symm

/-- **The values of a selection** are those of the selected rows. -/
theorem valueAt_select (hv : v.Sound) (h : v.select indices = .ok w) (hk : indices[k]? = some i) :
    w.valueAt (k + 1) = v.valueAt i := by
  refine (regathered_select hv h).valueAt_eq ?_
  rw [List.getElem?_map, hk]
  rfl

/-! ## Members -/

theorem hasMember_unique {m' : Node} (hv : v.Sound) (h : v.HasMember i name m)
    (h' : v.HasMember i name m') : m = m' := by
  obtain ⟨span, members, key, hreads, hmember, hkey⟩ := id h
  have hname : name ∈ v.schema.names :=
    (hreads.scanned hv).1.mem_names (hasName_of_member hmember (.inl hkey))
  obtain ⟨n, hn⟩ := Schema.mem_names_iff.mp hname
  -- Both are read from the span of one and the same cell.
  obtain ⟨c, hc, hscanned, hread⟩ := (hasMember_iff hv hn).mp h
  obtain ⟨c', hc', hscanned', hread'⟩ := (hasMember_iff hv hn).mp h'
  cases hc.symm.trans hc'
  rw [← hscanned.span_eq, hscanned'.span_eq] at hread
  exact Except.ok.inj (hread.symm.trans hread')

/-- A member is found in the value of the row. -/
theorem hasMember_iff_member? (hv : v.Sound) :
    v.HasMember i name m ↔ (v.valueAt i).bind (·.member? name) = some m := by
  have hfound : ∀ {m}, (v.valueAt i).bind (·.member? name) = some m → v.HasMember i name m := by
    intro m hm
    obtain ⟨whole, hvalue, hmember⟩ := Option.bind_eq_some_iff.mp hm
    cases whole with
    | object span members =>
      obtain ⟨⟨key, value⟩, hfind, rfl⟩ := Option.map_eq_some_iff.mp hmember
      have hkey : key.name? = some name := by simpa using List.find?_some hfind
      exact ⟨span, members, key, valueAt_eq_some_iff.mp hvalue, List.mem_of_find?_eq_some hfind,
        hkey⟩
    | _ => cases hmember
  refine ⟨fun h => ?_, hfound⟩
  obtain ⟨span, members, key, hreads, hmember, hkey⟩ := id h
  cases hfind : members.find? fun member => member.1.name? = some name with
  | none => exact absurd hkey (by simpa using List.find?_eq_none.mp hfind _ hmember)
  | some entry =>
    have hentry : (v.valueAt i).bind (·.member? name) = some entry.2 := by
      rw [valueAt_eq_some_iff.mpr hreads, Option.bind_some, Node.member?, hfind]
      rfl
    rw [hentry, hasMember_unique hv h (hfound hentry)]

/-- **The values of a projection** are the members of the values. -/
theorem Projects.valueAt_eq (h : v.Projects name w) (hv : v.Sound) (hi : v.HasRow i) :
    w.valueAt i = (v.valueAt i).bind (·.member? name) := by
  cases hm : (v.valueAt i).bind (·.member? name) with
  | some m => exact valueAt_eq_some_iff.mpr (h.member i m hi ((hasMember_iff_member? hv).mpr hm)).2
  | none =>
    have habsent : w.rowAt i = .absent := by
      refine h.absent i hi fun m hmember => ?_
      cases hm.symm.trans ((hasMember_iff_member? hv).mp hmember)
    rw [valueAt, habsent]
    rfl

/-! ## Items -/

theorem map_valueOf_of_scannedItems {items : List Node} (h : ScannedItems v.schema items cells)
    (hread : ∀ item ∈ items, Scanner.readTree v.source item.span = .ok item) :
    cells.map v.valueOf = items.map some := by
  induction items generalizing cells with
  | nil =>
    simp only [ScannedItems] at h
    rw [h, List.map_nil, List.map_nil]
  | cons item items ih =>
    obtain ⟨c, cs, rfl, hc, hcs⟩ := h
    obtain ⟨hitem, hitems⟩ := List.forall_mem_cons.mp hread
    rw [List.map_cons, List.map_cons, valueOf_of_scanned hc hitem, ih hcs hitems]

/-- The values of the items of a cell are the items of its value. -/
theorem Stores.map_valueOf_elements (h : v.Stores c) :
    c.elements.map v.valueOf = (((v.valueOf c).map Node.items).getD []).map some := by
  rcases h with rfl | ⟨m, hscanned, hread, -⟩
  · rfl
  rw [valueOf_of_scanned hscanned hread]
  cases m with
  | array span items =>
    obtain ⟨type, cells, element, rfl, hitems, -⟩ := hscanned
    refine map_valueOf_of_scannedItems hitems fun item hitem => ?_
    exact (readTree_part hread (.item hitem .self)).1
  | object span members =>
    obtain ⟨type, cells, fields, rfl, -⟩ := hscanned
    rfl
  | _ =>
    simp only [Scanned] at hscanned
    subst hscanned
    rfl

/-- **The values of the items of a row** are the items of its value. -/
theorem values_itemsOf (h : v.Stores c) (hw : v.itemsOf c row = .ok w) :
    w.values = (((v.valueOf c).map Node.items).getD []).map some := by
  rw [← h.map_valueOf_elements]
  exact ((h.regathers_items row).regathered hw).values_eq

end View

end JsonLines
