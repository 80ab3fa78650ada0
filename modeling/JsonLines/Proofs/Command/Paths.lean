/-
JsonLines.Proofs.Command.Paths — what rows and a path of names lead to.

A path is followed one name at a time, each by a projection that makes a view with a schema of its
own. That this is the same as following the names in the values of the source is proved by induction
on the path: a projection holds the members of the values (`Projects.valueAt_eq`), so what is
reached from it is what is reached from the view by one name more (`reached_cons`). The same
equation tells where a path ends early. A view knows the names in its values, at any depth, so a
name is unknown when no value that is reached by then has it (`Knows`).
-/
import JsonLines.Command.Report
import JsonLines.Proofs.Command.RowList
import JsonLines.Proofs.Dataset.Values

namespace JsonLines

open Json

namespace View

variable {root v w x : View} {name path : String} {names : List String} {i k : Nat}
  {indices : List Nat} {m : Node}

/-! ## Values that names lead to -/

/-- The value that names lead to from a row, each taken in an object. -/
def reached (v : View) (names : List String) (i : Nat) : Option Node :=
  (v.valueAt i).bind (Node.follow? names)

/-- Each name occurs, at any depth, in a value that the names before it lead to. -/
def Knows (v : View) (names : List String) : Prop :=
  ∀ before name after, names = before ++ name :: after →
    ∃ i m, v.HasRow i ∧ v.reached before i = some m ∧ m.HasName name

/-- The second view holds what names lead to from the rows of the first one. -/
structure Follows (v : View) (names : List String) (w : View) : Prop where
  chain : v.Chain w
  rowCount_eq : w.rowCount = v.rowCount
  rowNumber_eq : ∀ k, w.rowNumber k = v.rowNumber k
  fields_eq : w.provenance.fields = v.provenance.fields ++ names
  value : ∀ i, v.HasRow i → w.valueAt i = v.reached names i

theorem reached_nil (v : View) (i : Nat) : v.reached [] i = v.valueAt i := by
  rw [reached]
  cases v.valueAt i <;> rfl

theorem Projects.hasRow_iff (h : v.Projects name w) : w.HasRow i ↔ v.HasRow i := by
  rw [HasRow, HasRow, h.rowCount_eq]

/-- What is reached from a projection is reached from the view by one name more. -/
theorem reached_cons (hv : v.Sound) (h : v.Projects name w) (hi : v.HasRow i) :
    w.reached names i = v.reached (name :: names) i := by
  rw [reached, h.valueAt_eq hv hi, reached, Option.bind_assoc]
  rfl

theorem follows_nil (v : View) : v.Follows [] v where
  chain := .refl
  rowCount_eq := rfl
  rowNumber_eq _ := rfl
  fields_eq := (List.append_nil _).symm
  value i _ := (reached_nil v i).symm

/-- **One step of a path.** -/
theorem Follows.cons (hv : v.Sound) (hw : v.field? name = .ok (some w)) (h : v.Projects name w)
    (hfields : w.provenance.fields = v.provenance.fields ++ [name]) (hx : w.Follows names x) :
    v.Follows (name :: names) x where
  chain := .head (.field hw) hx.chain
  rowCount_eq := hx.rowCount_eq.trans h.rowCount_eq
  rowNumber_eq k := (hx.rowNumber_eq k).trans (h.rowNumber_eq k)
  fields_eq := by
    rw [hx.fields_eq, hfields, List.append_assoc]
    rfl
  value i hi := (hx.value i (h.hasRow_iff.mpr hi)).trans (reached_cons hv h hi)

theorem knows_cons_iff (hv : v.Sound) (h : v.Projects name w) : v.Knows (name :: names) ↔
    (∃ i m, v.HasRow i ∧ v.ReadsAs i m ∧ m.HasName name) ∧ w.Knows names := by
  constructor
  · intro hknows
    constructor
    · obtain ⟨i, m, hi, hm, hname⟩ := hknows [] name names rfl
      rw [reached_nil] at hm
      exact ⟨i, m, hi, valueAt_eq_some_iff.mp hm, hname⟩
    · intro before name' after heq
      obtain ⟨i, m, hi, hm, hname⟩ := hknows (name :: before) name' after (by rw [heq]; rfl)
      exact ⟨i, m, h.hasRow_iff.mpr hi, (reached_cons hv h hi).trans hm, hname⟩
  · rintro ⟨⟨i, m, hi, hreads, hname⟩, hknows⟩ before name' after heq
    cases before with
    | nil =>
      cases heq
      refine ⟨i, m, hi, ?_, hname⟩
      rw [reached_nil]
      exact valueAt_eq_some_iff.mpr hreads
    | cons first before =>
      cases heq
      obtain ⟨i, m, hi, hm, hname⟩ := hknows before name' after rfl
      rw [h.hasRow_iff] at hi
      exact ⟨i, m, hi, (reached_cons hv h hi).symm.trans hm, hname⟩

/-! ## Descending -/

section

variable {source : ByteSource} {config : Config} (hroot : load source config = .ok root)

include hroot

/-- A field is projected when some value has its name, and is unknown otherwise. -/
theorem field?_cases (hchain : root.Chain v) (name : String) :
    (∃ i m, v.HasRow i ∧ v.ReadsAs i m ∧ m.HasName name) ∧
      (∃ w, v.field? name = .ok (some w) ∧ v.Projects name w ∧
        w.provenance.fields = v.provenance.fields ++ [name]) ∨
    (¬ ∃ i m, v.HasRow i ∧ v.ReadsAs i m ∧ m.HasName name) ∧ v.field? name = .ok none := by
  have hv := sound_chain hroot hchain
  rw [← mem_names_iff hroot hchain, Schema.mem_names_iff]
  cases hid : v.schema.nameId? name with
  | none =>
    refine .inr ⟨?_, (field?_eq_ok_none_iff hv).mpr hid⟩
    rintro ⟨n, hn⟩
    exact Schema.nameId?_eq_none hid n hn
  | some n =>
    have hn := Schema.nameId?_eq_some_iff.mp hid
    obtain ⟨w, hw⟩ := exists_column hv n name
    refine .inl ⟨⟨n, hn⟩, w, field?_eq_ok_some_iff.mpr ⟨n, hid, hw⟩, projects_column hv hn hw, ?_⟩
    rw [(regathered_column hv hw).provenance_eq]
    rfl

/-- **Descending follows the names in the values**, unless one of the names is unknown by then. -/
theorem descend_cases (hchain : root.Chain v) (path : String) (parts : List (List Char)) :
    v.Knows (parts.map String.ofList) ∧
      (∃ w, v.descend path parts = .ok w ∧ v.Follows (parts.map String.ofList) w) ∨
    ¬ v.Knows (parts.map String.ofList) ∧ v.descend path parts = .error (.unknownField path) := by
  induction parts generalizing v with
  | nil =>
    refine .inl ⟨?_, v, rfl, follows_nil v⟩
    intro before name after heq
    simp at heq
  | cons part parts ih =>
    have hv := sound_chain hroot hchain
    rw [List.map_cons, descend]
    rcases field?_cases hroot hchain (String.ofList part) with
      ⟨hname, w, hw, hprojects, hfields⟩ | ⟨hnone, hw⟩
    · rw [hw, knows_cons_iff hv hprojects]
      rcases ih (hchain.tail (.field hw)) with ⟨hknows, x, hx, hfollows⟩ | ⟨hunknown, hx⟩
      · exact .inl ⟨⟨hname, hknows⟩, x, hx, hfollows.cons hv hw hprojects hfields⟩
      · exact .inr ⟨fun h => hunknown h.2, hx⟩
    · rw [hw]
      refine .inr ⟨fun hknows => hnone ?_, rfl⟩
      obtain ⟨i, m, hi, hm, hname⟩ := hknows [] _ _ rfl
      rw [reached_nil] at hm
      exact ⟨i, m, hi, valueAt_eq_some_iff.mp hm, hname⟩

end

/-! ## The names on a path -/

/-- The names on a path are what stands between its points, empty ones included. -/
def PathNames (path : String) (names : List String) : Prop :=
  ".".intercalate names = path ∧ names ≠ [] ∧ ∀ name ∈ names, '.' ∉ name.toList

/-- The names on a path that may be left out. -/
def NamesOn (path : Option String) (names : List String) : Prop :=
  match path with
  | none => names = []
  | some path => PathNames path names

theorem map_ofList_eq_iff {parts : List (List Char)} :
    names = parts.map String.ofList ↔ parts = names.map String.toList := by
  constructor
  · rintro rfl
    simp [Function.comp_def]
  · rintro rfl
    simp [Function.comp_def]

theorem pathNames_iff : PathNames path names ↔
    names = (Files.splitOn '.' path.toList).map String.ofList := by
  rw [map_ofList_eq_iff, Files.splitOn_eq_iff, PathNames, ← String.toList_inj,
    String.toList_intercalate, ne_eq, ne_eq, List.map_eq_nil_iff, List.forall_mem_map]
  rfl

/-! ## The rows of a list -/

/-- The rows that a request names: those of its list, or all of them. -/
def listed (v : View) (rows : Option String) : Except Error (List Nat) :=
  match rows with
  | none => .ok (List.range' 1 v.rowCount)
  | some list => RowList.parse v.rowCount list

/-- The second view holds rows of the first one, which is a root, and no field of theirs. -/
structure Picks (root : View) (indices : List Nat) (v : View) : Prop where
  chain : root.Chain v
  fields_eq : v.provenance.fields = []
  rowNumbers_eq : v.rowNumbers = indices
  value : ∀ k i, indices[k]? = some i → v.valueAt (k + 1) = root.valueAt i

theorem Picks.rowCount_eq (h : root.Picks indices v) : v.rowCount = indices.length := by
  rw [← h.rowNumbers_eq, rowNumbers, List.length_map, List.length_range]

theorem getElem?_rowNumbers (hk : k < v.rowCount) : v.rowNumbers[k]? = some (v.rowNumber k) := by
  rw [rowNumbers, List.getElem?_map, List.getElem?_range hk]
  rfl

section

variable {source : ByteSource} {config : Config} (hroot : load source config = .ok root)

include hroot

theorem picks_root : root.Picks (List.range' 1 root.rowCount) root := by
  refine ⟨.refl, ?_, ?_, ?_⟩
  · obtain ⟨contents, -, rfl⟩ := load_eq_ok_iff.mp hroot
    rfl
  · rw [rowNumbers, List.range'_eq_map_range]
    refine List.map_congr_left fun k hk => ?_
    rw [rowNumber_root hroot (List.mem_range.mp hk), Nat.add_comm]
  · intro k i hk
    obtain ⟨-, rfl⟩ := List.getElem?_eq_some_iff.mp hk
    rw [List.getElem_range', Nat.one_mul, Nat.add_comm]

theorem picks_select (h : root.select indices = .ok v) : root.Picks indices v := by
  have hv := sound_chain hroot .refl
  refine ⟨.single (.select h), ?_, ?_, fun k i hk => valueAt_select hv h hk⟩
  · rw [(regathered_select hv h).provenance_eq]
    exact (picks_root hroot).fields_eq
  · refine List.ext_getElem? fun k => ?_
    cases hk : indices[k]? with
    | none =>
      rw [rowNumbers, List.getElem?_eq_none_iff, List.length_map, List.length_range,
        rowCount_select hv h]
      exact List.getElem?_eq_none_iff.mp hk
    | some i =>
      have hlt : k < v.rowCount := (hasRow_select hv h hk).2
      obtain ⟨hpos, hle⟩ := (select_eq_ok_iff.mp h).1 i (List.mem_of_getElem? hk)
      rw [getElem?_rowNumbers hlt, rowNumber_select hv h hk, rowNumber_root hroot (by omega),
        Nat.sub_add_cancel hpos]

/-- The rows that are named are picked, if there are no more of them than there may be. -/
theorem selectList_of_listed {rows : Option String} (h : root.listed rows = .ok indices)
    (hlength : indices.length ≤ root.rowLimit) :
    ∃ v, root.selectList rows = .ok v ∧ root.Picks indices v := by
  cases rows with
  | none =>
    cases h
    exact ⟨root, rfl, picks_root hroot⟩
  | some list =>
    rw [listed] at h
    obtain ⟨v, hv⟩ := exists_select (sound_chain hroot .refl) (RowList.among_of_parse h) hlength
    refine ⟨v, ?_, picks_select hroot hv⟩
    rw [selectList, h]
    exact hv

theorem selectList_of_exceeded {rows : Option String} (h : root.listed rows = .ok indices)
    (hlength : root.rowLimit < indices.length) :
    root.selectList rows = .error (.capacityExceeded (root.rowLimit + 1) root.rowLimit) := by
  have hv := sound_chain hroot .refl
  cases rows with
  | none =>
    cases h
    rw [List.length_range'] at hlength
    exact absurd hv.count_le (Nat.not_le.mpr hlength)
  | some list =>
    rw [listed] at h
    rw [selectList, h]
    exact select_of_exceeded hv (RowList.among_of_parse h) hlength

end

/-! ## Rows and a path -/

/-- Each name occurs, at any depth, in a value that the names before it lead to from a picked
row. -/
def KnowsFrom (root : View) (indices : List Nat) (names : List String) : Prop :=
  ∀ before name after, names = before ++ name :: after →
    ∃ i ∈ indices, ∃ m, root.reached before i = some m ∧ m.HasName name

/-- The view holds, row by row, what names lead to from picked rows of a root. -/
structure Reaches (root : View) (indices : List Nat) (names : List String) (w : View) : Prop where
  rowNumbers_eq : w.rowNumbers = indices
  value : ∀ k i, indices[k]? = some i → w.valueAt (k + 1) = root.reached names i
  absent_iff : ∀ k i, indices[k]? = some i →
    (w.rowAt (k + 1) = .absent ↔ root.reached names i = none)

theorem Picks.reached_eq (h : root.Picks indices v) (hk : indices[k]? = some i) :
    v.reached names (k + 1) = root.reached names i := by
  rw [reached, reached, h.value k i hk]

theorem Picks.hasRow (h : root.Picks indices v) (hk : indices[k]? = some i) : v.HasRow (k + 1) := by
  obtain ⟨hlt, -⟩ := List.getElem?_eq_some_iff.mp hk
  refine ⟨Nat.le_add_left 1 k, ?_⟩
  rw [h.rowCount_eq]
  exact hlt

theorem Picks.knows_iff (h : root.Picks indices v) :
    v.Knows names ↔ root.KnowsFrom indices names := by
  have hsome : ∀ before name, (∃ j m, v.HasRow j ∧ v.reached before j = some m ∧ m.HasName name) ↔
      ∃ i ∈ indices, ∃ m, root.reached before i = some m ∧ m.HasName name := by
    intro before name
    constructor
    · rintro ⟨j, m, ⟨hpos, hle⟩, hm, hname⟩
      have hlt : j - 1 < indices.length := by
        rw [h.rowCount_eq] at hle
        omega
      have hk := List.getElem?_eq_getElem hlt
      have hreached : v.reached before (j - 1 + 1) = _ := h.reached_eq hk
      rw [Nat.sub_add_cancel hpos] at hreached
      exact ⟨indices[j - 1], List.mem_of_getElem? hk, m, hreached.symm.trans hm, hname⟩
    · rintro ⟨i, hi, m, hm, hname⟩
      obtain ⟨k, hk⟩ := List.mem_iff_getElem?.mp hi
      exact ⟨k + 1, m, h.hasRow hk, (h.reached_eq hk).trans hm, hname⟩
  simp only [Knows, KnowsFrom, hsome]

theorem Picks.reaches (h : root.Picks indices v) (hw : v.Follows names w) (hsound : w.Sound) :
    root.Reaches indices names w := by
  have hvalue : ∀ k i, indices[k]? = some i → w.valueAt (k + 1) = root.reached names i :=
    fun k i hk => (hw.value (k + 1) (h.hasRow hk)).trans (h.reached_eq hk)
  refine ⟨?_, hvalue, fun k i hk => ?_⟩
  · rw [← h.rowNumbers_eq, rowNumbers, rowNumbers, hw.rowCount_eq]
    exact List.map_congr_left fun k _ => hw.rowNumber_eq k
  · rw [← valueAt_eq_none_iff hsound, hvalue k i hk]

/-- What a request for rows and a path gets from a root. -/
structure SelectsPath (root : View) (rows path : Option String) : Prop where
  /-- The rows of the root are read as the values of the records. -/
  records : ∀ i, root.HasRow i → ∃ span m, root.records[i - 1]? = some span ∧
    Scanner.readTree root.source span = .ok m ∧ root.valueAt i = some m
  /-- A list of rows that is refused is reported. -/
  refused : ∀ e, root.listed rows = .error e → root.selectPath rows path = .error e
  /-- So is one that names more rows than there may be. -/
  exceeded : ∀ indices, root.listed rows = .ok indices → root.rowLimit < indices.length →
    root.selectPath rows path = .error (.capacityExceeded (root.rowLimit + 1) root.rowLimit)
  /-- Otherwise a path is refused for a name that no value has that is reached by then. -/
  unknown_iff : ∀ indices names p, root.listed rows = .ok indices →
    indices.length ≤ root.rowLimit → path = some p → PathNames p names →
      (root.selectPath rows path = .error (.unknownField p) ↔ ¬ root.KnowsFrom indices names)
  /-- If there is no such name, the view holds what the path leads to. -/
  found : ∀ indices names, root.listed rows = .ok indices → indices.length ≤ root.rowLimit →
    NamesOn path names → root.KnowsFrom indices names → ∃ w, root.selectPath rows path = .ok w ∧
      w.provenance.fieldPath = path ∧ root.Reaches indices names w

/-- **Rows and a path lead to the values that the names lead to**, from every root. -/
theorem selects_path {source : ByteSource} {config : Config} (hroot : load source config = .ok root)
    (rows path : Option String) : root.SelectsPath rows path where
  records i hi := valueAt_root hroot hi
  refused e h := by
    cases rows with
    | none => cases h
    | some list =>
      rw [listed] at h
      rw [selectPath, selectList, h]
  exceeded indices h hlength := by
    rw [selectPath, selectList_of_exceeded hroot h hlength]
  unknown_iff indices names p h hlength hpath hnames := by
    obtain ⟨v, hv, hpicks⟩ := selectList_of_listed hroot h hlength
    rw [pathNames_iff] at hnames
    subst hpath hnames
    rw [selectPath, hv, ← hpicks.knows_iff]
    rcases descend_cases hroot hpicks.chain p (Files.splitOn '.' p.toList) with
      ⟨hknows, w, hw, -⟩ | ⟨hunknown, herror⟩
    · simp [hw, hknows]
    · simp [herror, hunknown]
  found indices names h hlength hnames hknows := by
    obtain ⟨v, hv, hpicks⟩ := selectList_of_listed hroot h hlength
    rw [selectPath, hv]
    cases path with
    | none =>
      cases hnames
      refine ⟨v, rfl, ?_, hpicks.reaches (follows_nil v) (sound_chain hroot hpicks.chain)⟩
      rw [Provenance.fieldPath, hpicks.fields_eq]
      rfl
    | some p =>
      obtain ⟨hjoined, hne, -⟩ := id hnames
      rw [NamesOn, pathNames_iff] at hnames
      rcases descend_cases hroot hpicks.chain p (Files.splitOn '.' p.toList) with
        ⟨-, w, hw, hfollows⟩ | ⟨hunknown, -⟩
      · rw [← hnames] at hfollows
        refine ⟨w, hw, ?_, hpicks.reaches hfollows ?_⟩
        · rw [Provenance.fieldPath, hfollows.fields_eq, hpicks.fields_eq, List.nil_append, hjoined,
            if_neg (by simpa using hne)]
        · exact sound_chain hroot (hpicks.chain.trans hfollows.chain)
      · rw [← hnames, hpicks.knows_iff] at hunknown
        exact absurd hknows hunknown

/-- The values of a nested name, from two of three records in another order. -/
theorem selects_path_scatteredMembers : ∃ root w, load scatteredMembers {} = .ok root ∧
    root.selectPath (some "3,1") (some "p.b") = .ok w ∧ w.rowNumbers = [3, 1] ∧
      w.toJsonText = [some "2", some "\"x\""] ∧
        root.SelectsPath (some "3,1") (some "p.b") := by
  have hrun : ((load scatteredMembers {}).toOption.bind fun root =>
      (root.selectPath (some "3,1") (some "p.b")).toOption.map fun w =>
        (w.rowNumbers, w.toJsonText)) = some ([3, 1], [some "2", some "\"x\""]) := by
    decide +kernel
  obtain ⟨root, hload, hrun⟩ := Option.bind_eq_some_iff.mp hrun
  obtain ⟨w, hselect, hfacts⟩ := Option.map_eq_some_iff.mp hrun
  obtain ⟨hnumbers, htexts⟩ := Prod.mk.inj hfacts
  have hroot := eq_ok_of_toOption hload
  exact ⟨root, w, hroot, eq_ok_of_toOption hselect, hnumbers, htexts, selects_path hroot _ _⟩

end View

end JsonLines
