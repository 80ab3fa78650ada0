/-
JsonLines.Proofs.Dataset.Origin — where the rows of a view come from.

`Traced root v` is what every view in a chain from a loaded root keeps: its row map, if it has one,
has a number for each row, the numbers are those of rows of the root, and every row that is there is
the image of a value inside the record that its number names. That provenance is sound, in terms of
the rows of the root alone, follows from it (`provenance_sound`).
-/
import JsonLines.Proofs.Dataset.Chain
import JsonLines.Proofs.Scan.Rereading

namespace JsonLines.View

variable {root v w : View}

/-- The records that a view was loaded from. -/
def records (v : View) : List Span := v.source.records v.config.reading.skipBlankLines

/-- The row is not there, or is the image of a value inside a record. -/
def Inside (v : View) (record : Option Span) (row : Cell) : Prop :=
  row = .absent ∨ ∃ span node m, record = some span ∧
    Scanner.readTree v.source span = .ok node ∧ m.Part node ∧ Scanned v.schema m row

/-- What every view of a chain keeps, seen from the root of the chain. -/
structure Traced (root v : View) : Prop where
  source_eq : v.source = root.source
  config_eq : v.config = root.config
  map_size : ∀ map, v.provenance.rows = some map → map.size = v.rowCount
  unmapped : v.provenance.rows = none → v.rowCount = root.rowCount
  number : ∀ i, i < v.rowCount → 1 ≤ v.rowNumber i ∧ v.rowNumber i ≤ root.rowCount
  inside : ∀ i row, v.rows[i]? = some row → v.Inside root.records[v.rowNumber i - 1]? row

/-! ## The root -/

/-- Without a map, rows are numbered from one: there are fewer of them than words. -/
theorem rowNumber_of_unmapped {p : Provenance} {i n : Nat} (h : p.rows = none)
    (hn : n ≤ RowStore.addressable Contents.rowWidth) (hi : i < n) : p.rowNumber i = i + 1 := by
  have hlt : RowStore.addressable Contents.rowWidth + 1 < Word.modulus := by decide
  have hmod : (i + 1) % Word.modulus = i + 1 := Nat.mod_eq_of_lt (by omega)
  rw [Provenance.rowNumber, h, hmod]

theorem load_eq_ok_iff {source : ByteSource} {config : Config} :
    load source config = .ok root ↔ ∃ contents, Contents.load source config = .ok contents ∧
      root = ⟨source, config, .root, contents⟩ := by
  unfold load
  cases Contents.load source config with
  | error e => simp
  | ok contents => simp [eq_comm]

theorem getElem?_picksFrom {spans : List Span} {row i : Nat} :
    (Contents.picksFrom row spans)[i]? = spans[i]?.map fun span => ⟨some span, row + i⟩ := by
  induction spans generalizing row i with
  | nil => rfl
  | cons span spans ih =>
    cases i with
    | zero => rfl
    | succ i =>
      rw [Contents.picksFrom, List.getElem?_cons_succ, List.getElem?_cons_succ, ih]
      simp only [Nat.add_assoc, Nat.add_comm 1 i]

/-- Each row of a root is the image of the record at its index. -/
theorem scanned_root {source : ByteSource} {config : Config} (h : load source config = .ok root)
    {i : Nat} {row : Cell} (hrow : root.rows[i]? = some row) :
    ∃ span node, root.records[i]? = some span ∧ Scanner.readTree root.source span = .ok node ∧
      Scanned root.schema node row := by
  obtain ⟨contents, hcontents, rfl⟩ := load_eq_ok_iff.mp h
  obtain ⟨hg, -⟩ := Contents.gathered_gather hcontents
  rw [rows, ← Array.getElem?_toList] at hrow
  obtain ⟨pick, hpick, hpicked⟩ := exists_pick_of_forall₂_picked hg.images hrow
  rw [getElem?_picksFrom] at hpick
  obtain ⟨span, hspan, rfl⟩ := Option.map_eq_some_iff.mp hpick
  obtain ⟨node, hread, hscanned⟩ := hpicked
  exact ⟨span, node, hspan, hread, hscanned⟩

theorem rowNumber_root {source : ByteSource} {config : Config} (h : load source config = .ok root)
    {i : Nat} (hi : i < root.rowCount) : root.rowNumber i = i + 1 := by
  obtain ⟨contents, hcontents, rfl⟩ := load_eq_ok_iff.mp h
  obtain ⟨-, hsize⟩ := Contents.gathered_gather hcontents
  exact rowNumber_of_unmapped rfl hsize hi

theorem traced_root {source : ByteSource} {config : Config} (h : load source config = .ok root) :
    Traced root root where
  source_eq := rfl
  config_eq := rfl
  map_size map hmap := by
    obtain ⟨contents, -, rfl⟩ := load_eq_ok_iff.mp h
    cases hmap
  unmapped _ := rfl
  number i hi := by
    have := rowNumber_root h hi
    omega
  inside i row hrow := by
    obtain ⟨span, node, hspan, hread, hscanned⟩ := scanned_root h hrow
    have hi : i < root.rowCount := (Array.getElem?_eq_some_iff.mp hrow).1
    rw [rowNumber_root h hi, Nat.add_sub_cancel]
    exact .inr ⟨span, node, node, hspan, hread, .self, hscanned⟩

/-! ## One draw -/

/-- What is drawn from a row that is there reads from its own span as a value inside the record of
that row. -/
theorem read_of_part {record : Option Span} {row c : Cell} {span : Span}
    (hrow : v.Inside record row) (hc : c.Part row) (hspan : spanOf? c = some span) :
    ∃ whole node m, record = some whole ∧ Scanner.readTree v.source whole = .ok node ∧
      m.Part node ∧ Scanner.readTree v.source span = .ok m := by
  unfold spanOf? at hspan
  split at hspan
  · cases hspan
  rename_i hpresent
  cases hspan
  rcases hrow with rfl | ⟨whole, node, n, hrecord, hread, hn, hscanned⟩
  · cases hc
    exact absurd rfl hpresent
  · obtain ⟨m, hm, hscanned'⟩ := hscanned.part hc
    refine ⟨whole, node, m, hrecord, hread, hm.trans hn, ?_⟩
    rw [hscanned'.span_eq]
    exact (readTree_part hread (hm.trans hn)).1

/-- The numbers of the rows that are drawn are those of the rows that they are drawn from. -/
theorem Draws.rowNumber_eq {draws : List Draw} {provenance : Provenance}
    (h : v.Draws w draws provenance) {i : Nat} {d : Draw} (hd : draws[i]? = some d) :
    provenance.rowNumber i = v.rowNumber d.index := by
  rcases h.rows with hrows | ⟨hrows, hindices⟩
  · rw [Provenance.rowNumber, hrows]
    simp [hd]
  · have hi : (draws.map Draw.index)[i]? = some d.index := by simp [hd]
    rw [hindices] at hi
    obtain ⟨hlt, hindex⟩ := List.getElem?_eq_some_iff.mp hi
    rw [List.getElem_range] at hindex
    rw [← hindex, rowNumber, Provenance.rowNumber, Provenance.rowNumber, hrows]

/-- A draw gathers one row for each part. -/
theorem Draws.rows_eq {draws : List Draw} {provenance : Provenance}
    (h : v.Draws w draws provenance) : ∃ contents, w = { v with provenance, contents } ∧
      Contents.Gathered v.source (draws.map v.pick) contents.schema contents.rows.toList
        contents.type ∧ contents.rows.size = draws.length := by
  obtain ⟨contents, hgather, rfl⟩ := regather_eq_ok_iff.mp h.gathered
  obtain ⟨hg, -⟩ := Contents.gathered_gather hgather
  refine ⟨contents, rfl, hg, ?_⟩
  rw [← Array.length_toList, ← hg.images.length_eq, List.length_map]

theorem traced_drawn (h : Traced root v) (hw : v.Drawn w) : Traced root w := by
  obtain ⟨draws, provenance, hdraws⟩ := hw
  obtain ⟨contents, rfl, hg, hsize⟩ := hdraws.rows_eq
  have hcount : rowCount { v with provenance, contents } = draws.length := hsize
  have hnumber : ∀ {i d}, draws[i]? = some d →
      rowNumber { v with provenance, contents } i = v.rowNumber d.index := hdraws.rowNumber_eq
  have hdraw : ∀ {i}, i < draws.length → ∃ d, draws[i]? = some d := fun {i} hi =>
    ⟨draws[i], List.getElem?_eq_getElem hi⟩
  refine ⟨h.source_eq, h.config_eq, ?_, ?_, ?_, ?_⟩
  · intro map hmap
    rcases hdraws.rows with hrows | ⟨hrows, hindices⟩
    · cases hmap.symm.trans hrows
      simp [hcount]
    · have hlength := congrArg List.length hindices
      rw [List.length_map, List.length_range] at hlength
      rw [hcount, hlength]
      exact h.map_size map (hrows ▸ hmap)
  · intro hunmapped
    rcases hdraws.rows with hrows | ⟨hrows, hindices⟩
    · cases hunmapped.symm.trans hrows
    · have hlength := congrArg List.length hindices
      rw [List.length_map, List.length_range] at hlength
      rw [hcount, hlength]
      exact h.unmapped (hrows ▸ hunmapped)
  · intro i hi
    obtain ⟨d, hd⟩ := hdraw (hcount ▸ hi)
    obtain ⟨row, hrow, -⟩ := hdraws.within d (List.mem_of_getElem? hd)
    rw [hnumber hd]
    exact h.number d.index (Array.getElem?_eq_some_iff.mp hrow).1
  · intro i row hrow
    obtain ⟨d, hd⟩ := hdraw (hsize ▸ (Array.getElem?_eq_some_iff.mp hrow).1)
    obtain ⟨old, hold, hpart⟩ := hdraws.within d (List.mem_of_getElem? hd)
    rw [rows, ← Array.getElem?_toList] at hrow
    obtain ⟨pick, hpick, hpicked⟩ := exists_pick_of_forall₂_picked hg.images hrow
    rw [List.getElem?_map, hd] at hpick
    cases hpick
    rw [hnumber hd]
    unfold Picked at hpicked
    split at hpicked
    · exact .inl hpicked
    · rename_i span hspan
      obtain ⟨node, hread, hscanned⟩ := hpicked
      obtain ⟨c, hc, hcspan⟩ := Option.bind_eq_some_iff.mp hspan
      obtain ⟨whole, top, m, hrecord, htop, hm, hread'⟩ :=
        read_of_part (h.inside d.index old hold) (hpart c hc) hcspan
      rw [hread] at hread'
      cases hread'
      exact .inr ⟨whole, top, node, hrecord, htop, hm, hscanned⟩

/-- Every view of a chain keeps what its root has. -/
theorem traced_chain {source : ByteSource} {config : Config} (hroot : load source config = .ok root)
    (h : root.Chain v) : Traced root v :=
  h.induction (traced_root hroot) traced_drawn

/-- Every view of a chain is gathered from picks of its source. -/
theorem exists_gather {source : ByteSource} {config : Config}
    (hroot : load source config = .ok root) (h : root.Chain v) :
    ∃ picks, Contents.gather v.source v.config.limits picks = .ok v.contents := by
  have hloaded : ∃ picks,
      Contents.gather root.source root.config.limits picks = .ok root.contents := by
    obtain ⟨contents, hload, rfl⟩ := load_eq_ok_iff.mp hroot
    exact ⟨_, hload⟩
  refine Chain.induction (P := fun v => ∃ picks,
    Contents.gather v.source v.config.limits picks = .ok v.contents) h hloaded ?_
  rintro v w - ⟨draws, provenance, hdraws⟩
  obtain ⟨contents, hgather, rfl⟩ := regather_eq_ok_iff.mp hdraws.gathered
  exact ⟨_, hgather⟩

/-! ## Provenance -/

/-- What a view says of its rows is true of the root that they come from. -/
structure Accounted (root v : View) : Prop where
  /-- A row map has one number for each row, so that no number is made up. -/
  mapped : ∀ map, v.provenance.rows = some map → map.size = v.rowCount ∧
    ∀ i, i < v.rowCount → map[i]? = some (v.rowNumber i)
  unmapped : v.provenance.rows = none → v.rowCount = root.rowCount
  number : ∀ i, i < v.rowCount → 1 ≤ v.rowNumber i ∧ v.rowNumber i ≤ root.rowCount
  /-- A row that is there has the spans and the names of a part of the root's row that its number
  names, within the span of that record. -/
  origin : ∀ i row, v.rows[i]? = some row → row = .absent ∨ ∃ whole part span,
    root.rows[v.rowNumber i - 1]? = some whole ∧ part.Part whole ∧
      v.schema.outline row = root.schema.outline part ∧
      root.records[v.rowNumber i - 1]? = some span ∧ span.offset ≤ row.span.offset ∧
        row.span.offset + row.span.len ≤ span.offset + span.len

/-- **Provenance is sound** over every chain of views. -/
theorem provenance_sound {source : ByteSource} {config : Config}
    (hroot : load source config = .ok root) (h : root.Chain v) : Accounted root v := by
  have ht := traced_chain hroot h
  refine ⟨?_, ht.unmapped, ht.number, ?_⟩
  · intro map hmap
    refine ⟨ht.map_size map hmap, ?_⟩
    intro i hi
    have hlt : i < map.size := ht.map_size map hmap ▸ hi
    simp [rowNumber, Provenance.rowNumber, hmap, hlt]
  · intro i row hrow
    rcases ht.inside i row hrow with habsent | ⟨span, node, m, hrecord, hread, hm, hscanned⟩
    · exact .inl habsent
    have hi : i < v.rowCount := (Array.getElem?_eq_some_iff.mp hrow).1
    obtain ⟨hpos, hle⟩ := ht.number i hi
    have hlt : v.rowNumber i - 1 < root.rows.size := by
      have : root.rowCount = root.rows.size := rfl
      omega
    have hwhole := Array.getElem?_eq_getElem hlt
    obtain ⟨span', node', hrecord', hread', hscanned'⟩ := scanned_root hroot hwhole
    cases hrecord.symm.trans hrecord'
    rw [ht.source_eq, hread'] at hread
    cases hread
    obtain ⟨part, hpart, hscannedPart⟩ := hscanned'.exists_part hm
    obtain ⟨-, -, hfirst, hlast⟩ := readTree_part hread' hm
    rw [← hscanned.span_eq] at hfirst hlast
    exact .inr ⟨_, part, span, hwhole, hpart, hscanned.outline_eq hscannedPart, hrecord, hfirst,
      hlast⟩

theorem eq_ok_of_toOption {ε α : Type} {e : Except ε α} {a : α} (h : e.toOption = some a) :
    e = .ok a := by
  cases e with
  | error => cases h
  | ok => exact congrArg Except.ok (Option.some.inj h)

/-- Two records with an array each. -/
def twoArrays : ByteSource := .ofString "\x7b\"a\":[1,2]\x7d\n\x7b\"a\":[3]\x7d\n"

/-- The second record, the first and the second again, projected on their arrays. -/
theorem provenance_sound_twoArrays : ∃ root v, load twoArrays {} = .ok root ∧ root.Chain v ∧
    v.rowNumbers = [2, 1, 2] ∧ Accounted root v := by
  have hrun : ((load twoArrays {}).toOption.bind fun root =>
      (root.select [2, 1, 2]).toOption.bind fun selected =>
        (selected.field? "a").toOption.bind fun field => field.map rowNumbers) =
      some [2, 1, 2] := by decide +kernel
  obtain ⟨root, hload, hrun⟩ := Option.bind_eq_some_iff.mp hrun
  obtain ⟨selected, hselect, hrun⟩ := Option.bind_eq_some_iff.mp hrun
  obtain ⟨field, hfield, hrun⟩ := Option.bind_eq_some_iff.mp hrun
  obtain ⟨v, rfl, hnumbers⟩ := Option.map_eq_some_iff.mp hrun
  have hroot := eq_ok_of_toOption hload
  have hchain : root.Chain v := .tail (.single (.select (eq_ok_of_toOption hselect)))
    (.field (eq_ok_of_toOption hfield))
  exact ⟨root, v, hroot, hchain, hnumbers, provenance_sound hroot hchain⟩

end JsonLines.View
