/-
JsonLines.Proofs.Dataset.Independence — a load depends on the texts of its records alone.

Two sources whose records have the same texts, in the same order, are loaded side by side. Each
record is scanned as its text is by itself, moved to its place, so both gatherings are given the
same cell or the same refusal (`scan_sameText`); their schemas, their types and the numbers of their
rows stay equal, and so does the answer to whether there is room (`Parallel.add`). What ends one run
ends the other, with the same error. In the end the rows are the same cells, each counted from the
start of its record.

What lines end in and, if they are skipped, where blank lines stand is no part of the texts.
-/
import JsonLines.Proofs.Dataset.Outcome
import JsonLines.Proofs.Scan.Relocating
import JsonLines.Proofs.Source.RecordTexts

namespace JsonLines

/-- The same error, or results that are related. -/
def Agree {α β : Type} (R : α → β → Prop) : Except Error α → Except Error β → Prop
  | .error e, .error e' => e = e'
  | .ok a, .ok b => R a b
  | _, _ => False

theorem Agree.error_or_ok {α β : Type} {R : α → β → Prop} {x : Except Error α}
    {y : Except Error β} (h : Agree R x y) :
    (∃ e, x = .error e ∧ y = .error e) ∨ ∃ a b, x = .ok a ∧ y = .ok b ∧ R a b := by
  cases x with
  | error e =>
    cases y with
    | error e' => exact .inl ⟨e, rfl, congrArg Except.error (Eq.symm h)⟩
    | ok b => exact h.elim
  | ok a =>
    cases y with
    | error e => exact h.elim
    | ok b => exact .inr ⟨a, b, rfl, rfl, h⟩

/-- The rows are the same cells, each moved to its place. -/
def Realigned (places places' : List Nat) (rows rows' : List Cell) : Prop :=
  ∃ cells : List Cell, cells.length = places.length ∧ cells.length = places'.length ∧
    rows = List.zipWith Cell.shift places cells ∧ rows' = List.zipWith Cell.shift places' cells

variable {source source' : ByteSource} {config config' : Config} {limits : Config.Limits}
  {records records' : List Span} {record record' : Span} {places places' : List Nat}
  {rows rows' : List Cell}

theorem Realigned.length_eq (h : Realigned places places' rows rows') :
    rows'.length = rows.length := by
  obtain ⟨cells, hlength, hlength', rfl, rfl⟩ := h
  rw [List.length_zipWith, List.length_zipWith, ← hlength, ← hlength']

/-- One more row. -/
theorem Realigned.snoc (h : Realigned places places' rows rows') (place place' : Nat)
    (cell : Cell) : Realigned (places ++ [place]) (places' ++ [place'])
      (rows ++ [cell.shift place]) (rows' ++ [cell.shift place']) := by
  obtain ⟨cells, hlength, hlength', rfl, rfl⟩ := h
  refine ⟨cells ++ [cell], by simp [hlength], by simp [hlength'], ?_, ?_⟩
  · rw [List.zipWith_append hlength.symm]
    rfl
  · rw [List.zipWith_append hlength'.symm]
    rfl

/-- The spans are ranges of their sources and cut out the same text. -/
structure SameText (source source' : ByteSource) (record record' : Span) : Prop where
  fits : record.fits source.size
  fits' : record'.fits source'.size
  slice_eq : source.slice record = source'.slice record'

/-- **The same text is scanned to the same cell or refused with the same cause**, wherever it
stands. -/
theorem scan_sameText (h : SameText source source' record record') (limits : Config.Limits)
    (s : Schema) (row : Nat) :
    ∃ r : Except ScanError Cell × Schema,
      Pick.scan ⟨some record, row⟩ source limits s = movedScan (Cell.shift record.offset) r ∧
        Pick.scan ⟨some record', row⟩ source' limits s = movedScan (Cell.shift record'.offset) r := by
  have halone : source'.alone record' = source.alone record := by
    rw [ByteSource.alone, ByteSource.alone, h.slice_eq]
  refine ⟨_, scan_eq_alone h.fits, ?_⟩
  rw [← halone]
  exact scan_eq_alone h.fits'

namespace Contents

variable {g g' : Gathering}

/-! ## Two gatherings side by side -/

/-- The second gathering has done with its records what the first one has done with records of the
same texts. -/
structure Parallel (places places' : List Nat) (g g' : Gathering) : Prop where
  schema_eq : g'.schema = g.schema
  type_eq : g'.type = g.type
  sound : g.store.Sound
  sound' : g'.store.Sound
  limit_eq : g'.store.limit = g.store.limit
  rows : Realigned places places' g.store.rows.toList g'.store.rows.toList

theorem parallel_start (limits : Config.Limits) :
    Parallel [] [] (Gathering.start limits) (Gathering.start limits) where
  schema_eq := rfl
  type_eq := rfl
  sound := RowStore.sound_withLimit _ _
  sound' := RowStore.sound_withLimit _ _
  limit_eq := rfl
  rows := ⟨[], rfl, rfl, rows_start, rows_start⟩

theorem Parallel.size_eq (h : Parallel places places' g g') : g'.store.size = g.store.size := by
  have hlength := h.rows.length_eq
  rwa [Array.length_toList, Array.length_toList] at hlength

/-- What both are given they take in the same way. -/
theorem Parallel.take (h : Parallel places places' g g') (row place place' : Nat)
    (r : Except ScanError Cell × Schema) :
    Agree (Parallel (places ++ [place]) (places' ++ [place']))
      (g.take row (movedScan (Cell.shift place) r))
      (g'.take row (movedScan (Cell.shift place') r)) := by
  obtain ⟨outcome, s⟩ := r
  cases outcome with
  | error cause => exact rfl
  | ok cell =>
    simp only [movedScan, Except.map, Gathering.take]
    -- The stores have as many rows as each other, so there is room in both or in neither.
    by_cases hlt : g.store.size < g.store.limit
    · have hlt' : g'.store.size < g'.store.limit := by rwa [h.size_eq, h.limit_eq]
      obtain ⟨store, hpush, hsound, hrows, hlimit⟩ :=
        RowStore.push_of_lt h.sound hlt (cell.shift place)
      obtain ⟨store', hpush', hsound', hrows', hlimit'⟩ :=
        RowStore.push_of_lt h.sound' hlt' (cell.shift place')
      rw [hpush, hpush']
      refine ⟨?_, ?_, hsound, hsound', ?_, ?_⟩
      · simp only [h.type_eq, Cell.type_shift]
      · simp only [h.type_eq, Cell.type_shift]
      · rw [hlimit', hlimit, h.limit_eq]
      · simp only [hrows, hrows', Array.toList_push]
        exact h.rows.snoc place place' cell
    · have hle' : g'.store.limit ≤ g'.store.size := by
        rw [h.size_eq, h.limit_eq]
        omega
      rw [RowStore.push_of_le h.sound (by omega), RowStore.push_of_le h.sound' hle', h.size_eq,
        h.limit_eq]
      exact rfl

/-- One record of each. -/
theorem Parallel.add (h : Parallel places places' g g')
    (htext : SameText source source' record record') (limits : Config.Limits) (row : Nat) :
    Agree (Parallel (places ++ [record.offset]) (places' ++ [record'.offset]))
      (g.add source limits ⟨some record, row⟩) (g'.add source' limits ⟨some record', row⟩) := by
  obtain ⟨r, hscan, hscan'⟩ := scan_sameText htext limits g.schema row
  rw [add_eq_take, add_eq_take, h.schema_eq, hscan, hscan']
  exact h.take row record.offset record'.offset r

/-- Any number of records of each. -/
theorem Parallel.addAll (h : Parallel places places' g g')
    (htexts : List.Forall₂ (SameText source source') records records') (limits : Config.Limits)
    (row : Nat) :
    Agree (Parallel (places ++ records.map Span.offset) (places' ++ records'.map Span.offset))
      (g.addAll source limits (picksFrom row records))
      (g'.addAll source' limits (picksFrom row records')) := by
  induction htexts generalizing g g' places places' row with
  | nil =>
    simp only [List.map_nil, List.append_nil]
    exact h
  | @cons record record' records records' htext _ ih =>
    rw [picksFrom, picksFrom, Gathering.addAll, Gathering.addAll]
    obtain ⟨e, hadd, hadd'⟩ | ⟨next, next', hadd, hadd', hstep⟩ :=
      (h.add htext limits row).error_or_ok
    · rw [hadd, hadd']
      exact rfl
    · rw [hadd, hadd']
      have hrest := ih hstep (row + 1)
      simp only [List.append_assoc, List.singleton_append] at hrest
      exact hrest

/-- The contents are those of records of the same texts: the same types and names at the same
numbers, and rows that are the same but for where their records start. -/
structure SameContents (records records' : List Span) (c c' : Contents) : Prop where
  schema_eq : c'.schema = c.schema
  type_eq : c'.type = c.type
  rows : Realigned (records.map Span.offset) (records'.map Span.offset) c.rows.toList
    c'.rows.toList

theorem gather_sameText (htexts : List.Forall₂ (SameText source source') records records')
    (limits : Config.Limits) (row : Nat) : Agree (SameContents records records')
      (gather source limits (picksFrom row records))
      (gather source' limits (picksFrom row records')) := by
  rw [gather, gather]
  obtain ⟨e, hadd, hadd'⟩ | ⟨g, g', hadd, hadd', hall⟩ :=
    ((parallel_start limits).addAll htexts limits row).error_or_ok
  · rw [hadd, hadd']
    exact rfl
  · rw [hadd, hadd']
    exact ⟨hall.schema_eq, hall.type_eq, hall.rows⟩

/-! ## Loading -/

theorem sameText_of_map_slice_eq (hfits : ∀ r ∈ records, r.fits source.size)
    (hfits' : ∀ r ∈ records', r.fits source'.size)
    (h : records.map source.slice = records'.map source'.slice) :
    List.Forall₂ (SameText source source') records records' := by
  induction records generalizing records' with
  | nil =>
    cases records' with
    | nil => exact .nil
    | cons record' records' => cases h
  | cons record records ih =>
    cases records' with
    | nil => cases h
    | cons record' records' =>
      rw [List.forall_mem_cons] at hfits hfits'
      obtain ⟨hhead, htail⟩ := List.cons.inj h
      exact .cons ⟨hfits.1, hfits'.1, hhead⟩ (ih hfits.2 hfits'.2 htail)

/-- The loads fail with the same error, or give contents that are the same but for the places of the
records. -/
def LoadAlike (source source' : ByteSource) (config config' : Config) : Prop :=
  Agree (SameContents (config.records source) (config'.records source')) (load source config)
    (load source' config')

/-- Records of the same texts are loaded alike. -/
theorem loadAlike_of_map_slice_eq (hsize : source.size < Word.modulus)
    (hsize' : source'.size < Word.modulus) (hlimits : config'.limits = config.limits)
    (h : (config.records source).map source.slice = (config'.records source').map source'.slice) :
    LoadAlike source source' config config' := by
  have htexts := sameText_of_map_slice_eq (fun r hr => fits_of_mem_records hsize hr)
    (fun r hr => fits_of_mem_records hsize' hr) h
  have hgather := gather_sameText htexts config.limits 1
  unfold LoadAlike load
  rw [hlimits]
  exact hgather

/-- What two sources of the same limits may differ in without being loaded differently. -/
structure TextsDecide (source source' : ByteSource) (config config' : Config) : Prop where
  /-- Anything but the texts of the records. -/
  texts : (config.records source).map source.slice = (config'.records source').map source'.slice →
    LoadAlike source source' config config'
  /-- Carriage returns before the line feeds, where there were none. -/
  returns : config'.reading.skipBlankLines = config.reading.skipBlankLines →
    Lines.carriageReturn ∉ source.toList → source'.toList = Lines.withReturns source.toList →
      LoadAlike source source' config config'
  /-- Blank lines, if they are skipped. -/
  blanks : config.reading.skipBlankLines = true → config'.reading.skipBlankLines = true →
    Lines.Padded source.toList source'.toList → LoadAlike source source' config config'

/-- **A load depends on the texts of its records alone**, of any two sources whose bytes a word
counts. -/
theorem load_textsDecide (hsize : source.size < Word.modulus)
    (hsize' : source'.size < Word.modulus) (hlimits : config'.limits = config.limits) :
    TextsDecide source source' config config' where
  texts := loadAlike_of_map_slice_eq hsize hsize' hlimits
  returns hskip hreturn hbytes := by
    refine loadAlike_of_map_slice_eq hsize hsize' hlimits (map_slice_records_congr hsize hsize' ?_)
    rw [hskip, hbytes, Lines.texts_withReturns hreturn]
  blanks hskip hskip' hpadded := by
    refine loadAlike_of_map_slice_eq hsize hsize' hlimits (map_slice_records_congr hsize hsize' ?_)
    rw [hskip, hskip', Lines.texts_padded hpadded]

/-- Two records on lines of their own. -/
def twoLines : ByteSource := .ofString "\x7b\"a\":1\x7d\n[\"b\"]\n"

/-- The records with a carriage return at the end of each line. -/
def twoReturnedLines : ByteSource := .ofString "\x7b\"a\":1\x7d\x0d\n[\"b\"]\x0d\n"

/-- The records with blank lines between them and at the end. -/
def twoSpacedLines : ByteSource := .ofString "\x7b\"a\":1\x7d\n \n\n[\"b\"]\n\n\t"

/-- Blank lines are skipped. -/
def skipping : Config := { reading := { skipBlankLines := true } }

theorem load_textsDecide_twoLines : (∃ c, load twoLines {} = .ok c ∧ c.rows.size = 2) ∧
    LoadAlike twoLines twoReturnedLines {} {} ∧
      LoadAlike twoLines twoSpacedLines skipping skipping := by
  have hsize : twoLines.size < Word.modulus := by decide +kernel
  have hrun : (load twoLines {}).toOption.map (fun c => c.rows.size) = some 2 := by decide +kernel
  have hreturned : TextsDecide twoLines twoReturnedLines {} {} :=
    load_textsDecide hsize (by decide +kernel) rfl
  have hspaced : TextsDecide twoLines twoSpacedLines skipping skipping :=
    load_textsDecide hsize (by decide +kernel) rfl
  obtain ⟨c, hload, hrows⟩ := Option.map_eq_some_iff.mp hrun
  refine ⟨⟨c, View.eq_ok_of_toOption hload, hrows⟩,
    hreturned.returns rfl (by decide +kernel) (by decide +kernel), hspaced.blanks rfl rfl ?_⟩
  have hplain : twoLines.toList = "\x7b\"a\":1\x7d\n".toUTF8.data.toList ++
      "[\"b\"]\n".toUTF8.data.toList := by decide +kernel
  have hbytes : twoSpacedLines.toList = "\x7b\"a\":1\x7d\n".toUTF8.data.toList ++
      (" \n\n".toUTF8.data.toList ++ "[\"b\"]\n".toUTF8.data.toList) ++ Lines.lineFeed :: [9] := by
    decide +kernel
  rw [hplain, hbytes]
  refine .extend (.insert .refl (.inr ?_) (.inr ?_) ?_) ?_
  · decide +kernel
  · decide +kernel
  · unfold Lines.Blank
    decide +kernel
  · exact List.forall_mem_singleton.mpr rfl

end Contents

end JsonLines
