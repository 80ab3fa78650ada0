/-
JsonLines.Proofs.Dataset.Gathering — what gathered contents hold.

`Gathered` describes contents by the picks that they were gathered from, without the order in which
things happened: every row is the image of its pick in the final schema, and the type is the least
upper bound of the rows' types. One more pick keeps this (`gathered_add`), and so does any number of
them. That the type of a load is principal follows. Gathering succeeds when the limits accept every
pick and the number of picks (`exists_gather_eq_ok_iff`).
-/
import JsonLines.Dataset.Contents
import JsonLines.Proofs.Dataset.RowStore
import JsonLines.Proofs.Scan.Acceptance
import JsonLines.Proofs.Scan.Conformance
import JsonLines.Proofs.Scan.Growth

namespace JsonLines

/-- What scanning a pick gives: nothing becomes the absent value. -/
def Pick.scan (pick : Pick) (source : ByteSource) (limits : Config.Limits) (s : Schema) :
    Except ScanError Cell × Schema :=
  match pick.span with
  | none => (.ok .absent, s)
  | some span => Scanner.scan ⟨limits.maxDepth⟩ source s span

/-- The limits accept what the pick reads, if it reads anything. -/
def Pick.Accepted (source : ByteSource) (limits : Config.Limits) (pick : Pick) : Prop :=
  ∀ span ∈ pick.span, ∃ node, Scanner.readTree source span = .ok node ∧ node.WellNamed ∧
    node.nesting ≤ limits.maxDepth

/-- The cell is the image of a pick. -/
def Picked (source : ByteSource) (s : Schema) (pick : Pick) (cell : Cell) : Prop :=
  match pick.span with
  | none => cell = .absent
  | some span => ∃ node, Scanner.readTree source span = .ok node ∧ Scanned s node cell

variable {source : ByteSource} {limits : Config.Limits} {s t : Schema} {pick : Pick} {cell : Cell}
  {picks done : List Pick} {rows : List Cell} {type : TypeId}

/-- Scanning a pick succeeds if the pick is accepted, whatever the schema. -/
theorem Pick.exists_scan_eq_ok_iff :
    (∃ cell t, pick.scan source limits s = (.ok cell, t)) ↔ pick.Accepted source limits := by
  unfold Pick.scan Pick.Accepted
  cases pick.span with
  | none => simp
  | some span =>
    have hscan : (∃ cell, (Scanner.scan ⟨limits.maxDepth⟩ source s span).1 = .ok cell) ↔
        ∃ node, Scanner.readTree source span = .ok node ∧ node.WellNamed ∧
          node.nesting ≤ limits.maxDepth := JsonLines.exists_scan_eq_ok_iff
    simp only [Option.mem_some_iff, forall_eq', ← hscan]
    constructor
    · rintro ⟨cell, t, h⟩
      exact ⟨cell, by rw [h]⟩
    · rintro ⟨cell, h⟩
      exact ⟨cell, _, Prod.ext h rfl⟩

theorem Picked.knows (h : Picked source s pick cell) : s.Knows cell.type := by
  unfold Picked at h
  cases hspan : pick.span with
  | none =>
    rw [hspan] at h
    exact h ▸ Schema.knows_null
  | some span =>
    rw [hspan] at h
    obtain ⟨node, -, hscanned⟩ := h
    exact hscanned.knows

theorem Picked.of_extends (hs : s.WellFormed) (ht : t.WellFormed) (hst : s.Extends t)
    (h : Picked source s pick cell) : Picked source t pick cell := by
  unfold Picked at h ⊢
  cases hspan : pick.span with
  | none => rwa [hspan] at h
  | some span =>
    rw [hspan] at h
    obtain ⟨node, hread, hscanned⟩ := h
    exact ⟨node, hread, hscanned.of_extends hs ht hst⟩

theorem knows_of_forall₂_picked (h : List.Forall₂ (Picked source s) picks rows) :
    ∀ c ∈ rows, s.Knows c.type := by
  induction h with
  | nil => simp
  | cons hpick _ ih => exact List.forall_mem_cons.mpr ⟨hpick.knows, ih⟩

/-- A row is the image of the pick at its index. -/
theorem exists_pick_of_forall₂_picked (h : List.Forall₂ (Picked source s) picks rows) {i : Nat}
    (hrow : rows[i]? = some cell) : ∃ pick, picks[i]? = some pick ∧ Picked source s pick cell := by
  induction h generalizing i with
  | nil => simp at hrow
  | @cons pick _ _ _ hpick _ ih =>
    cases i with
    | zero =>
      cases hrow
      exact ⟨pick, rfl, hpick⟩
    | succ i => exact ih hrow

/-- A type covers the rows of some picks when the values that they read conform to it. -/
theorem conforms_iff_of_forall₂_picked (ht : t.WellFormed) (htype : t.Knows type)
    (h : List.Forall₂ (Picked source t) picks rows) :
    (∀ pick ∈ picks, ∀ span ∈ pick.span, ∃ node, Scanner.readTree source span = .ok node ∧
      Conforms t node type) ↔ ∀ c ∈ rows, t.tree c.type ≤ t.tree type := by
  induction h with
  | nil => simp
  | @cons pick cell _ _ hpick _ ih =>
    rw [List.forall_mem_cons, List.forall_mem_cons, ih]
    refine and_congr_left' ?_
    unfold Picked at hpick
    cases hspan : pick.span with
    | none =>
      rw [hspan] at hpick
      simp only [reduceCtorEq, Option.mem_def, false_implies, implies_true, true_iff]
      rw [hpick, Cell.absent, Cell.type, Schema.tree_null]
      exact TypeTree.null_le _
    | some span =>
      rw [hspan] at hpick
      obtain ⟨node, hread, hscanned⟩ := hpick
      rw [← conforms_iff ht htype hscanned]
      simp [hread]

namespace Contents

variable {g g' : Gathering}

/-! ## One pick -/

/-- What becomes of a scanned pick: its type is joined and its cell is stored. -/
def Gathering.take (g : Gathering) (row : Nat) :
    Except ScanError Cell × Schema → Except Error Gathering
  | (.error cause, _) => .error (.malformedRecord row cause)
  | (.ok cell, s) =>
    match g.store.push cell with
    | .error e => .error e
    | .ok store => .ok ⟨(s.union g.type cell.type).2, store, (s.union g.type cell.type).1⟩

theorem add_eq_take :
    g.add source limits pick = g.take pick.row (pick.scan source limits g.schema) := by
  unfold Gathering.add Pick.scan
  cases pick.span with
  | none => rfl
  | some span =>
    dsimp only
    obtain ⟨outcome, s⟩ := Scanner.scan ⟨limits.maxDepth⟩ source g.schema span
    cases outcome <;> rfl

/-- **A step of a gathering that succeeds**: the pick is scanned, its type joined and its row
stored. -/
theorem add_eq_ok_iff : g.add source limits pick = .ok g' ↔ ∃ cell s store,
    pick.scan source limits g.schema = (.ok cell, s) ∧ g.store.push cell = .ok store ∧
      g' = ⟨(s.union g.type cell.type).2, store, (s.union g.type cell.type).1⟩ := by
  rw [add_eq_take]
  obtain ⟨outcome, s⟩ := pick.scan source limits g.schema
  cases outcome with
  | error cause => simp [Gathering.take]
  | ok cell =>
    cases hpush : g.store.push cell with
    | error e => simp [Gathering.take, hpush]
    | ok store => simp [Gathering.take, hpush, eq_comm]

/-- A run that succeeds takes a step that does and goes on from there. -/
theorem addAll_cons_eq_ok_iff : g.addAll source limits (pick :: picks) = .ok g' ↔
    ∃ next, g.add source limits pick = .ok next ∧ next.addAll source limits picks = .ok g' := by
  rw [Gathering.addAll]
  cases g.add source limits pick with
  | error e => simp
  | ok next => simp

theorem gather_eq_ok_iff {c : Contents} : gather source limits picks = .ok c ↔
    ∃ g, (Gathering.start limits).addAll source limits picks = .ok g ∧
      c = ⟨g.schema, g.store.rows, g.type⟩ := by
  unfold gather
  cases (Gathering.start limits).addAll source limits picks with
  | error e => simp
  | ok g => simp [RowStore.finish, eq_comm]

/-- What scanning a pick does to a schema, and what it gives if it succeeds. -/
theorem scan_pick (hs : s.WellFormed) (h : pick.scan source limits s = (.ok cell, t)) :
    t.WellFormed ∧ s.Extends t ∧ Picked source t pick cell := by
  unfold Pick.scan at h
  unfold Picked
  cases hspan : pick.span with
  | none =>
    simp only [hspan, Prod.mk.injEq, Except.ok.injEq] at h
    obtain ⟨rfl, rfl⟩ := h
    exact ⟨hs, .refl s, rfl⟩
  | some span =>
    simp only [hspan, Scanner.scan] at h
    cases hread : Scanner.readTree source span with
    | error e => simp [hread] at h
    | ok node =>
      simp only [hread] at h
      have hscan : Scans s node (Scanner.scanNode ⟨limits.maxDepth⟩ source 0 s node) :=
        scans_scanNode hs
      rw [h] at hscan
      exact ⟨hscan.wellFormed, hscan.extended, node, hread, hscan.scanned cell rfl⟩

/-! ## All picks -/

/-- The rows are the images of the picks, and the type is the least one that covers them. -/
structure Gathered (source : ByteSource) (picks : List Pick) (s : Schema) (rows : List Cell)
    (type : TypeId) : Prop where
  wellFormed : s.WellFormed
  knows : s.Knows type
  images : List.Forall₂ (Picked source s) picks rows
  least : IsLUB (s.treesOf rows) (s.tree type)

theorem rows_start : (Gathering.start limits).store.rows.toList = [] := by
  unfold Gathering.start
  cases limits.maxRows <;> rfl

theorem gathered_start : Gathered source [] .empty [] .null where
  wellFormed := Schema.wellFormed_empty
  knows := Schema.knows_null
  images := .nil
  least := by
    rw [Schema.tree_null, isLUB_iff_le_iff]
    intro u
    constructor
    · rintro - _ ⟨_, hc, -⟩
      cases hc
    · intro _
      exact TypeTree.null_le u

theorem Gathered.of_extends (h : Gathered source picks s rows type) (ht : t.WellFormed)
    (hst : s.Extends t) : Gathered source picks t rows type where
  wellFormed := ht
  knows := hst.knows h.knows
  images := h.images.imp fun _ _ => Picked.of_extends h.wellFormed ht hst
  least := by
    rw [Schema.tree_of_extends h.wellFormed ht hst h.knows,
      treesOf_of_extends h.wellFormed ht hst (knows_of_forall₂_picked h.images)]
    exact h.least

/-- One more row and the union of its type. -/
theorem Gathered.snoc (h : Gathered source picks s rows type) (ht : t.WellFormed)
    (hst : s.Extends t) (hpick : Picked source t pick cell) :
    Gathered source (picks ++ [pick]) (t.union type cell.type).2 (rows ++ [cell])
      (t.union type cell.type).1 := by
  have hj := Schema.joins_union ht (hst.knows h.knows) hpick.knows
  have hold := h.of_extends hj.wellFormed (hst.trans hj.extended)
  refine ⟨hj.wellFormed, hj.knows, ?_, ?_⟩
  · exact List.rel_append hold.images
      (.cons (hpick.of_extends ht hj.wellFormed hj.extended) .nil)
  · have htype := Schema.tree_of_extends ht hj.wellFormed hj.extended (hst.knows h.knows)
    have hcell := Schema.tree_of_extends ht hj.wellFormed hj.extended hpick.knows
    rw [hj.tree_eq, ← htype, ← hcell, isLUB_iff_le_iff]
    intro u
    rw [sup_le_iff, isLUB_le_iff hold.least]
    constructor
    · rintro ⟨hrows, hnew⟩ _ ⟨c, hc, rfl⟩
      rcases List.mem_append.mp hc with hc | hc
      · exact hrows ⟨c, hc, rfl⟩
      · exact List.mem_singleton.mp hc ▸ hnew
    · intro hu
      constructor
      · rintro _ ⟨c, hc, rfl⟩
        exact hu ⟨c, List.mem_append_left _ hc, rfl⟩
      · exact hu ⟨cell, List.mem_append_right _ List.mem_cons_self, rfl⟩

/-- One more pick keeps what is gathered and the store sound. -/
theorem gathered_add (h : Gathered source done g.schema g.store.rows.toList g.type)
    (hstore : g.store.Sound) (hadd : g.add source limits pick = .ok g') :
    Gathered source (done ++ [pick]) g'.schema g'.store.rows.toList g'.type ∧
      g'.store.Sound ∧ g'.store.limit = g.store.limit := by
  obtain ⟨cell, t, store, hscan, hpush, rfl⟩ := add_eq_ok_iff.mp hadd
  obtain ⟨ht, hst, hpick⟩ := scan_pick h.wellFormed hscan
  obtain ⟨-, hsound, hrows, hlimit⟩ := RowStore.lt_of_push hstore hpush
  refine ⟨?_, hsound, hlimit⟩
  rw [hrows, Array.toList_push]
  exact h.snoc ht hst hpick

/-- Any number of picks. -/
theorem gathered_addAll (h : Gathered source done g.schema g.store.rows.toList g.type)
    (hstore : g.store.Sound) (hadd : g.addAll source limits picks = .ok g') :
    Gathered source (done ++ picks) g'.schema g'.store.rows.toList g'.type ∧
      g'.store.Sound ∧ g'.store.limit = g.store.limit := by
  induction picks generalizing g done with
  | nil =>
    simp only [Gathering.addAll, Except.ok.injEq] at hadd
    rw [← hadd, List.append_nil]
    exact ⟨h, hstore, rfl⟩
  | cons pick picks ih =>
    obtain ⟨next, hstep, hrest⟩ := addAll_cons_eq_ok_iff.mp hadd
    obtain ⟨hnext, hsound, hlimit⟩ := gathered_add h hstore hstep
    obtain ⟨hall, hsound', hlimit'⟩ := ih hnext hsound hrest
    rw [List.append_assoc] at hall
    exact ⟨hall, hsound', hlimit'.trans hlimit⟩

/-- **What is gathered**: an image of every pick, and the least type that covers them, in rows that
memory can address. -/
theorem gathered_gather {c : Contents} (h : gather source limits picks = .ok c) :
    Gathered source picks c.schema c.rows.toList c.type ∧
      c.rows.size ≤ RowStore.addressable rowWidth := by
  obtain ⟨g, hadd, rfl⟩ := gather_eq_ok_iff.mp h
  obtain ⟨hg, hsound, hlimit⟩ :=
    gathered_addAll (rows_start ▸ gathered_start) (RowStore.sound_withLimit _ _) hadd
  refine ⟨hg, ?_⟩
  have hle : g.store.size ≤ g.store.limit := Nat.le_trans hsound.size_le hsound.capacity_le
  rw [hlimit] at hle
  exact Nat.le_trans hle (RowStore.limit_withLimit _ _)

/-! ## What gathering does to the schema -/

/-- The value that a pick reads, if it reads one, has no names but some. -/
def ReadsWithin (source : ByteSource) (P : String → Prop) (pick : Pick) : Prop :=
  ∀ span ∈ pick.span, ∀ node, Scanner.readTree source span = .ok node →
    ∀ name, node.HasName name → P name

theorem grows_scan {P : String → Prop} {t : Schema} (ht : t.WellFormed) (h : s.Grows P t)
    (hpick : ReadsWithin source P pick) : s.Grows P (pick.scan source limits t).2 := by
  unfold Pick.scan
  cases hspan : pick.span with
  | none => exact h
  | some span =>
    dsimp only
    unfold Scanner.scan
    cases hread : Scanner.readTree source span with
    | error e => exact h
    | ok node => exact grows_scanNode ht h (hpick span hspan node hread)

theorem grows_addAll {P : String → Prop}
    (hg : Gathered source done g.schema g.store.rows.toList g.type) (hstore : g.store.Sound)
    (h : s.Grows P g.schema)
    (hpicks : ∀ pick ∈ picks, ReadsWithin source P pick)
    (hadd : g.addAll source limits picks = .ok g') : s.Grows P g'.schema := by
  induction picks generalizing g done with
  | nil =>
    cases hadd
    exact h
  | cons pick picks ih =>
    rw [List.forall_mem_cons] at hpicks
    obtain ⟨next, hstep, hrest⟩ := addAll_cons_eq_ok_iff.mp hadd
    obtain ⟨hnext, hsound, -⟩ := gathered_add hg hstore hstep
    refine ih hnext hsound ?_ hpicks.2 hrest
    obtain ⟨cell, t, store, hscan, -, rfl⟩ := add_eq_ok_iff.mp hstep
    have ht : s.Grows P (pick.scan source limits g.schema).2 :=
      grows_scan hg.wellFormed h hpicks.1
    rw [hscan] at ht
    exact ht.union g.type cell.type

/-- **Gathering interns the names in the values that the picks read**, and no others. -/
theorem grows_gather {P : String → Prop} {c : Contents}
    (hpicks : ∀ pick ∈ picks, ReadsWithin source P pick)
    (h : gather source limits picks = .ok c) : Schema.empty.Grows P c.schema := by
  obtain ⟨g, hadd, rfl⟩ := gather_eq_ok_iff.mp h
  exact grows_addAll (rows_start ▸ gathered_start) (RowStore.sound_withLimit _ _) .refl hpicks
    hadd

/-! ## When gathering succeeds -/

/-- The most rows that limits allow. -/
def rowLimit (limits : Config.Limits) : Nat :=
  (RowStore.withLimit rowWidth limits.maxRows : RowStore Cell).limit

/-- One more row is there if the pick is accepted and the store has not reached its limit. -/
theorem exists_add_eq_ok_iff (hstore : g.store.Sound) :
    (∃ g', g.add source limits pick = .ok g') ↔
      pick.Accepted source limits ∧ g.store.size < g.store.limit := by
  rw [← Pick.exists_scan_eq_ok_iff (s := g.schema)]
  constructor
  · rintro ⟨g', hadd⟩
    obtain ⟨cell, t, store, hscan, hpush, -⟩ := add_eq_ok_iff.mp hadd
    exact ⟨⟨cell, t, hscan⟩, (RowStore.lt_of_push hstore hpush).1⟩
  · rintro ⟨⟨cell, t, hscan⟩, hlt⟩
    obtain ⟨store, hpush, -⟩ := RowStore.push_of_lt hstore hlt cell
    exact ⟨_, add_eq_ok_iff.mpr ⟨cell, t, store, hscan, hpush, rfl⟩⟩

/-- What a row more does to the store. -/
theorem store_of_add (hstore : g.store.Sound) (h : g.add source limits pick = .ok g') :
    g'.store.Sound ∧ g'.store.size = g.store.size + 1 ∧ g'.store.limit = g.store.limit := by
  obtain ⟨cell, t, store, -, hpush, rfl⟩ := add_eq_ok_iff.mp h
  obtain ⟨-, hsound, hrows, hlimit⟩ := RowStore.lt_of_push hstore hpush
  exact ⟨hsound, by rw [RowStore.size, hrows, Array.size_push, RowStore.size], hlimit⟩

theorem exists_addAll_eq_ok_iff (hstore : g.store.Sound) :
    (∃ g', g.addAll source limits picks = .ok g') ↔
      (∀ pick ∈ picks, pick.Accepted source limits) ∧
        g.store.size + picks.length ≤ g.store.limit := by
  induction picks generalizing g with
  | nil =>
    have hle : g.store.size ≤ g.store.limit := Nat.le_trans hstore.size_le hstore.capacity_le
    simp [Gathering.addAll, hle]
  | cons pick picks ih =>
    rw [List.forall_mem_cons, List.length_cons]
    constructor
    · rintro ⟨g', hadd⟩
      obtain ⟨next, hstep, hrest⟩ := addAll_cons_eq_ok_iff.mp hadd
      obtain ⟨hpick, -⟩ := (exists_add_eq_ok_iff hstore).mp ⟨next, hstep⟩
      obtain ⟨hsound, hsize, hlimit⟩ := store_of_add hstore hstep
      obtain ⟨hpicks, hle⟩ := (ih hsound).mp ⟨g', hrest⟩
      exact ⟨⟨hpick, hpicks⟩, by omega⟩
    · rintro ⟨⟨hpick, hpicks⟩, hle⟩
      obtain ⟨next, hstep⟩ := (exists_add_eq_ok_iff hstore).mpr ⟨hpick, by omega⟩
      obtain ⟨hsound, hsize, hlimit⟩ := store_of_add hstore hstep
      obtain ⟨g', hadd⟩ := (ih hsound).mpr ⟨hpicks, by omega⟩
      exact ⟨g', addAll_cons_eq_ok_iff.mpr ⟨next, hstep, hadd⟩⟩

/-- **When gathering succeeds**: all picks are accepted, and there are no more of them than the
limits allow. -/
theorem exists_gather_eq_ok_iff : (∃ c, gather source limits picks = .ok c) ↔
    (∀ pick ∈ picks, pick.Accepted source limits) ∧ picks.length ≤ rowLimit limits := by
  have hstart : (Gathering.start limits).store.size = 0 := by
    have hrows : (Gathering.start limits).store.rows.toList = [] := rows_start
    simpa [RowStore.size] using congrArg List.length hrows
  have hadd : (∃ g', (Gathering.start limits).addAll source limits picks = .ok g') ↔
      (∀ pick ∈ picks, pick.Accepted source limits) ∧
        (Gathering.start limits).store.size + picks.length ≤ rowLimit limits :=
    exists_addAll_eq_ok_iff (RowStore.sound_withLimit _ _)
  rw [hstart, Nat.zero_add] at hadd
  refine Iff.trans ?_ hadd
  unfold gather
  cases (Gathering.start limits).addAll source limits picks <;> simp

/-! ## A load -/

theorem span_of_mem_picksFrom {spans : List Span} {row : Nat} {p : Option Span → Prop} :
    (∀ pick ∈ picksFrom row spans, p pick.span) ↔ ∀ span ∈ spans, p (some span) := by
  induction spans generalizing row with
  | nil => simp [picksFrom]
  | cons span spans ih => rw [picksFrom, List.forall_mem_cons, List.forall_mem_cons, ih]

/-- **The type of a load is principal**: in the schema of the load and in every later one, the
records conform to exactly the types that the type of the load joins to. -/
theorem load_conforms_iff_union {config : Config} {c : Contents} (h : load source config = .ok c)
    (ht : Schema.Later c.schema t) (htype : t.Knows type) :
    (∀ span ∈ source.records config.reading.skipBlankLines,
      ∃ node, Scanner.readTree source span = .ok node ∧ Conforms t node type) ↔
      (t.union c.type type).1 = type := by
  obtain ⟨hloaded, -⟩ := gathered_gather h
  obtain ⟨hwf, hext⟩ := ht.extends hloaded.wellFormed
  have hg := hloaded.of_extends hwf hext
  rw [Schema.union_eq_right_iff hwf hg.knows htype, isLUB_le_iff hg.least]
  have hspans := @span_of_mem_picksFrom (source.records config.reading.skipBlankLines) 1
    fun span? => ∀ span ∈ span?, ∃ node, Scanner.readTree source span = .ok node ∧
      Conforms t node type
  simp only [Option.mem_def, Option.some.injEq, forall_eq'] at hspans
  rw [← hspans]
  refine Iff.trans (conforms_iff_of_forall₂_picked hwf htype hg.images) ?_
  constructor
  · rintro hrows _ ⟨c, hc, rfl⟩
    exact hrows c hc
  · intro hu c hc
    exact hu ⟨c, hc, rfl⟩

/-- Two records, the second of which has a field more. -/
def twoRecords : ByteSource := .ofString "\x7b\"a\":1\x7d\n\x7b\"a\":0.5,\"b\":[null]\x7d\n"

theorem load_conforms_iff_union_twoRecords : ∃ c, load twoRecords {} = .ok c ∧
    c.schema.Knows ⟨8⟩ ∧ ((∀ span ∈ twoRecords.records true,
      ∃ node, Scanner.readTree twoRecords span = .ok node ∧ Conforms c.schema node ⟨8⟩) ↔
      (c.schema.union c.type ⟨8⟩).1 = ⟨8⟩) := by
  have hload : ∃ c, load twoRecords {} = .ok c ∧ c.schema.Knows ⟨8⟩ := by
    have hknows : (load twoRecords {}).toOption.any (decide <| ·.schema.Knows ⟨8⟩) = true := by
      decide +kernel
    cases h : load twoRecords {} with
    | error e => simp [h, Except.toOption] at hknows
    | ok c => exact ⟨c, rfl, by simpa [h, Except.toOption] using hknows⟩
  obtain ⟨c, h, hknows⟩ := hload
  exact ⟨c, h, hknows, load_conforms_iff_union h .refl hknows⟩

end Contents

end JsonLines
