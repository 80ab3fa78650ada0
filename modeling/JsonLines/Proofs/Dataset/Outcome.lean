/-
JsonLines.Proofs.Dataset.Outcome — what becomes of a load.

Two things can end a load: a record that is refused, and a record more than the limit allows. What
is wrong with a record does not depend on the records before it (`Pick.refusal?_scan`), so the first
refused record can be found by scanning each one alone. The record past the limit is scanned before
there turns out to be no room for it, so a refusal is reported up to one position past the limit,
and the limit only if nothing was refused up to there.

A run over picks is cut at the position that decides: what comes before it is passed
(`exists_passes`), and one step ends the run. A dataset remembers the rows that a load gave and
nothing of a load that failed, so asking for the rows again gives the same answer.
-/
import JsonLines.Dataset.Dataset
import JsonLines.Proofs.Dataset.Origin

namespace JsonLines

variable {source : ByteSource} {limits : Config.Limits} {config : Config} {pick : Pick}
  {picks before after : List Pick} {cause : ScanError}

/-! ## Refusals -/

/-- What is not refused gives something. -/
theorem refusal?_eq_none_iff {α : Type} {outcome : Except ScanError α} :
    refusal? outcome = none ↔ ∃ a, outcome = .ok a := by
  cases outcome <;> simp [refusal?]

/-- What a span is refused with does not depend on the schema. -/
theorem refusal?_scan_eq (scanner : Scanner) (source : ByteSource) (s t : Schema) (span : Span) :
    refusal? (scanner.scan source s span).1 = refusal? (scanner.scan source t span).1 := by
  unfold Scanner.scan
  cases Scanner.readTree source span with
  | error e => rfl
  | ok node =>
    show refusal? (scanner.scanNode source 0 s node).1 =
      refusal? (scanner.scanNode source 0 t node).1
    rw [(refuses_scanNode source scanner 0 s node).refusal_eq,
      (refuses_scanNode source scanner 0 t node).refusal_eq]

/-- What a pick is refused with, if it is. -/
def Pick.refusal? (source : ByteSource) (limits : Config.Limits) (pick : Pick) : Option ScanError :=
  JsonLines.refusal? (pick.scan source limits .empty).1

/-- A pick is refused with the same whatever was scanned before. -/
theorem Pick.refusal?_scan (pick : Pick) (s : Schema) :
    JsonLines.refusal? (pick.scan source limits s).1 = pick.refusal? source limits := by
  unfold Pick.refusal? Pick.scan
  cases pick.span with
  | none => rfl
  | some span => exact refusal?_scan_eq ⟨limits.maxDepth⟩ source s .empty span

namespace Contents

variable {g g' : Gathering}

/-! ## The step that ends a run -/

/-- A refused pick ends a run, whether or not there is room. -/
theorem add_of_refused (h : pick.refusal? source limits = some cause) :
    g.add source limits pick = .error (.malformedRecord pick.row cause) := by
  rw [← Pick.refusal?_scan pick g.schema] at h
  rw [add_eq_take]
  generalize pick.scan source limits g.schema = r at h
  obtain ⟨outcome, t⟩ := r
  cases outcome with
  | error e =>
    cases h
    rfl
  | ok cell => cases h

/-- An accepted pick ends a run that has reached the limit. -/
theorem add_of_full (hstore : g.store.Sound) (hfull : g.store.limit ≤ g.store.size)
    (h : pick.Accepted source limits) :
    g.add source limits pick = .error (.capacityExceeded (g.store.size + 1) g.store.limit) := by
  obtain ⟨cell, t, hscan⟩ := Pick.exists_scan_eq_ok_iff (s := g.schema).mpr h
  rw [add_eq_take, hscan, Gathering.take, RowStore.push_of_le hstore hfull]

/-! ## What a run passes -/

theorem addAll_append (h : g.addAll source limits before = .ok g') (picks : List Pick) :
    g.addAll source limits (before ++ picks) = g'.addAll source limits picks := by
  induction before generalizing g with
  | nil =>
    cases h
    rfl
  | cons pick before ih =>
    obtain ⟨next, hstep, hrest⟩ := addAll_cons_eq_ok_iff.mp h
    rw [List.cons_append, Gathering.addAll, hstep]
    exact ih hrest

/-- What some rows more do to the store. -/
theorem store_of_addAll (hstore : g.store.Sound) (h : g.addAll source limits picks = .ok g') :
    g'.store.Sound ∧ g'.store.size = g.store.size + picks.length ∧
      g'.store.limit = g.store.limit := by
  induction picks generalizing g with
  | nil =>
    cases h
    exact ⟨hstore, rfl, rfl⟩
  | cons pick picks ih =>
    obtain ⟨next, hstep, hrest⟩ := addAll_cons_eq_ok_iff.mp h
    obtain ⟨hsound, hsize, hlimit⟩ := store_of_add hstore hstep
    obtain ⟨hsound', hsize', hlimit'⟩ := ih hsound hrest
    refine ⟨hsound', ?_, hlimit'.trans hlimit⟩
    rw [hsize', hsize, List.length_cons]
    omega

/-- **Accepted picks within the limit are passed**: a run over more picks goes on from there. -/
theorem exists_passes (hbefore : ∀ pick ∈ before, pick.Accepted source limits)
    (hlength : before.length ≤ rowLimit limits) : ∃ g : Gathering, g.store.Sound ∧
      g.store.size = before.length ∧ g.store.limit = rowLimit limits ∧
        ∀ picks, (Gathering.start limits).addAll source limits (before ++ picks) =
          g.addAll source limits picks := by
  have hstart : (Gathering.start limits).store.Sound := RowStore.sound_withLimit _ _
  have hempty : (Gathering.start limits).store.size = 0 := by
    rw [RowStore.size, ← Array.length_toList, rows_start]
    rfl
  have hroom : (Gathering.start limits).store.size + before.length ≤ rowLimit limits := by
    rw [hempty, Nat.zero_add]
    exact hlength
  obtain ⟨g, hg⟩ := (exists_addAll_eq_ok_iff hstart).mpr ⟨hbefore, hroom⟩
  obtain ⟨hsound, hsize, hlimit⟩ := store_of_addAll hstart hg
  refine ⟨g, hsound, ?_, hlimit, addAll_append hg⟩
  rw [hsize, hempty, Nat.zero_add]

/-- The step that ends a run gives the outcome of gathering. -/
theorem gather_of_addAll_eq_error {e : Error}
    (h : (Gathering.start limits).addAll source limits picks = .error e) :
    gather source limits picks = .error e := by
  rw [gather, h]

/-- **The first refused pick**, if it is no further than one past the limit. -/
theorem gather_of_refused (hbefore : ∀ pick ∈ before, pick.Accepted source limits)
    (hlength : before.length ≤ rowLimit limits) (h : pick.refusal? source limits = some cause) :
    gather source limits (before ++ pick :: after) = .error (.malformedRecord pick.row cause) := by
  obtain ⟨g, -, -, -, hpasses⟩ := exists_passes hbefore hlength
  refine gather_of_addAll_eq_error ?_
  rw [hpasses, Gathering.addAll, add_of_refused h]

/-- **One pick more than the limit**, if nothing up to it is refused. -/
theorem gather_of_exceeded (hbefore : ∀ pick ∈ before, pick.Accepted source limits)
    (hlength : before.length = rowLimit limits) (h : pick.Accepted source limits) :
    gather source limits (before ++ pick :: after) =
      .error (.capacityExceeded (rowLimit limits + 1) (rowLimit limits)) := by
  obtain ⟨g, hsound, hsize, hlimit, hpasses⟩ := exists_passes hbefore (Nat.le_of_eq hlength)
  refine gather_of_addAll_eq_error ?_
  rw [hpasses, Gathering.addAll, add_of_full hsound (by omega) h, hsize, hlength, hlimit]

/-- Picks that are all accepted fail to be gathered for their number alone. -/
theorem gather_of_lt_length (h : ∀ pick ∈ picks, pick.Accepted source limits)
    (hlength : rowLimit limits < picks.length) :
    gather source limits picks =
      .error (.capacityExceeded (rowLimit limits + 1) (rowLimit limits)) := by
  have hsplit : picks = picks.take (rowLimit limits) ++
      picks[rowLimit limits] :: picks.drop (rowLimit limits + 1) := by
    rw [← List.drop_eq_getElem_cons hlength, List.take_append_drop]
  rw [hsplit]
  refine gather_of_exceeded ?_ ?_ (h _ (List.getElem_mem hlength))
  · intro pick hpick
    exact h pick (List.mem_of_mem_take hpick)
  · rw [List.length_take]
    omega

/-! ## What a run fails for -/

theorem push_error_cases {α : Type} {store : RowStore α} {row : α} {e : Error}
    (h : store.push row = .error e) : ∃ size limit, e = .capacityExceeded size limit := by
  unfold RowStore.push at h
  split at h
  · rename_i herror
    cases h
    unfold RowStore.makeRoom RowStore.grow at herror
    split at herror
    · split at herror
      · cases herror
        exact ⟨_, _, rfl⟩
      · cases herror
    · cases herror
  · cases h

theorem add_error_cases {e : Error} (h : g.add source limits pick = .error e) :
    (∃ row cause, e = .malformedRecord row cause) ∨
      ∃ size limit, e = .capacityExceeded size limit := by
  rw [add_eq_take] at h
  generalize pick.scan source limits g.schema = scanned at h
  obtain ⟨outcome, s⟩ := scanned
  cases outcome with
  | error cause =>
    cases h
    exact .inl ⟨_, _, rfl⟩
  | ok cell =>
    rw [Gathering.take] at h
    cases hpush : g.store.push cell with
    | error e' =>
      simp only [hpush] at h
      cases h
      exact .inr (push_error_cases hpush)
    | ok store => simp [hpush] at h

/-- **A run fails for a text or for the number of rows**, and for nothing else. -/
theorem addAll_error_cases {e : Error} (h : g.addAll source limits picks = .error e) :
    (∃ row cause, e = .malformedRecord row cause) ∨
      ∃ size limit, e = .capacityExceeded size limit := by
  induction picks generalizing g with
  | nil => cases h
  | cons pick picks ih =>
    rw [Gathering.addAll] at h
    cases hadd : g.add source limits pick with
    | error e' =>
      rw [hadd] at h
      cases h
      exact add_error_cases hadd
    | ok next =>
      rw [hadd] at h
      exact ih h

end Contents

/-! ## Records, each by itself -/

/-- The records that a load reads. -/
def Config.records (config : Config) (source : ByteSource) : List Span :=
  source.records config.reading.skipBlankLines

/-- The scan of a record by itself, with nothing scanned before it. -/
def scanAlone (source : ByteSource) (config : Config) (record : Span) : Except ScanError Cell :=
  (Scanner.scan ⟨config.limits.maxDepth⟩ source .empty record).1

/-- The record at a position, which counts from one, is the first that is refused by itself. -/
def FirstRefused (source : ByteSource) (config : Config) (position : Nat) (cause : ScanError) :
    Prop :=
  ∃ before record after, config.records source = before ++ record :: after ∧
    position = before.length + 1 ∧ (∀ r ∈ before, ∃ cell, scanAlone source config r = .ok cell) ∧
      scanAlone source config record = .error cause

/-- A record scans by itself when its pick is accepted. -/
theorem exists_scanAlone_iff {record : Span} {row : Nat} :
    (∃ cell, scanAlone source config record = .ok cell) ↔
      Pick.Accepted source config.limits ⟨some record, row⟩ := by
  rw [← Pick.exists_scan_eq_ok_iff (s := .empty)]
  unfold scanAlone Pick.scan
  constructor
  · rintro ⟨cell, h⟩
    exact ⟨cell, _, Prod.ext h rfl⟩
  · rintro ⟨cell, t, h⟩
    exact ⟨cell, congrArg Prod.fst h⟩

/-- Before the first refused record all records are accepted. -/
theorem exists_scanAlone_of_mem_take {n : Nat}
    (h : ∀ position cause, FirstRefused source config position cause → n < position) :
    ∀ r ∈ (config.records source).take n, ∃ cell, scanAlone source config r = .ok cell := by
  intro r hr
  cases hfirst : ((config.records source).take n).find?
      fun r => (refusal? (scanAlone source config r)).isSome with
  | none =>
    have hr' := List.find?_eq_none.mp hfirst r hr
    simp only [Bool.not_eq_true, Option.isSome_eq_false_iff, Option.isNone_iff_eq_none] at hr'
    exact refusal?_eq_none_iff.mp hr'
  | some record =>
    obtain ⟨hrefused, before, after, htake, hbefore⟩ := List.find?_eq_some_iff_append.mp hfirst
    have hrecords : config.records source =
        before ++ record :: (after ++ (config.records source).drop n) := by
      have := List.take_append_drop n (config.records source)
      rw [htake] at this
      simpa using this.symm
    have hposition : before.length + 1 ≤ n := by
      have := congrArg List.length htake
      rw [List.length_take, List.length_append, List.length_cons] at this
      omega
    cases hscan : scanAlone source config record with
    | ok cell => simp [hscan, refusal?] at hrefused
    | error cause =>
      refine absurd (h _ cause ⟨before, record, _, hrecords, rfl, ?_, hscan⟩) (by omega)
      intro b hb
      have hb' := hbefore b hb
      simp only [Bool.not_eq_true', Option.isSome_eq_false_iff, Option.isNone_iff_eq_none] at hb'
      exact refusal?_eq_none_iff.mp hb'

namespace Contents

theorem picksFrom_append (row : Nat) (first last : List Span) :
    picksFrom row (first ++ last) = picksFrom row first ++ picksFrom (row + first.length) last := by
  induction first generalizing row with
  | nil => rfl
  | cons span first ih =>
    rw [List.cons_append, picksFrom, picksFrom, List.cons_append, ih, List.length_cons,
      Nat.add_assoc, Nat.add_comm 1]

theorem length_picksFrom (row : Nat) (spans : List Span) :
    (picksFrom row spans).length = spans.length := by
  induction spans generalizing row with
  | nil => rfl
  | cons span spans ih => rw [picksFrom, List.length_cons, List.length_cons, ih]

theorem accepted_picksFrom {spans : List Span} {row : Nat}
    (h : ∀ r ∈ spans, ∃ cell, scanAlone source config r = .ok cell) :
    ∀ pick ∈ picksFrom row spans, pick.Accepted source config.limits := by
  induction spans generalizing row with
  | nil => simp [picksFrom]
  | cons span spans ih =>
    rw [List.forall_mem_cons] at h
    rw [picksFrom, List.forall_mem_cons]
    exact ⟨exists_scanAlone_iff.mp h.1, ih h.2⟩

/-- What holds of picks and rows, one by one, said of the spans. -/
theorem forall₂_of_picksFrom {R : Pick → Cell → Prop} {spans : List Span} {rows : List Cell}
    {row : Nat} (h : List.Forall₂ R (picksFrom row spans) rows) :
    List.Forall₂ (fun span cell => ∃ k, R ⟨some span, k⟩ cell) spans rows := by
  induction spans generalizing row rows with
  | nil =>
    cases h
    exact .nil
  | cons span spans ih =>
    rw [picksFrom] at h
    cases h with
    | cons hhead htail => exact .cons ⟨row, hhead⟩ (ih htail)

end Contents

/-! ## The outcome of a load -/

namespace View

/-- The row is the image of the value that is read from a record, and lies inside the record. -/
def Represents (v : View) (record : Span) (row : Cell) : Prop :=
  ∃ node, Scanner.readTree v.source record = .ok node ∧ Scanned v.schema node row ∧
    record.offset ≤ row.span.offset ∧
      row.span.offset + row.span.len ≤ record.offset + record.len

/-- What the records of a source, each by itself, and the limits decide about a load. -/
structure LoadsAs (source : ByteSource) (config : Config) (outcome : Except Error View) :
    Prop where
  /-- The first refused record is reported, unless it is further than one past the limit. -/
  refused : ∀ position cause, FirstRefused source config position cause →
    position ≤ Contents.rowLimit config.limits + 1 →
      outcome = .error (.malformedRecord position cause)
  /-- Otherwise it is reported if there are more records than the limit allows. -/
  exceeded : (∀ position cause, FirstRefused source config position cause →
    Contents.rowLimit config.limits + 1 < position) →
      Contents.rowLimit config.limits < (config.records source).length →
        outcome = .error (.capacityExceeded (Contents.rowLimit config.limits + 1)
          (Contents.rowLimit config.limits))
  /-- Otherwise there is one row for each record, in their order. -/
  loaded : (∀ position cause, FirstRefused source config position cause →
    Contents.rowLimit config.limits + 1 < position) →
      (config.records source).length ≤ Contents.rowLimit config.limits →
        ∃ v, outcome = .ok v ∧ v.source = source ∧ v.config = config ∧ v.provenance = .root ∧
          List.Forall₂ v.Represents (config.records source) v.rows.toList

theorem load_of_gather_eq_error {e : Error} (h : Contents.gather source config.limits
    (Contents.picksFrom 1 (config.records source)) = .error e) : load source config = .error e := by
  have hload : Contents.load source config = .error e := h
  rw [load, hload]

/-- What is read from a record is represented by the row. -/
theorem represents_of_picked {v : View} {record : Span} {row : Cell} {k : Nat}
    (h : Picked v.source v.schema ⟨some record, k⟩ row) : v.Represents record row := by
  obtain ⟨node, hread, hscanned⟩ := h
  obtain ⟨-, -, hfirst, hlast⟩ := readTree_part hread .self
  rw [← hscanned.span_eq] at hfirst hlast
  exact ⟨node, hread, hscanned, hfirst, hlast⟩

/-- **The outcome of a load.** -/
theorem loadsAs_load (source : ByteSource) (config : Config) :
    LoadsAs source config (load source config) where
  refused position cause hrefused hposition := by
    obtain ⟨before, record, after, hrecords, rfl, hbefore, hscan⟩ := hrefused
    refine load_of_gather_eq_error ?_
    rw [hrecords, Contents.picksFrom_append, Contents.picksFrom, Nat.add_comm 1]
    refine Contents.gather_of_refused (Contents.accepted_picksFrom hbefore) ?_ ?_
    · rw [Contents.length_picksFrom]
      omega
    · show refusal? (scanAlone source config record) = some cause
      rw [hscan]
      rfl
  exceeded hfirst hlength := by
    have haccepted := exists_scanAlone_of_mem_take hfirst
    rw [List.take_succ_eq_append_getElem hlength] at haccepted
    refine load_of_gather_eq_error ?_
    rw [← List.take_append_drop (Contents.rowLimit config.limits) (config.records source),
      List.drop_eq_getElem_cons hlength, Contents.picksFrom_append, Contents.picksFrom]
    refine Contents.gather_of_exceeded (Contents.accepted_picksFrom ?_) ?_
      (exists_scanAlone_iff.mp (haccepted _ (List.mem_append_right _ List.mem_cons_self)))
    · intro r hr
      exact haccepted r (List.mem_append_left _ hr)
    · rw [Contents.length_picksFrom, List.length_take]
      omega
  loaded hfirst hlength := by
    have haccepted := exists_scanAlone_of_mem_take hfirst
    rw [List.take_of_length_le (by omega)] at haccepted
    have hroom : (Contents.picksFrom 1 (config.records source)).length ≤
        Contents.rowLimit config.limits := by
      rwa [Contents.length_picksFrom]
    obtain ⟨contents, hgather⟩ := Contents.exists_gather_eq_ok_iff.mpr
      ⟨Contents.accepted_picksFrom haccepted, hroom⟩
    obtain ⟨hg, -⟩ := Contents.gathered_gather hgather
    have hload : load source config = .ok ⟨source, config, .root, contents⟩ :=
      load_eq_ok_iff.mpr ⟨contents, hgather, rfl⟩
    refine ⟨_, hload, rfl, rfl, rfl, ?_⟩
    refine (Contents.forall₂_of_picksFrom hg.images).imp ?_
    rintro record row ⟨k, hpicked⟩
    exact represents_of_picked hpicked

end View

/-! ## Asking again -/

namespace Dataset

variable {d : Dataset} {v : View} {e : Error}

/-- The dataset after its rows were asked for some number of times. -/
def asked (d : Dataset) : Nat → Dataset
  | 0 => d
  | n + 1 => (d.asked n).realize.2

theorem realize_of_error (h : d.view = .error e) : d.realize = (.error e, d) := by
  rw [realize, h]

theorem realize_of_ok (h : d.view = .ok v) : d.realize = (.ok (), .realized v) := by
  rw [realize, h]

/-- Asking for the rows does not change them. -/
theorem view_realize (d : Dataset) : d.realize.2.view = d.view := by
  cases h : d.view with
  | error e => rw [realize_of_error h, h]
  | ok v =>
    rw [realize_of_ok h]
    rfl

theorem view_asked (d : Dataset) (n : Nat) : (d.asked n).view = d.view := by
  induction n with
  | zero => rfl
  | succ n ih => rw [asked, view_realize, ih]

/-- Rows that cannot be read leave the dataset as it is. -/
theorem asked_of_error (h : d.view = .error e) (n : Nat) : d.asked n = d := by
  induction n with
  | zero => rfl
  | succ n ih => rw [asked, ih, realize_of_error h]

/-- What becomes of a dataset over a source, however often its rows are asked for. -/
structure Settles (source : ByteSource) (config : Config) : Prop where
  outcome : View.LoadsAs source config (View.load source config)
  /-- After a failure it is not realized, and every later request fails in the same way. -/
  failed : ∀ e, View.load source config = .error e → ∀ n,
    ((pending source config).asked n).isRealized = false ∧
      ((pending source config).asked n).realize = (.error e, pending source config)
  /-- After a success it keeps the rows that were read. -/
  kept : ∀ v, View.load source config = .ok v → ∀ n,
    ((pending source config).asked n).realize = (.ok (), .realized v) ∧
      (pending source config).asked (n + 1) = .realized v

/-- **The outcome of a load, once and for all**: of every source and configuration, validated or
not. -/
theorem settles (source : ByteSource) (config : Config) : Settles source config where
  outcome := View.loadsAs_load source config
  failed e h n := by
    have hview : (pending source config).view = .error e := h
    rw [asked_of_error hview]
    exact ⟨rfl, realize_of_error hview⟩
  kept v h n := by
    have hview : ((pending source config).asked n).view = .ok v := by
      rw [view_asked]
      exact h
    refine ⟨realize_of_ok hview, ?_⟩
    rw [asked, realize_of_ok hview]

end Dataset

end JsonLines
