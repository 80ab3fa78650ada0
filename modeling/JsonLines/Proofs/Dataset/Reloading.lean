/-
JsonLines.Proofs.Dataset.Reloading — a view is what its own text loads as.

The text of a view has one line for each row, with `null` for a row that is not there. Loading it
gathers the same rows again: both gatherings start empty, take the same rows in the same order and
do the same to their schemas, since each row is a copy of a value that was scanned before
(`Mirrors.add`). What could go wrong is that a line is no record, and this is where the origin of
rows comes in: all of them are values inside records, so that no line holds a line feed or ends in
a carriage return, and none is blank.
-/
import JsonLines.Coercion.Convert
import JsonLines.Proofs.Dataset.Origin
import JsonLines.Proofs.Scan.Copying
import JsonLines.Proofs.Source.Lines

namespace JsonLines

open Utf8 Json

/-- A row and the row that was loaded in its place. -/
structure Restored (source source' : ByteSource) (c d : Cell) : Prop where
  present : d.isAbsent = false
  alike : c.isAbsent = false → Alike source source' c d
  null : c.isAbsent = true → ∃ span, d = .leaf span .null ∧ source'.slice span = "null".toUTF8

/-- The text of what a pick reads, `null` if it reads nothing. -/
def Tells (source : ByteSource) (pick : Pick) (cs : List Char) : Prop :=
  match pick.span with
  | none => cs = word none
  | some span => ∃ node, Scanner.readTree source span = .ok node ∧
    Writes node.span.offset cs node ∧ source.Shows node.span.offset cs

/-- The second pick reads what the first one does, from another source. -/
def Retells (source source' : ByteSource) (pick pick' : Pick) : Prop :=
  ∃ cs q, Tells source pick cs ∧ source'.Shows q cs ∧ pick'.span = some ⟨q, width cs⟩

variable {source source' : ByteSource} {limits : Config.Limits} {s t : Schema} {pick pick' : Pick}
  {cell c d : Cell} {picks picks' done : List Pick} {cs : List Char} {node : Node} {p : Nat}

theorem isAbsent_of_writes (hs : s.WellFormed) {scanner : Scanner} (hwrites : Writes p cs node)
    (h : scanner.scanNode source 0 s node = (.ok cell, t)) : cell.isAbsent = false := by
  have hscan : Scans s node (scanner.scanNode source 0 s node) := scans_scanNode hs
  rw [h] at hscan
  obtain ⟨ch, tail, rfl, -⟩ := hwrites.head
  have := ch.utf8Size_pos
  rw [Cell.isAbsent, (hscan.scanned cell rfl).span_eq, hwrites.span_eq, Span.isEmpty, width_cons]
  simp only [beq_eq_false_iff_ne, ne_eq]
  omega

/-! ## One row -/

/-- **What is told again scans alike**, from the same schema to the same schema. -/
theorem scan_retells (hs : s.WellFormed) (h : Retells source source' pick pick')
    (hscan : pick.scan source limits s = (.ok c, t)) :
    ∃ d, pick'.scan source' limits s = (.ok d, t) ∧ Restored source source' c d ∧
      d.type = c.type := by
  obtain ⟨cs, q, htells, hshows, hspan'⟩ := h
  unfold Tells at htells
  unfold Pick.scan at hscan ⊢
  simp only [hspan', Scanner.scan]
  cases hspan : pick.span with
  | none =>
    simp only [hspan] at htells hscan
    subst htells
    cases hscan
    have hwrites : Writes q (word none) (.null ⟨q, width (word none)⟩) := ⟨rfl, rfl⟩
    have hread := readTree_of_writes hshows hwrites
    have habsent : Cell.absent.isAbsent ≠ false := by decide
    refine ⟨.leaf ⟨q, width (word none)⟩ .null, ?_,
      ⟨rfl, fun h => absurd h habsent, fun _ => ⟨_, rfl, ?_⟩⟩, rfl⟩
    · simp only [Node.span] at hread
      simp only [hread, Scanner.scanNode]
    · rw [hshows.slice_eq]
      rfl
  | some span =>
    simp only [hspan] at htells hscan
    obtain ⟨node, hread, hwrites, hshows'⟩ := htells
    simp only [Scanner.scan, hread] at hscan
    obtain ⟨n, hn, hcopied⟩ := hwrites.exists_copied hshows' hshows
    have hread' := readTree_of_writes hshows hn
    rw [hn.span_eq] at hread'
    obtain ⟨d, hscan', halike⟩ := scanNode_copied hcopied hscan
    have hc := isAbsent_of_writes hs hwrites hscan
    refine ⟨d, ?_, ⟨isAbsent_of_writes hs hn hscan', fun _ => halike, fun h => ?_⟩, halike.type_eq⟩
    · simp only [hread', hscan']
    · cases hc.symm.trans h

/-! ## All rows -/

namespace Contents

variable {g g' next : Gathering}

/-- The second gathering has done from another source what the first one did. -/
structure Mirrors (source source' : ByteSource) (g g' : Gathering) : Prop where
  schema_eq : g'.schema = g.schema
  type_eq : g'.type = g.type
  sound : g'.store.Sound
  limit_eq : g'.store.limit = g.store.limit
  rows : List.Forall₂ (Restored source source') g.store.rows.toList g'.store.rows.toList

theorem Mirrors.size_eq (h : Mirrors source source' g g') : g'.store.size = g.store.size := by
  have hlength := h.rows.length_eq
  rw [Array.length_toList, Array.length_toList] at hlength
  exact hlength.symm

theorem mirrors_start :
    Mirrors source source' (Gathering.start limits) (Gathering.start limits) where
  schema_eq := rfl
  type_eq := rfl
  sound := RowStore.sound_withLimit _ _
  limit_eq := rfl
  rows := by
    unfold Gathering.start
    cases limits.maxRows <;> exact .nil

/-- One pick and the pick that tells it again. -/
theorem Mirrors.add (h : Mirrors source source' g g')
    (hg : Gathered source done g.schema g.store.rows.toList g.type) (hsound : g.store.Sound)
    (hpick : Retells source source' pick pick') (hadd : g.add source limits pick = .ok next) :
    ∃ next', g'.add source' limits pick' = .ok next' ∧ Mirrors source source' next next' := by
  obtain ⟨c, t, store, hscan, hpush, rfl⟩ := add_eq_ok_iff.mp hadd
  obtain ⟨d, hscan', hrestored, htype⟩ := scan_retells hg.wellFormed hpick hscan
  obtain ⟨hlt, -, hrows, hlimit⟩ := RowStore.lt_of_push hsound hpush
  -- The stores have as many rows as each other, so there is room in both or in neither.
  rw [← h.size_eq, ← h.limit_eq] at hlt
  obtain ⟨store', hpush', hsound', hrows', hlimit'⟩ := RowStore.push_of_lt h.sound hlt d
  refine ⟨⟨(t.union g.type c.type).2, store', (t.union g.type c.type).1⟩, ?_, ?_⟩
  · refine add_eq_ok_iff.mpr ⟨d, t, store', h.schema_eq ▸ hscan', hpush', ?_⟩
    rw [h.type_eq, htype]
  · refine ⟨rfl, rfl, hsound', ?_, ?_⟩
    · rw [hlimit', hlimit, h.limit_eq]
    · simp only [hrows, hrows', Array.toList_push]
      exact List.rel_append h.rows (.cons hrestored .nil)

/-- Any number of picks. -/
theorem Mirrors.addAll (h : Mirrors source source' g g')
    (hg : Gathered source done g.schema g.store.rows.toList g.type) (hsound : g.store.Sound)
    (hpicks : List.Forall₂ (Retells source source') picks picks')
    (hadd : g.addAll source limits picks = .ok next) :
    ∃ next', g'.addAll source' limits picks' = .ok next' ∧ Mirrors source source' next next' := by
  induction hpicks generalizing g g' done with
  | nil =>
    cases hadd
    exact ⟨g', rfl, h⟩
  | @cons pick pick' picks picks' hpick _ ih =>
    obtain ⟨g₁, hstep, hrest⟩ := addAll_cons_eq_ok_iff.mp hadd
    obtain ⟨g₁', hstep', h₁⟩ := h.add hg hsound hpick hstep
    obtain ⟨hg₁, hsound₁, -⟩ := gathered_add hg hsound hstep
    obtain ⟨next', hrest', hnext⟩ := ih h₁ hg₁ hsound₁ hrest
    exact ⟨next', addAll_cons_eq_ok_iff.mpr ⟨g₁', hstep', hrest'⟩, hnext⟩

/-- **What is told again is gathered again.** -/
theorem gather_retells {contents : Contents}
    (hpicks : List.Forall₂ (Retells source source') picks picks')
    (h : gather source limits picks = .ok contents) :
    ∃ contents', gather source' limits picks' = .ok contents' ∧
      contents'.schema = contents.schema ∧ contents'.type = contents.type ∧
        List.Forall₂ (Restored source source') contents.rows.toList contents'.rows.toList := by
  obtain ⟨g, hadd, rfl⟩ := gather_eq_ok_iff.mp h
  obtain ⟨g', hadd', hmirrors⟩ := mirrors_start.addAll (rows_start ▸ gathered_start)
    (RowStore.sound_withLimit _ _) hpicks hadd
  exact ⟨_, gather_eq_ok_iff.mpr ⟨g', hadd', rfl⟩, hmirrors.schema_eq, hmirrors.type_eq,
    hmirrors.rows⟩

end Contents

namespace View

variable {root v w : View} {m : Node} {row : Cell}

/-! ## The text of a view -/

/-- The text of every row, `null` for an absent one, with a line feed between each and the next. -/
def joinedText (v : View) : String :=
  "\n".intercalate (v.toJsonText.map fun text => text.getD "null")

/-- The line of a row. -/
def lineOf (v : View) (row : Cell) : List Char :=
  (if row.isAbsent then none else v.textOf? row).getD (word none)

theorem toList_joinedText (v : View) :
    v.joinedText.toList = joined (v.rows.toList.map v.lineOf) := by
  have hlines : (v.toJsonText.map fun text => text.getD "null").map String.toList =
      v.rows.toList.map v.lineOf := by
    rw [toJsonText, List.map_map, List.map_map]
    refine List.map_congr_left fun row _ => ?_
    simp only [Function.comp_apply, lineOf]
    split
    · rfl
    · cases v.textOf? row with
      | none => rfl
      | some text => simp
  rw [joinedText, String.toList_intercalate, hlines]
  rfl

/-- The text of the image of a value is the one that writes the value. -/
theorem textOf?_of_writes (hshows : v.source.Shows p cs) (hwrites : Writes p cs m)
    (hscanned : Scanned s m row) : row.isAbsent = false ∧ v.textOf? row = some cs := by
  have hspan : row.span = ⟨p, width cs⟩ := hscanned.span_eq.trans hwrites.span_eq
  constructor
  · obtain ⟨ch, tail, rfl, -⟩ := hwrites.head
    have := ch.utf8Size_pos
    rw [Cell.isAbsent, hspan, Span.isEmpty, width_cons]
    simp only [beq_eq_false_iff_ne, ne_eq]
    omega
  · rw [textOf?, bytesOf, hspan, hshows.slice_eq]
    simp only [decode_utf8Encode]

/-- The line of the image of a value is its text. -/
theorem lineOf_of_writes (hshows : v.source.Shows p cs) (hwrites : Writes p cs m)
    (hscanned : Scanned s m row) : v.lineOf row = cs := by
  obtain ⟨hpresent, htext⟩ := textOf?_of_writes hshows hwrites hscanned
  rw [lineOf, hpresent, htext]
  rfl

/-- A pick is told by the line of the row that it gives. -/
theorem tells_lineOf (h : Picked v.source s pick row) : Tells v.source pick (v.lineOf row) := by
  unfold Picked at h
  unfold Tells
  cases hspan : pick.span with
  | none =>
    simp only [hspan] at h ⊢
    rw [h]
    rfl
  | some span =>
    simp only [hspan] at h ⊢
    obtain ⟨node, hread, hscanned⟩ := h
    obtain ⟨own, hshows, hwrites⟩ := exists_own_of_readTree hread
    rw [lineOf_of_writes hshows hwrites hscanned]
    exact ⟨node, hread, hwrites, hshows⟩

/-- No character that starts a value is of those that blank lines are made of. -/
theorem toNat_of_isFirst {ch : Char} (h : IsFirst ch) : ch.toNat ∉ [32, 9, 10, 12, 13] := by
  rcases h with hmem | hdigit
  · simp only [List.mem_cons, List.not_mem_nil, or_false] at hmem
    rcases hmem with rfl | rfl | rfl | rfl | rfl | rfl | rfl <;> decide
  · have hle : 48 ≤ ch.toNat := by
      simp only [Char.isDigit, Bool.and_eq_true, decide_eq_true_eq] at hdigit
      exact UInt32.le_iff_toNat_le.mp hdigit.1
    simp only [List.mem_cons, List.not_mem_nil, or_false]
    omega

/-- A text that writes a value is a line if it holds no line feed. -/
theorem line_of_writes (h : Writes p cs m) (hfeed : '\n' ∉ cs) : Line cs where
  no_feed := hfeed
  no_return hreturn := by
    have hlast := h.last hreturn
    revert hlast
    decide
  not_blank := by
    obtain ⟨ch, tail, rfl, hch⟩ := h.head
    exact ⟨ch, List.mem_cons_self, toNat_of_isFirst hch⟩

/-- **A row inside a record is a line.** -/
theorem line_lineOf {records : Option Span} (hrecords : ∀ span ∈ records, span ∈ v.records)
    (h : v.Inside records row) : Line (v.lineOf row) := by
  rcases h with rfl | ⟨span, node, m, hspan, hread, hm, hscanned⟩
  · have hnull : v.lineOf .absent = word none := rfl
    have hwrites : Writes 0 (word none) (.null ⟨0, 4⟩) := ⟨rfl, rfl⟩
    rw [hnull]
    exact line_of_writes hwrites (by decide)
  · obtain ⟨before, own, after, hshows, -, hwrites, -, -, hslice⟩ := shows_of_readTree hread
    obtain ⟨first, text, last, rfl, htext⟩ := hwrites.holds hm
    have hfeed : '\n' ∉ before ++ (first ++ (text ++ last) ++ after) :=
      newline_not_mem (hrecords span hspan) hslice
    rw [lineOf_of_writes hshows.within.within htext hscanned]
    refine line_of_writes htext fun hmem => hfeed ?_
    simp only [List.mem_append, hmem, true_or, or_true]

/-! ## Gathering a view again -/

/-- Picks that lines tell are told again by the spans of these lines. -/
theorem retells_placed {picks : List Pick} {texts : List (List Char)} {row : Nat}
    (h : List.Forall₂ (Tells source) picks texts) (hshows : source'.Shows p (joined texts)) :
    List.Forall₂ (Retells source source') picks (Contents.picksFrom row (placed p texts)) := by
  induction h generalizing p row with
  | nil => exact .nil
  | @cons pick cs picks texts hpick htail ih =>
    rw [placed, Contents.picksFrom]
    cases texts with
    | nil =>
      cases htail
      rw [joined_singleton] at hshows
      exact .cons ⟨cs, p, hpick, hshows, rfl⟩ .nil
    | cons next texts =>
      rw [joined_cons (List.cons_ne_nil next texts)] at hshows
      exact .cons ⟨cs, p, hpick, hshows.left, rfl⟩ (ih hshows.right.tail)

/-! ## Reloading -/

/-- The two views say the same of rows that are there twice. -/
structure Reloaded (v w : View) : Prop where
  rowCount_eq : w.rowCount = v.rowCount
  schema_eq : w.schema = v.schema
  type_eq : w.type = v.type
  kind_eq : w.kind = v.kind
  rows : List.Forall₂ (Restored v.source w.source) v.rows.toList w.rows.toList
  booleans : w.toBoolean.values = v.toBoolean.values
  integers : w.toInteger.values = v.toInteger.values
  reals : w.toReal.values = v.toReal.values
  texts : w.toText.values = v.toText.values

section

variable {α : Type} {convert : Kind → List Char → Outcome α}

theorem values_coerce : (v.coerce convert).values =
    v.rows.toList.map fun row => (v.outcome convert row).toOption := by
  rw [coerce, Coerced.ofOutcomes, numberedRows, List.map_map, List.map_map, List.map_map]
  have hrows := List.zipIdx_map_fst 0 v.rows.toList
  conv_rhs => rw [← hrows, List.map_map]
  rfl

/-- A row converts like the row in whose place it was loaded, as long as a null is missing. -/
theorem outcome_restored (hschema : w.schema = v.schema)
    (hnull : ∀ text, convert .null text = .missing)
    (h : Restored v.source w.source c d) : w.outcome convert d = v.outcome convert c := by
  unfold outcome
  rw [h.present]
  cases hc : c.isAbsent with
  | true =>
    obtain ⟨span, rfl, hslice⟩ := h.null hc
    have hdecode : decode "null".toUTF8 = .ok (word none) := decode_eq_ok_iff.mpr rfl
    have htext : w.textOf? (.leaf span .null) = some (word none) := by
      unfold textOf? bytesOf Cell.span
      simp only [hslice, hdecode]
    have hkind : w.schema.kind (Cell.leaf span TypeId.null).type = .null := rfl
    simp only [htext, hkind, hnull]
    rfl
  | false =>
    have halike := h.alike hc
    have htext : w.textOf? d = v.textOf? c := by
      rw [textOf?, textOf?, bytesOf, bytesOf, halike.slice_eq]
    rw [htext, halike.type_eq, hschema]

theorem values_restored (hschema : w.schema = v.schema)
    (hnull : ∀ text, convert .null text = .missing)
    (h : List.Forall₂ (Restored v.source w.source) v.rows.toList w.rows.toList) :
    (w.coerce convert).values = (v.coerce convert).values := by
  rw [values_coerce, values_coerce]
  generalize v.rows.toList = rows, w.rows.toList = rows' at h
  induction h with
  | nil => rfl
  | cons hhead _ ih => rw [List.map_cons, List.map_cons, ih, outcome_restored hschema hnull hhead]

end

/-- **Every view is what its own text loads as**, whatever is done with blank lines. A word counts
the bytes of the text, as it does for any text in memory. -/
theorem reloads {source : ByteSource} {config : Config} (hroot : load source config = .ok root)
    (h : root.Chain v) (hsize : v.joinedText.utf8ByteSize < Word.modulus)
    (reading : Config.Reading) :
    ∃ w, load (.ofString v.joinedText) { v.config with reading } = .ok w ∧ Reloaded v w := by
  obtain ⟨picks, hgather⟩ := exists_gather hroot h
  have ht := traced_chain hroot h
  obtain ⟨hg, -⟩ := Contents.gathered_gather hgather
  have htext : v.joinedText = String.ofList (joined (v.rows.toList.map v.lineOf)) := by
    rw [← toList_joinedText, String.ofList_toList]
  have htells : List.Forall₂ (Tells v.source) picks (v.rows.toList.map v.lineOf) :=
    List.forall₂_map_right_iff.mpr (hg.images.imp fun _ _ => tells_lineOf)
  have hlines : ∀ cs ∈ v.rows.toList.map v.lineOf, Line cs := by
    intro cs hcs
    obtain ⟨row, hrow, rfl⟩ := List.mem_map.mp hcs
    obtain ⟨i, hi⟩ := List.getElem?_of_mem hrow
    rw [Array.getElem?_toList] at hi
    refine line_lineOf (fun span hspan => ?_) (ht.inside i row hi)
    rw [records, ht.source_eq, ht.config_eq]
    exact List.mem_of_getElem? hspan
  have hshows : (ByteSource.ofString v.joinedText).Shows 0
      (joined (v.rows.toList.map v.lineOf)) := by
    refine ⟨.empty, .empty, ?_, rfl, ?_⟩
    · rw [htext]
      simp [ByteSource.ofString]
    · rw [Nat.zero_add, ← size_utf8Encode]
      rw [htext] at hsize
      exact hsize
  have hretells : List.Forall₂ (Retells v.source (.ofString v.joinedText)) picks
      (Contents.picksFrom 1 (placed 0 (v.rows.toList.map v.lineOf))) :=
    retells_placed htells hshows
  obtain ⟨contents, hgather', hschema, htype, hrows⟩ := Contents.gather_retells hretells hgather
  have hload : load (.ofString v.joinedText) { v.config with reading } =
      .ok ⟨.ofString v.joinedText, { v.config with reading }, .root, contents⟩ := by
    refine load_eq_ok_iff.mpr ⟨contents, ?_, rfl⟩
    rw [Contents.load, htext, records_joined hlines, ← htext]
    exact hgather'
  have hcount : contents.rows.size = v.rows.size := by
    rw [← Array.length_toList, ← Array.length_toList]
    exact hrows.length_eq.symm
  have hkind : contents.schema.kind contents.type = v.schema.kind v.type := by
    rw [hschema, htype]
    rfl
  exact ⟨_, hload, hcount, hschema, htype, hkind, hrows,
    values_restored hschema (fun _ => rfl) hrows, values_restored hschema (fun _ => rfl) hrows,
    values_restored hschema (fun _ => rfl) hrows, values_restored hschema (fun _ => rfl) hrows⟩

/-- Three records, one of them without an array, on lines that are not all records. -/
def someArrays : ByteSource :=
  .ofString "\x7b\"a\": [1, \"x\"]\x7d\x0d\n\n \x7b\"b\": 2\x7d \n\x7b\"a\": []\x7d"

/-- The arrays, one of which is not there. -/
theorem reloads_someArrays : ∃ root v, load someArrays {} = .ok root ∧ root.Chain v ∧
    v.joinedText = "[1, \"x\"]\nnull\n[]" ∧ v.joinedText.utf8ByteSize < Word.modulus ∧
      ∃ w, load (.ofString v.joinedText) { v.config with reading := ⟨true, false⟩ } = .ok w ∧
        Reloaded v w := by
  have hrun : ((load someArrays {}).toOption.bind fun root =>
      (root.field? "a").toOption.bind fun field => field.map joinedText) =
      some "[1, \"x\"]\nnull\n[]" := by decide +kernel
  obtain ⟨root, hload, hrun⟩ := Option.bind_eq_some_iff.mp hrun
  obtain ⟨field, hfield, hrun⟩ := Option.bind_eq_some_iff.mp hrun
  obtain ⟨v, rfl, htext⟩ := Option.map_eq_some_iff.mp hrun
  have hroot := eq_ok_of_toOption hload
  have hchain : root.Chain v := .single (.field (eq_ok_of_toOption hfield))
  have hsize : v.joinedText.utf8ByteSize < Word.modulus := by
    rw [htext]
    decide +kernel
  exact ⟨root, v, hroot, hchain, htext, hsize, reloads hroot hchain hsize ⟨true, false⟩⟩

end View

end JsonLines
