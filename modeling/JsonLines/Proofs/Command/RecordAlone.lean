/-
JsonLines.Proofs.Command.RecordAlone — how far apart loading and showing a record are.

A text that writes one record loads when its names are as they must be and it nests no deeper than
the limit. Showing the one row asks for legible numbers and texts and for fewer than 128 containers
around each other (`RecordAlone.exists_valuesReport_iff`). A limit of 128 accepts 128 containers, so
a record can be within the limit and still too deep to be shown: `deepRecord` is one.
-/
import JsonLines.Proofs.Command.Showing
import JsonLines.Proofs.Dataset.Reloading

namespace JsonLines

open Json Json.Value Utf8

variable {s : Schema} {id : TypeId} {p n : Nat} {cs : List Char} {span : Span} {node : Node}
  {members : List (Key × Node)} {config : Config}

/-! ## A source of one record -/

theorem Schema.kind_of_tree_record (hs : s.WellFormed) (hid : s.Knows id)
    {present : NameId → Presence} {types : NameId → TypeTree NameId}
    (h : s.tree id = .record present types) : s.kind id = .record := by
  obtain ⟨type, htype⟩ := exists_get? hid
  rw [tree_eq_typeTree hs htype] at h
  rw [kind, htype]
  cases type with
  | composite c => cases c with
    | array element => cases h
    | record fields => rfl
  | _ => cases h

/-- The records of a text that is one line. -/
theorem records_of_line (h : Line cs) : config.records (.ofString (String.ofList cs)) =
    [⟨0, width cs⟩] := by
  have hrecords : config.records (.ofString (String.ofList (joined [cs]))) = placed 0 [cs] :=
    records_joined (List.forall_mem_singleton.mpr h)
  rwa [joined_singleton] at hrecords

theorem shows_of_width_lt (hsize : width cs < Word.modulus) :
    (ByteSource.ofString (String.ofList cs)).Shows 0 cs := by
  refine ⟨.empty, .empty, ?_, rfl, by omega⟩
  simp [ByteSource.ofString]

namespace View

variable {root : View} {row : Cell}

/-- A text that writes one record, as a source: the conditions under which it loads. -/
structure RecordAlone (config : Config) (cs : List Char) (span : Span)
    (members : List (Key × Node)) : Prop where
  writes : Writes 0 cs (.object span members)
  no_feed : '\n' ∉ cs
  width_lt : width cs < Word.modulus
  named : (Node.object span members).WellNamed
  nesting_le : (Node.object span members).nesting ≤ config.limits.maxDepth
  room : 1 ≤ Contents.rowLimit config.limits

/-- The record loads as one row, of a view of records. -/
theorem RecordAlone.exists_load (h : RecordAlone config cs span members) :
    ∃ root row, load (.ofString (String.ofList cs)) config = .ok root ∧ root.rows.toList = [row] ∧
      root.kind = .record ∧ spanOf? row = some span ∧
        Scanner.readTree root.source span = .ok (.object span members) := by
  have hspan : span = ⟨0, width cs⟩ := h.writes.span_eq
  have hread : Scanner.readTree (.ofString (String.ofList cs)) span =
      .ok (.object span members) :=
    readTree_of_writes (shows_of_width_lt h.width_lt) h.writes
  have hrecords : config.records (.ofString (String.ofList cs)) = [span] := by
    rw [hspan]
    exact records_of_line (line_of_writes h.writes h.no_feed)
  have haccepted : ∀ pick ∈ Contents.picksFrom 1 [span],
      pick.Accepted (.ofString (String.ofList cs)) config.limits := by
    rw [Contents.picksFrom, Contents.picksFrom, List.forall_mem_singleton]
    rintro _ ⟨⟩
    exact ⟨_, hread, h.named, h.nesting_le⟩
  obtain ⟨contents, hgather⟩ := Contents.exists_gather_eq_ok_iff.mpr ⟨haccepted, h.room⟩
  obtain ⟨hg, -⟩ := Contents.gathered_gather hgather
  have hload : load (.ofString (String.ofList cs)) config =
      .ok ⟨.ofString (String.ofList cs), config, .root, contents⟩ := by
    refine load_eq_ok_iff.mpr ⟨contents, ?_, rfl⟩
    rw [← hrecords] at hgather
    exact hgather
  obtain ⟨row, rest, hpicked, hrest, hrows⟩ := List.forall₂_cons_left_iff.mp hg.images
  cases hrest
  obtain ⟨m, hread', hscanned⟩ := hpicked
  cases hread.symm.trans hread'
  refine ⟨_, row, hload, hrows, ?_, spanOf?_of_scanned hscanned hread, hread⟩
  -- Of one row the least type that covers it is its own.
  have htree : contents.schema.tree contents.type = contents.schema.tree row.type := by
    refine hg.least.unique ?_
    rw [hrows, Schema.treesOf]
    simp
  obtain ⟨type, cells, fields, rfl, -, -, hget, -⟩ := hscanned
  rw [Cell.type, Schema.tree_record hg.wellFormed hget, Schema.recordTree] at htree
  exact Schema.kind_of_tree_record hg.wellFormed hg.knows htree

/-- **A record that loads is shown** when it is legible and fewer than 128 containers stand around
each other in it. -/
theorem RecordAlone.exists_valuesReport_iff (h : RecordAlone config cs span members) :
    ∃ root, load (.ofString (String.ofList cs)) config = .ok root ∧ root.rowCount = 1 ∧
      ((∃ report, root.valuesReport = .ok report) ↔
        (Node.object span members).Legible ∧
          (Node.object span members).nesting < nestingLimit) := by
  obtain ⟨root, row, hload, hrows, hkind, hspan, hread⟩ := h.exists_load
  have harray : root.kind ≠ .array := by simp [hkind]
  refine ⟨root, hload, ?_, ?_⟩
  · rw [rowCount, ← Array.length_toList, hrows, List.length_singleton]
  rw [(shows_chain hload .refl).report_iff, forall_unfolds_iff]
  constructor
  · intro hshown
    exact hshown.1.legible (.inl hkind) row (by simp [hrows]) span hspan _ hread
  · intro hlegible
    refine ⟨⟨fun hk => absurd hk harray, fun _ => ?_⟩, fun hk => absurd hk harray⟩
    rw [hrows, List.forall_mem_singleton]
    intro span' hspan' m hm
    rw [hspan] at hspan'
    cases hspan'
    cases hread.symm.trans hm
    exact hlegible

end View

/-! ## A record that nests deep -/

/-- Some brackets around a pair of brackets. -/
def brackets : Nat → List Char
  | 0 => ['[', ']']
  | n + 1 => '[' :: (brackets n ++ [']'])

/-- The arrays that they write, from a position on. -/
def arrays (p : Nat) : Nat → Node
  | 0 => .array ⟨p, 2⟩ []
  | n + 1 => .array ⟨p, 2 * (n + 1) + 2⟩ [arrays (p + 1) n]

theorem width_brackets (n : Nat) : width (brackets n) = 2 * n + 2 := by
  induction n with
  | zero => rfl
  | succ n ih =>
    have hopen : '['.utf8Size = 1 := rfl
    have hclose : ']'.utf8Size = 1 := rfl
    rw [brackets, width_cons, width_append, ih, width_cons, width_nil, hopen, hclose]
    omega

theorem mem_brackets {ch : Char} (h : ch ∈ brackets n) : ch = '[' ∨ ch = ']' := by
  induction n with
  | zero => simpa [brackets] using h
  | succ n ih =>
    rw [brackets, List.mem_cons, List.mem_append, List.mem_singleton] at h
    rcases h with h | h | h
    · exact .inl h
    · exact ih h
    · exact .inr h

theorem writes_arrays (p n : Nat) : Writes p (brackets n) (arrays p n) := by
  induction n generalizing p with
  | zero => exact ⟨rfl, [], rfl, blanks_nil⟩
  | succ n ih =>
    refine ⟨?_, brackets n, rfl, [], brackets n, [], [], by simp, blanks_nil, ih (p + 1),
      blanks_nil, .inl ⟨rfl, rfl⟩⟩
    rw [width_brackets]

theorem nesting_arrays (p n : Nat) : (arrays p n).nesting = n + 1 := by
  induction n generalizing p with
  | zero => rfl
  | succ n ih => rw [arrays, Node.nesting, nestingOfItems, nestingOfItems, ih, Nat.max_zero]

/-- In arrays there are no names. -/
theorem wellNamed_arrays (p n : Nat) : (arrays p n).WellNamed := by
  induction n generalizing p with
  | zero => exact wellNamed_array_iff.mpr (List.forall_mem_nil _)
  | succ n ih => exact wellNamed_array_iff.mpr (List.forall_mem_singleton.mpr (ih _))

/-- In arrays there are no numbers and no texts. -/
theorem legible_arrays (p n : Nat) : (arrays p n).Legible := by
  induction n generalizing p with
  | zero => exact legible_array_iff.mpr (List.forall_mem_nil _)
  | succ n ih => exact legible_array_iff.mpr (List.forall_mem_singleton.mpr (ih _))

/-- A record around arrays. -/
def deepRecord (n : Nat) : List Char := '\x7b' :: (['"', 'a', '"', ':'] ++ brackets n ++ ['\x7d'])

/-- The members that it writes. -/
def deepMembers (n : Nat) : List (Key × Node) := [(⟨2, ['a']⟩, arrays 5 n)]

theorem width_deepRecord (n : Nat) : width (deepRecord n) = 2 * n + 8 := by
  have hfirst : width ['"', 'a', '"', ':'] = 4 := rfl
  have hopen : '\x7b'.utf8Size = 1 := rfl
  have hlast : width ['\x7d'] = 1 := rfl
  rw [deepRecord, width_cons, width_append, width_append, width_brackets, hfirst, hopen, hlast]
  omega

theorem spells_a : Literal.Spells ['a'] ['a'] := .plain (by decide) (by decide) (by decide) .nil

theorem writes_deepRecord (n : Nat) :
    Writes 0 (deepRecord n) (.object ⟨0, 2 * n + 8⟩ (deepMembers n)) := by
  have hkey : WritesKey 1 ['"', 'a', '"', ':'] ⟨2, ['a']⟩ :=
    ⟨[], [], rfl, blanks_nil, blanks_nil, spells_a.written, rfl⟩
  exact ⟨by rw [width_deepRecord], ['"', 'a', '"', ':'] ++ brackets n, rfl, ['"', 'a', '"', ':'],
    [], brackets n, [], [], by simp, hkey, blanks_nil, writes_arrays 5 n, blanks_nil,
    .inl ⟨rfl, rfl⟩⟩

theorem nesting_deepRecord (span : Span) (n : Nat) :
    (Node.object span (deepMembers n)).nesting = n + 2 := by
  rw [deepMembers, Node.nesting, nestingOfMembers, nestingOfMembers, nesting_arrays, Nat.max_zero]

theorem legible_deepRecord (span : Span) (n : Nat) :
    (Node.object span (deepMembers n)).Legible := by
  have hname : Key.Spells ⟨2, ['a']⟩ "a" := spells_a
  refine .object ?_ (List.forall_mem_singleton.mpr ⟨_, hname⟩)
    (List.forall_mem_singleton.mpr (legible_arrays 5 n))
  rintro ⟨key, node, others, heq, hkey⟩
  cases (List.cons.inj heq).1
  exact absurd (spells_a.text_eq hkey) (by decide)

theorem wellNamed_deepRecord (span : Span) (n : Nat) :
    (Node.object span (deepMembers n)).WellNamed := by
  refine wellNamed_object_iff.mpr ⟨⟨?_, List.pairwise_singleton _ _⟩, ?_⟩
  · exact List.forall_mem_singleton.mpr ⟨"a", spells_a⟩
  · exact List.forall_mem_singleton.mpr (wellNamed_arrays 5 n)

theorem lineFeed_not_mem_deepRecord (n : Nat) : '\n' ∉ deepRecord n := by
  intro h
  simp only [deepRecord, List.mem_cons, List.mem_append, List.not_mem_nil, or_false] at h
  rcases h with h | (h | h) | h
  · cases h
  · revert h
    decide
  · rcases mem_brackets h with h | h <;> cases h
  · cases h

/-- A record around arrays loads as long as it nests no deeper than the limit, and is shown as long
as it nests less than 128 deep. -/
theorem exists_valuesReport_deepRecord (n : Nat) (config : Config)
    (hsize : 2 * n + 8 < Word.modulus) (hdepth : n + 2 ≤ config.limits.maxDepth)
    (hrows : 1 ≤ Contents.rowLimit config.limits) :
    ∃ root, View.load (.ofString (String.ofList (deepRecord n))) config = .ok root ∧
      root.rowCount = 1 ∧ ((∃ report, root.valuesReport = .ok report) ↔ n + 2 < nestingLimit) := by
  have halone : View.RecordAlone config (deepRecord n) ⟨0, 2 * n + 8⟩ (deepMembers n) :=
    ⟨writes_deepRecord n, lineFeed_not_mem_deepRecord n, by rwa [width_deepRecord],
      wellNamed_deepRecord _ n, by rwa [nesting_deepRecord], hrows⟩
  have hshown := halone.exists_valuesReport_iff
  rwa [nesting_deepRecord, and_iff_right (legible_deepRecord _ n)] at hshown

/-- A text that spells half of a pair. -/
def halfPair : List Char := "\x7b\"a\":\"\\ud800\"\x7d".toList

/-- A number beyond the range of doubles. -/
def hugeNumber : List Char := "\x7b\"a\":1e999\x7d".toList

/-- An object that begins with the name for the text of another value and holds no text. -/
def heldNumber : List Char :=
  "\x7b\"a\":\x7b\"$serde_json::private::RawValue\":1\x7d\x7d".toList

/-- The text loads as one row, but the row is not shown. -/
def LoadsUnshown (cs : List Char) : Prop :=
  ∃ root, View.load (.ofString (String.ofList cs)) {} = .ok root ∧ root.rowCount = 1 ∧
    ¬ ∃ report, root.valuesReport = .ok report

theorem loadsUnshown_of_run
    (h : ((View.load (.ofString (String.ofList cs)) {}).toOption.map fun root =>
      (root.rowCount, root.valuesReport.toOption.isNone)) = some (1, true)) : LoadsUnshown cs := by
  obtain ⟨root, hload, hfails⟩ := Option.map_eq_some_iff.mp h
  obtain ⟨hcount, hnone⟩ := Prod.mk.inj hfails
  refine ⟨root, View.eq_ok_of_toOption hload, hcount, ?_⟩
  rintro ⟨report, hreport⟩
  rw [hreport] at hnone
  cases hnone

/-- **A record that loads need not be shown**: it may nest 128 deep, spell no text, hold a number
beyond the range, or hold one where the text of a value should be. -/
theorem not_shown_deepRecord : LoadsUnshown (deepRecord 126) ∧ LoadsUnshown halfPair ∧
    LoadsUnshown hugeNumber ∧ LoadsUnshown heldNumber := by
  refine ⟨?_, loadsUnshown_of_run (by decide +kernel), loadsUnshown_of_run (by decide +kernel),
    loadsUnshown_of_run (by decide +kernel)⟩
  obtain ⟨root, hload, hcount, hshown⟩ :=
    exists_valuesReport_deepRecord 126 {} (by decide) (by decide) (by decide)
  exact ⟨root, hload, hcount, by rw [hshown]; decide⟩

end JsonLines
