/-
JsonLines.Proofs.Dataset.Spelling — the text of a literal comes back, from a row and from a name.

The same text can be written as a literal in many ways. Rows are decoded when they are converted,
the names of members when they are scanned, and type texts write names by a rule of their own. All
three go by one relation between what stands in quotes and the text that it spells
(`Literal.Spells`), so the way in which a text was written leaves no trace: literals on lines are
converted to the texts that they spell, and a literal that names the only member of a record names
the only field.
-/
import JsonLines.Proofs.Dataset.ValueLines
import JsonLines.Proofs.Coercion.RowValues
import JsonLines.Proofs.Schema.Rendering

namespace JsonLines

open Json Utf8

/-! ## Spellings -/

namespace Json.Literal

variable {raw : List Char}

/-- A text and one of the ways to write it between quotes. -/
structure Spelling where
  raw : List Char
  text : String
  spells : Spells raw text.toList

namespace Spelling

/-- The literal, quotes included. -/
def literal (l : Spelling) : List Char := '"' :: (l.raw ++ ['"'])

/-- The way in which texts of types write names. -/
def quoted (text : String) : Spelling := ⟨text.toList.flatMap escape, text, spells_escape _⟩

end Spelling

theorem newline_not_mem_of_hexQuad? {a b c d : Char} (h : (hexQuad? a b c d).isSome) :
    '\n' ∉ [a, b, c, d] := by
  have hnone : hexValue? '\n' = none := by decide
  unfold hexQuad? at h
  intro hmem
  simp only [List.mem_cons, List.not_mem_nil, or_false] at hmem
  rcases hmem with rfl | rfl | rfl | rfl <;> simp [hnone] at h

/-- No literal holds a line feed. -/
theorem Written.newline_not_mem (h : Written raw) : '\n' ∉ raw := by
  induction h with
  | nil => exact List.not_mem_nil
  | plain hcontrol _ _ _ ih =>
    rw [List.mem_cons, not_or]
    refine ⟨?_, ih⟩
    rintro rfl
    cases hcontrol
  | escape hescaped _ ih =>
    rw [List.mem_cons, List.mem_cons, not_or, not_or]
    refine ⟨by decide, ?_, ih⟩
    rintro rfl
    cases hescaped
  | unicode hquad _ ih =>
    have hdigits := newline_not_mem_of_hexQuad? hquad
    simp only [List.mem_cons, List.not_mem_nil, or_false, not_or] at hdigits ⊢
    exact ⟨by decide, by decide, hdigits.1, hdigits.2.1, hdigits.2.2.1, hdigits.2.2.2, ih⟩

end Json.Literal

open Json.Literal

variable {source : ByteSource} {config : Config} {limits : Config.Limits} {cs : List Char}
  {lines : List (List Char)} {literals : List Spelling} {root v : View} {row : Cell}

/-! ## Literals as rows -/

theorem wellNamed_text (span : Span) (raw : List Char) : (Node.text span raw).WellNamed := by
  rintro span' members ⟨⟩

theorem Json.Literal.Spelling.writes (l : Spelling) (p : Nat) :
    Writes p l.literal (.text ⟨p, width l.literal⟩ l.raw) :=
  ⟨rfl, rfl, l.spells.written⟩

theorem Json.Literal.Spelling.valueLine (l : Spelling) : ValueLine limits l.literal where
  no_feed := by
    have hraw := l.spells.written.newline_not_mem
    simp [literal, hraw]
  accepted p := ⟨_, l.writes p, wellNamed_text _ _, Nat.zero_le _⟩

namespace View

/-- A row with the text of a literal is read as what the literal writes. -/
theorem valueOf_of_literal {l : Spelling}
    (h : root.TextOf row (some (String.ofList l.literal))) :
    ∃ span, root.valueOf row = some (.text span l.raw) := by
  have hraw := rawCell_of_textOf h
  generalize root.valueOf row = value at hraw ⊢
  cases hraw with
  | text _ hwrites =>
    rw [String.toList_ofList] at hwrites
    exact ⟨_, congrArg some (hwrites.node_eq (l.writes _))⟩

/-- A row with the text of a literal is converted to the text that the literal spells. -/
theorem outcome_of_literal {l : Spelling}
    (h : root.TextOf row (some (String.ofList l.literal))) :
    root.outcome Convert.text row = .value l.text := by
  refine outcome_eq_of_class Convert.lawful_texts Convert.finds_text h
    (.value ⟨l.raw, ?_, l.spells⟩)
  rw [String.toList_ofList, Spelling.literal]

section

variable (h : List.Forall₂
  (fun l row => root.TextOf row (some (String.ofList (Spelling.literal l)))) literals
    root.rows.toList)

include h

/-- Rows that are literals are all of text. -/
theorem kind_of_literals (hv : root.Sound) (hne : literals ≠ []) : root.kind = .text := by
  have hevery : Node.Every (·.OfKind .text) root.values := by
    intro m hm
    obtain ⟨row, hrow, hvalue⟩ := List.mem_map.mp hm
    obtain ⟨l, -, hl⟩ := exists_of_forall₂ h hrow
    obtain ⟨span, hspan⟩ := valueOf_of_literal hl
    cases hvalue.symm.trans hspan
    exact .inr ⟨span, l.raw, rfl⟩
  have hle : root.kind ≤ .text := (kind_le_iff hv).mpr hevery
  have hnull : root.kind ≠ .null := by
    intro hnull
    -- There is a row, which is no null.
    obtain ⟨l, hl⟩ := List.exists_mem_of_ne_nil _ hne
    obtain ⟨row, hrow, htext⟩ := exists_of_forall₂ h.flip hl
    obtain ⟨span, hspan⟩ := valueOf_of_literal htext
    rcases (kind_le_iff (k := .null) hv).mp (.inl hnull) _
      (List.mem_map.mpr ⟨row, hrow, hspan⟩) with ⟨_, heq⟩ | hfalse
    · cases heq
    · exact hfalse
  rcases Kind.le_iff.mp hle with hkind | hkind | hkind | ⟨-, hkind⟩
  · exact hkind
  · exact absurd hkind hnull
  · cases hkind
  · cases hkind

/-- Rows that are literals are converted to the texts that they spell, and none is reported. -/
theorem toText_of_literals :
    root.toText = ⟨literals.map fun l => some l.text, [], []⟩ := by
  have houtcome : ∀ row ∈ root.rows.toList, ∃ text,
      root.outcome Convert.text row = .value text := by
    intro row hrow
    obtain ⟨l, -, hl⟩ := exists_of_forall₂ h hrow
    exact ⟨l.text, outcome_of_literal hl⟩
  have hvalues : root.toText.values = literals.map fun l => some l.text := by
    rw [toText, values_coerce]
    refine (map_eq_map_of_forall₂ h fun l row hl => ?_).symm
    rw [outcome_of_literal hl]
    rfl
  have hoverflow : root.toText.overflowRows = [] := by
    refine overflowRows_eq_nil_iff.mpr fun row hrow => ?_
    obtain ⟨text, htext⟩ := houtcome row hrow
    rw [htext]
    exact nofun
  have hinvalid : root.toText.invalidRows = [] := by
    refine invalidRows_eq_nil_iff.mpr fun row hrow => ?_
    obtain ⟨text, htext⟩ := houtcome row hrow
    rw [htext]
    exact nofun
  rw [← hvalues]
  cases hc : root.toText with
  | mk values overflowRows invalidRows =>
    rw [hc] at hoverflow hinvalid
    cases hoverflow
    cases hinvalid
    rfl

end

end View

/-! ## Literals as names -/

/-- The text is a line with one object that the limits accept, wherever it starts. The object has
one member, whose name is written by `raw`. -/
structure MemberLine (limits : Config.Limits) (raw cs : List Char) : Prop where
  no_feed : '\n' ∉ cs
  accepted : ∀ p, ∃ span key value, key.raw = raw ∧ Writes p cs (.object span [(key, value)]) ∧
    value.WellNamed ∧ value.nesting < limits.maxDepth

theorem MemberLine.valueLine {l : Spelling} (h : MemberLine limits l.raw cs) :
    ValueLine limits cs where
  no_feed := h.no_feed
  accepted p := by
    obtain ⟨span, key, value, hraw, hwrites, hnamed, hnesting⟩ := h.accepted p
    refine ⟨_, hwrites, wellNamed_object_iff.mpr ⟨⟨?_, List.pairwise_singleton _ _⟩, ?_⟩, ?_⟩
    · refine List.forall_mem_singleton.mpr ⟨l.text, ?_⟩
      rw [Key.Spells, hraw]
      exact l.spells
    · exact List.forall_mem_singleton.mpr hnamed
    · rw [Node.nesting, nestingOfMembers, nestingOfMembers]
      omega

/-- Any literal can name the member, and any value that nests less deep than the limit can be bound
to it. -/
theorem memberLine_of_value (l : Spelling) {value : List Char} (hfeed : '\n' ∉ value)
    (h : ∀ p, ∃ m, Writes p value m ∧ m.WellNamed ∧ m.nesting < limits.maxDepth) :
    MemberLine limits l.raw ('\x7b' :: (l.literal ++ ':' :: (value ++ ['\x7d']))) where
  no_feed := by
    have hraw := l.spells.written.newline_not_mem
    simp [Spelling.literal, hraw, hfeed]
  accepted p := by
    have hkey : WritesKey (p + 1) (l.literal ++ [':']) ⟨p + 2, l.raw⟩ :=
      ⟨[], [], by simp [Spelling.literal], blanks_nil, blanks_nil, l.spells.written, rfl⟩
    obtain ⟨m, hwrites, hnamed, hnesting⟩ := h (p + 1 + width (l.literal ++ [':']) + width [])
    refine ⟨_, ⟨p + 2, l.raw⟩, m, rfl, ⟨rfl, l.literal ++ [':'] ++ value, by simp, ?_⟩, hnamed,
      hnesting⟩
    exact ⟨l.literal ++ [':'], [], value, [], [], by simp, hkey, blanks_nil, hwrites, blanks_nil,
      .inl ⟨rfl, rfl⟩⟩

/-- The name that comes first in the text of a type, decoded: blanks may stand between it and the
brace before it. -/
def leadingName? (type : String) : Option String :=
  match (type.toList.drop 1).dropWhile Char.isWhitespace with
  | '"' :: rest =>
    match Literal.read 0 rest with
    | .ok (name, _) => some (String.ofList name)
    | .error _ => none
  | _ => none

theorem leadingName?_quoted {before name rest : List Char}
    (h : ∀ ch ∈ before, ch.isWhitespace = true) :
    leadingName? (String.ofList ('\x7b' :: (before ++ (quoteChars name ++ rest)))) =
      some (String.ofList name) := by
  obtain ⟨d, hread⟩ := read_of_spells (spells_escape name) 0 rest
  have hquote : '"'.isWhitespace = false := by decide
  have hdrop : (quoteChars name ++ rest).dropWhile Char.isWhitespace =
      '"' :: (name.flatMap escape ++ '"' :: rest) := by
    rw [quoteChars, List.cons_append, List.dropWhile_cons_of_neg (by simp [hquote])]
    simp
  rw [leadingName?, String.toList_ofList, List.drop_one, List.tail_cons,
    List.dropWhile_append_of_pos h, hdrop]
  simp only [hread]

theorem Schema.isWhitespace_of_mem_indent (level : Nat) :
    ∀ ch ∈ indent level, ch.isWhitespace = true := by
  refine List.forall_mem_cons.mpr ⟨by decide, fun ch hch => ?_⟩
  rw [List.eq_of_mem_replicate hch]
  decide

/-- The name of the first field comes first. -/
theorem Schema.leadingName?_renderWithin {s : Schema} {id : TypeId} {field : Field}
    {fields : List Field} {multiline : Bool} (hid : s.Knows id)
    (h : s.get? id = some (.composite (.record (field :: fields)))) :
    leadingName? (String.ofList (s.renderWithin multiline s.size 0 id)) =
      some (s.name field.name) := by
  have hblank : ∀ ch ∈ (layout multiline 0).before, ch.isWhitespace = true := by
    cases multiline with
    | false => exact nofun
    | true => exact isWhitespace_of_mem_indent 1
  obtain ⟨depth, hdepth⟩ : ∃ depth, s.size = depth + 1 :=
    Nat.exists_eq_succ_of_ne_zero (Nat.ne_zero_of_lt hid)
  rw [hdepth, renderWithin_record_cons h, fieldText, List.append_assoc, leadingName?_quoted hblank,
    String.ofList_toList]

namespace View

/-- The one field of the view has a name, and the text of the type says so. -/
structure NamedBy (v : View) (name : String) : Prop where
  names_eq : v.names? = some [name]
  exists_field : ∃ w, v.field? name = .ok (some w)
  /-- On one line. -/
  leadingName?_datatype : leadingName? v.datatype = some name
  /-- On several lines. -/
  leadingName?_pretty : leadingName? (v.schema.pretty v.type) = some name

/-- The type of a view of one row is that of the row. -/
theorem type_of_row (hs : v.schema.WellFormed) (htype : v.schema.Knows v.type)
    (hleast : IsLUB (v.schema.treesOf v.rows.toList) (v.schema.tree v.type))
    (hrows : v.rows.toList = [row]) (hrow : v.schema.Knows row.type) : v.type = row.type := by
  refine Schema.tree_injective hs htype hrow (hleast.unique ?_)
  rw [hrows, Schema.treesOf]
  simp

/-- **A record with one member** has the name of the member, however it was written. -/
theorem namedBy_of_row {l : Spelling} (hroot : load source config = .ok root)
    (hline : MemberLine config.limits l.raw cs) (hrows : root.rows.toList = [row])
    (htext : root.TextOf row (some (String.ofList cs))) : root.NamedBy l.text := by
  obtain ⟨picks, hgather⟩ := exists_gather hroot .refl
  obtain ⟨hg, -⟩ := Contents.gathered_gather hgather
  have hv := sound_chain hroot .refl
  rcases htext with ⟨-, h⟩ | ⟨text, m, heq, hwrites, hshows, hscanned⟩
  · cases h
  cases heq
  rw [String.toList_ofList] at hwrites
  obtain ⟨span, key, value, hraw, hobject, -⟩ := hline.accepted m.span.offset
  cases hwrites.node_eq hobject
  have hknows := hscanned.knows
  obtain ⟨type, cells, fields, rfl, hmembers, -, hget, hperm⟩ := hscanned
  obtain ⟨id, c, rest, name, rfl, hkey, hid, -, rfl⟩ := hmembers
  -- The name is the text, in which only one field is left.
  have hspells : key.Spells l.text := by
    rw [Key.Spells, hraw]
    exact l.spells
  obtain rfl : l.text = name :=
    Option.some.inj (((Key.name?_eq_some_iff hspells.written).mpr hspells).symm.trans hkey)
  obtain rfl : fields = [⟨id, c.type, false⟩] := (List.singleton_perm.mp hperm).symm
  have htype : root.type = type := type_of_row hg.wellFormed hg.knows hg.least hrows hknows
  have hfields : root.fields? = some [⟨id, c.type, false⟩] := by
    rw [fields?, htype]
    exact Schema.fields?_eq_some_iff.mpr hget
  have hname : root.schema.name id = l.text := by rw [Schema.name, hid]; rfl
  obtain ⟨views, -, -, hagree⟩ := columns_agree hv hfields
  obtain ⟨name, w, -, hcolumn⟩ := hagree 0 _ rfl
  obtain rfl : l.text = name := Option.some.inj (hid.symm.trans hcolumn.name_eq)
  have hleading : ∀ multiline, leadingName? (String.ofList
      (root.schema.renderWithin multiline root.schema.size 0 root.type)) = some l.text := by
    intro multiline
    rw [htype, Schema.leadingName?_renderWithin (Schema.knows_of_get? hget) hget, hname]
  refine ⟨?_, ⟨w, hcolumn.field_eq⟩, hleading false, hleading true⟩
  rw [names?, hfields, Option.map_some, List.map_singleton, hname]

/-! ## Literals come back -/

/-- What becomes of literals: they are rows of text, and names of fields. -/
structure ReadsBack (source : ByteSource) (config : Config) (literals : List Spelling) : Prop where
  /-- As rows they are converted to the texts that they spell, and none of them is reported. -/
  rows : ∃ root, load source config = .ok root ∧ (literals ≠ [] → root.kind = .text) ∧
    root.toText = ⟨literals.map fun l => some l.text, [], []⟩
  /-- As the name of the only member of a record, each of them names the only field. -/
  names : ∀ l ∈ literals, ∀ record cs, MemberLine config.limits l.raw cs →
    record.Lists [cs] → record.size < Word.modulus →
      ∃ root, load record config = .ok root ∧ root.rowCount = 1 ∧ root.NamedBy l.text

/-- **The text of a literal comes back**, from a row and from a name. -/
theorem literals_readBack (h : source.Lists (literals.map Spelling.literal))
    (hsize : source.size < Word.modulus)
    (hcount : literals.length ≤ Contents.rowLimit config.limits) :
    ReadsBack source config literals where
  rows := by
    obtain ⟨root, hload, hrows⟩ := exists_load_of_lists h hsize
      (List.forall_mem_map.mpr fun l _ => l.valueLine) (by rwa [List.length_map])
    rw [List.forall₂_map_left_iff] at hrows
    exact ⟨root, hload, kind_of_literals hrows (sound_chain hload .refl), toText_of_literals hrows⟩
  names l hl record cs hline hlists hrecord := by
    have hroom : [cs].length ≤ Contents.rowLimit config.limits := by
      have := List.length_pos_of_mem hl
      rw [List.length_singleton]
      omega
    obtain ⟨root, hload, hrows⟩ := exists_load_of_lists hlists hrecord
      (List.forall_mem_singleton.mpr hline.valueLine) hroom
    obtain ⟨row, rest, htext, hrest, hrow⟩ := List.forall₂_cons_left_iff.mp hrows
    cases hrest
    refine ⟨root, hload, ?_, namedBy_of_row hload hline hrow htext⟩
    rw [rowCount, ← Array.length_toList, hrow, List.length_singleton]

/-- A letter as an escape, a character outside the basic plane as a pair of them, and an escaped
slash. -/
def escapedText : Spelling where
  raw := ['\\', 'u', '0', '0', '4', '1', '\\', 'u', 'd', '8', '3', 'D', '\\', 'u', 'D', 'e', '0',
    '0', '\\', '/']
  text := String.ofList ['A', '😀', '/']
  spells := by
    have hletter : Char.ofNat 0x41 = 'A' := rfl
    have hpair : pairChar 0xD83D 0xDE00 = '😀' := by decide
    rw [String.toList_ofList, ← hletter, ← hpair]
    exact .unicode (by decide) (by decide) (by decide)
      (.pair (by decide) (by decide) (by decide) (by decide) (.escape (by decide) .nil))

/-- The same text and one with a quote and a line feed, as names are written. -/
def someLiterals : List Spelling := [escapedText, .quoted escapedText.text, .quoted "\"\n"]

/-- Their lines. -/
def someLiteralLines : ByteSource :=
  .ofString (String.ofList (joined (someLiterals.map Spelling.literal)))

/-- A record that the first of them names the only member of. -/
def escapedName : List Char := '\x7b' :: (escapedText.literal ++ ':' :: (word none ++ ['\x7d']))

/-- The texts come back from all three, and the record has one field, of the name that the first of
them spells. -/
theorem literals_readBack_someLiterals :
    someLiteralLines.Lists (someLiterals.map Spelling.literal) ∧
    someLiteralLines.size < Word.modulus ∧
    someLiterals.length ≤ Contents.rowLimit ({} : Config).limits ∧
    MemberLine ({} : Config).limits escapedText.raw escapedName ∧
    ReadsBack someLiteralLines {} someLiterals := by
  have hlists : someLiteralLines.Lists (someLiterals.map Spelling.literal) := lists_joined _
  have hsize : someLiteralLines.size < Word.modulus := by decide +kernel
  have hcount : someLiterals.length ≤ Contents.rowLimit ({} : Config).limits := by decide +kernel
  have hnull : MemberLine ({} : Config).limits escapedText.raw escapedName :=
    memberLine_of_value escapedText (by decide) fun p =>
      ⟨.null ⟨p, width (word none)⟩, ⟨rfl, rfl⟩, nofun, Nat.zero_lt_succ 127⟩
  exact ⟨hlists, hsize, hcount, hnull, literals_readBack hlists hsize hcount⟩

end View

end JsonLines
