/-
JsonLines.Proofs.Coercion.Classification — every row is converted as its own text tells.

A target of conversion is told by texts alone: which values they are read as, and which are numbers
beyond its range (`Convert.Target`). Every text is then in exactly one class
(`Convert.Target.existsUnique_class`), and a row converts as the class of its text demands, whatever
its type in the schema and the type that covers all rows (`classified`). The type of a row only
repeats the kind of its value, which a text has but one of (`Json.Writes.node_eq`).
-/
import JsonLines.Proofs.Coercion.Magnitude
import JsonLines.Proofs.Dataset.Failures
import JsonLines.Proofs.Dataset.Reloading
import JsonLines.Proofs.Scan.ParseTree

namespace JsonLines

open Json

/-! ## Classes of texts -/

namespace Convert

/-- What rows are converted to: the values that texts are read as, and the texts that write numbers
beyond the range. -/
structure Target (α : Type) where
  reads : String → α → Prop
  exceeds : String → Prop

variable {α : Type} {target : Target α} {text : String} {a b : α}

/-- The class of a row by its text, which an absent row has none of. -/
inductive Target.Class (target : Target α) : Option String → Outcome α → Prop where
  | absent : Class target none .missing
  | null : Class target (some "null") .missing
  | value {text : String} {a : α} : target.reads text a → Class target (some text) (.value a)
  | overflow {text : String} : target.exceeds text → Class target (some text) .overflow
  | invalid {text : String} : text ≠ "null" → (∀ a, ¬ target.reads text a) →
    ¬ target.exceeds text → Class target (some text) .invalid

/-- No text is in two classes. -/
structure Target.Lawful (target : Target α) : Prop where
  reads_eq : ∀ {text a b}, target.reads text a → target.reads text b → a = b
  not_exceeds : ∀ {text a}, target.reads text a → ¬ target.exceeds text
  not_null : (∀ a, ¬ target.reads "null" a) ∧ ¬ target.exceeds "null"

/-- **Every text is in exactly one class.** -/
theorem Target.existsUnique_class (h : target.Lawful) (text? : Option String) :
    ∃! outcome, target.Class text? outcome := by
  cases text? with
  | none =>
    refine ⟨.missing, .absent, ?_⟩
    rintro _ ⟨⟩
    rfl
  | some text =>
    by_cases hnull : text = "null"
    · subst hnull
      refine ⟨.missing, .null, ?_⟩
      rintro _ (_ | _ | hreads | hexceeds | ⟨hne, -, -⟩)
      · rfl
      · exact absurd hreads (h.not_null.1 _)
      · exact absurd hexceeds h.not_null.2
      · exact absurd rfl hne
    by_cases hreads : ∃ a, target.reads text a
    · obtain ⟨a, ha⟩ := hreads
      refine ⟨.value a, .value ha, ?_⟩
      rintro _ (_ | _ | hb | hexceeds | ⟨-, hno, -⟩)
      · exact absurd rfl hnull
      · rw [h.reads_eq ha hb]
      · exact absurd hexceeds (h.not_exceeds ha)
      · exact absurd ha (hno a)
    by_cases hexceeds : target.exceeds text
    · refine ⟨.overflow, .overflow hexceeds, ?_⟩
      rintro _ (_ | _ | hb | _ | ⟨-, -, hno⟩)
      · exact absurd rfl hnull
      · exact absurd ⟨_, hb⟩ hreads
      · rfl
      · exact absurd hexceeds hno
    · refine ⟨.invalid, .invalid hnull (not_exists.mp hreads) hexceeds, ?_⟩
      rintro _ (_ | _ | hb | hover | _)
      · exact absurd rfl hnull
      · exact absurd ⟨_, hb⟩ hreads
      · exact absurd hover hexceeds
      · rfl

/-- The literal is one of digits alone, with or without a sign. -/
def Plain (text : String) : Prop := '.' ∉ text.toList ∧ 'e' ∉ text.toList ∧ 'E' ∉ text.toList

/-- The integer has 32 bits. -/
def Within32 (i : Int) : Prop := -2 ^ 31 ≤ i ∧ i ≤ 2 ^ 31 - 1

/-- The two boolean literals. -/
def booleans : Target Bool where
  reads text b := text.toList = word (some b)
  exceeds _ := False

/-- Number literals without fraction and exponent, within 32 bits. -/
def integers : Target Int where
  reads text i := ∃ n : Numeral, n.Written text.toList ∧ Plain text ∧ n.toInt = i ∧ Within32 i
  exceeds text := ∃ n : Numeral, n.Written text.toList ∧ Plain text ∧ ¬ Within32 n.toInt

/-- Number literals, within the range of doubles. -/
def reals : Target Binary64 where
  reads text x := ∃ n : Numeral, n.Written text.toList ∧ n.toBinary64 = x ∧ x.isFinite = true
  exceeds text := ∃ n : Numeral, n.Written text.toList ∧ n.toBinary64.isFinite = false

/-- String literals that spell a text. -/
def texts : Target String where
  reads text t := ∃ raw, text.toList = '"' :: (raw ++ ['"']) ∧ Literal.Spells raw t.toList
  exceeds _ := False

end Convert

/-! ## A text writes one value -/

variable {p : Nat} {cs raw : List Char} {m m' : Node} {n n' : Numeral}

/-- **What a text writes is told by the text.** -/
theorem Json.Writes.node_eq (h : Writes p cs m) (h' : Writes p cs m') : m = m' := by
  have heq := Node.parse_of_writes h
  rw [Node.parse_of_writes h'] at heq
  exact (Except.ok.inj heq).symm

theorem writes_number (p : Nat) (h : n.Written cs) : Writes p cs (.number ⟨p, Utf8.width cs⟩ n) :=
  ⟨rfl, h⟩

theorem Numeral.Written.eq (h : n.Written cs) (h' : n'.Written cs) : n = n' := by
  have heq := (writes_number 0 h).node_eq (writes_number 0 h')
  injection heq

theorem Numeral.ofChars?_of_written (h : n.Written cs) : ofChars? cs = some n := by
  have hread : read .invalidNumber ⟨0, cs ++ []⟩ = .ok (n, ⟨0 + cs.length, []⟩) :=
    read_of_written h (by simp [Ends])
  rw [List.append_nil] at hread
  rw [ofChars?, hread]

/-- The type of an image has the kind of the value. -/
theorem Scanned.kind_eq {s : Schema} {row : Cell} (h : Scanned s m row) :
    s.kind row.type = m.kind := by
  cases m with
  | number span n =>
    simp only [Scanned] at h
    subst h
    rw [Node.kind]
    cases n.isIntegral <;> rfl
  | array span items =>
    obtain ⟨type, cells, element, rfl, -, hget, -⟩ := h
    exact kind_eq_of_get? hget
  | object span members =>
    obtain ⟨type, cells, fields, rfl, -, -, hget, -⟩ := h
    exact kind_eq_of_get? hget
  | _ =>
    simp only [Scanned] at h
    subst h
    rfl

/-- A literal decodes to the text that it spells. -/
theorem Json.Literal.decode?_eq_some_iff {text : List Char} (h : Literal.Written raw) :
    decode? ('"' :: (raw ++ ['"'])) = some text ↔ Spells raw text := by
  constructor
  · intro hdecode
    rw [decode?] at hdecode
    split at hdecode
    · rename_i text' position hread
      cases hdecode
      obtain ⟨raw', hspells, heq⟩ := spells_of_read hread
      rwa [h.append_inj hspells.written heq]
    · cases hdecode
  · intro hspells
    obtain ⟨d, hread⟩ := read_of_spells hspells 1 []
    obtain ⟨raw', hspells', heq⟩ := spells_of_read hread
    have hrest : d.rest = [] := by
      rw [h.append_inj hspells'.written heq] at heq
      simpa using heq.symm
    obtain ⟨position, rest⟩ := d
    simp only at hrest
    subst hrest
    simp only [decode?, hread]

/-! ## Targets and the texts of values -/

namespace Convert

variable {α : Type} {target : Target α} {text t : String} {i : Int} {x : Binary64} {b : Bool}
  {span : Span}

theorem eq_null_iff (h : Writes p text.toList m) : text = "null" ↔ ∃ span, m = .null span := by
  constructor
  · rintro rfl
    exact ⟨_, h.node_eq ⟨rfl, rfl⟩⟩
  · rintro ⟨span, rfl⟩
    exact String.toList_inj.mp h.2

theorem inRange_iff : inRange i = true ↔ Within32 i := by
  unfold inRange Within32 Word.half32
  simp only [Bool.and_eq_true, decide_eq_true_eq]
  omega

theorem plain_iff (h : n.Written text.toList) : Plain text ↔ n.isIntegral = true :=
  (Numeral.isIntegral_iff h).symm

/-- The literals that a text writes are those of the value that it writes. -/
theorem exists_written_iff {P : Numeral → Prop} (h : Writes p text.toList m) :
    (∃ n : Numeral, n.Written text.toList ∧ P n) ↔ ∃ span n, m = .number span n ∧ P n := by
  constructor
  · rintro ⟨n, hwritten, hP⟩
    exact ⟨_, n, h.node_eq (writes_number p hwritten), hP⟩
  · rintro ⟨span, n, rfl, hP⟩
    exact ⟨n, h.2, hP⟩

theorem booleans_reads_iff (h : Writes p text.toList m) :
    booleans.reads text b ↔ ∃ span, m = .boolean span b := by
  constructor
  · intro hreads
    exact ⟨_, h.node_eq ⟨rfl, hreads⟩⟩
  · rintro ⟨span, rfl⟩
    exact h.2

theorem integers_reads_iff (h : Writes p text.toList m) : integers.reads text i ↔
    ∃ span n, m = .number span n ∧ Plain text ∧ n.toInt = i ∧ Within32 i :=
  exists_written_iff h

theorem integers_exceeds_iff (h : Writes p text.toList m) : integers.exceeds text ↔
    ∃ span n, m = .number span n ∧ Plain text ∧ ¬ Within32 n.toInt :=
  exists_written_iff h

theorem reals_reads_iff (h : Writes p text.toList m) : reals.reads text x ↔
    ∃ span n, m = .number span n ∧ n.toBinary64 = x ∧ x.isFinite = true :=
  exists_written_iff h

theorem reals_exceeds_iff (h : Writes p text.toList m) : reals.exceeds text ↔
    ∃ span n, m = .number span n ∧ n.toBinary64.isFinite = false :=
  exists_written_iff h

theorem texts_reads_iff (h : Writes p text.toList m) : texts.reads text t ↔
    ∃ span raw, m = .text span raw ∧ Literal.Spells raw t.toList := by
  constructor
  · rintro ⟨raw, heq, hspells⟩
    exact ⟨_, raw, h.node_eq ⟨rfl, heq, hspells.written⟩, hspells⟩
  · rintro ⟨span, raw, rfl, hspells⟩
    exact ⟨raw, h.2.1, hspells⟩

/-! ## No text is in two classes -/

theorem writes_null : Writes 0 "null".toList (.null ⟨0, 4⟩) := ⟨rfl, rfl⟩

theorem lawful_booleans : booleans.Lawful where
  reads_eq h h' := by
    have heq := h.symm.trans h'
    revert heq
    rename_i a b
    cases a <;> cases b <;> decide
  not_exceeds _ := id
  not_null := ⟨fun b => by simp [booleans_reads_iff writes_null], id⟩

theorem lawful_integers : integers.Lawful where
  reads_eq := by
    rintro text i j ⟨n, hn, -, rfl, -⟩ ⟨n', hn', -, rfl, -⟩
    rw [hn.eq hn']
  not_exceeds := by
    rintro text i ⟨n, hn, -, rfl, hwithin⟩ ⟨n', hn', -, hbeyond⟩
    exact hbeyond (hn.eq hn' ▸ hwithin)
  not_null := by simp [integers_reads_iff writes_null, integers_exceeds_iff writes_null]

theorem lawful_reals : reals.Lawful where
  reads_eq := by
    rintro text x y ⟨n, hn, rfl, -⟩ ⟨n', hn', rfl, -⟩
    rw [hn.eq hn']
  not_exceeds := by
    rintro text x ⟨n, hn, rfl, hfinite⟩ ⟨n', hn', hinfinite⟩
    rw [hn.eq hn', hinfinite] at hfinite
    cases hfinite
  not_null := by simp [reals_reads_iff writes_null, reals_exceeds_iff writes_null]

theorem lawful_texts : texts.Lawful where
  reads_eq := by
    rintro text t u ⟨raw, heq, hspells⟩ ⟨raw', heq', hspells'⟩
    have hraw : raw = raw' := by simpa using heq.symm.trans heq'
    exact String.toList_inj.mp (hspells.text_eq (hraw ▸ hspells'))
  not_exceeds _ := id
  not_null := ⟨fun t => by simp [texts_reads_iff writes_null], id⟩

/-! ## Conversion finds the class -/

/-- The conversion of a value finds the class of its text. -/
def Target.Finds (target : Target α) (convert : Kind → List Char → Outcome α) : Prop :=
  ∀ {p text m}, Writes p text.toList m → target.Class (some text) (convert m.kind text.toList)

theorem class_null (h : Writes p text.toList (.null span)) :
    target.Class (some text) .missing := by
  rw [(eq_null_iff h).mpr ⟨span, rfl⟩]
  exact .null

theorem finds_boolean : booleans.Finds boolean := by
  intro p text m h
  cases m with
  | null span => exact class_null h
  | boolean span b =>
    refine .value (h.2.trans (congrArg (fun b => word (some b)) ?_))
    rw [h.2]
    cases b <;> rfl
  | number span n =>
    have hinvalid : booleans.Class (some text) .invalid :=
      .invalid (by simp [eq_null_iff h]) (by simp [booleans_reads_iff h]) id
    rw [Node.kind]
    cases n.isIntegral <;> exact hinvalid
  | _ => exact .invalid (by simp [eq_null_iff h]) (by simp [booleans_reads_iff h]) id

theorem finds_integer : integers.Finds integer := by
  intro p text m h
  cases m with
  | null span => exact class_null h
  | number span n =>
    rw [Node.kind]
    cases hintegral : n.isIntegral with
    | true =>
      have hplain := (plain_iff h.2).mpr hintegral
      simp only [↓reduceIte, integer, Numeral.ofChars?_of_written h.2]
      split
      · exact .value ⟨n, h.2, hplain, rfl, inRange_iff.mp ‹_›⟩
      · exact .overflow ⟨n, h.2, hplain, fun hwithin => ‹¬ _› (inRange_iff.mpr hwithin)⟩
    | false =>
      have hplain : ¬ Plain text := by simp [plain_iff h.2, hintegral]
      exact .invalid (by simp [eq_null_iff h]) (by simp [integers_reads_iff h, hplain])
        (by simp [integers_exceeds_iff h, hplain])
  | _ =>
    exact .invalid (by simp [eq_null_iff h]) (by simp [integers_reads_iff h])
      (by simp [integers_exceeds_iff h])

theorem finds_real : reals.Finds real := by
  intro p text m h
  cases m with
  | null span => exact class_null h
  | number span n =>
    have hconvert : real (Node.number span n).kind text.toList =
        if n.toBinary64.isFinite then .value n.toBinary64 else .overflow := by
      rw [Node.kind]
      cases n.isIntegral <;>
        simp only [↓reduceIte, Bool.false_eq_true, real, Numeral.ofChars?_of_written h.2]
    rw [hconvert]
    split
    · exact .value ⟨n, h.2, rfl, ‹_›⟩
    · exact .overflow ⟨n, h.2, Bool.eq_false_of_not_eq_true ‹_›⟩
  | _ =>
    exact .invalid (by simp [eq_null_iff h]) (by simp [reals_reads_iff h])
      (by simp [reals_exceeds_iff h])

theorem finds_text : texts.Finds Convert.text := by
  intro p text m h
  cases m with
  | null span => exact class_null h
  | text span raw =>
    have hdecode : ∀ decoded, Literal.decode? text.toList = some decoded ↔
        Literal.Spells raw decoded := fun decoded => by
      rw [h.2.1, Literal.decode?_eq_some_iff h.2.2]
    simp only [Node.kind, Convert.text]
    cases hread : Literal.decode? text.toList with
    | some decoded =>
      exact .value ⟨raw, h.2.1, by simpa using (hdecode decoded).mp hread⟩
    | none =>
      refine .invalid (by simp [eq_null_iff h]) (fun t hreads => ?_) id
      obtain ⟨_, _, heq, hspells⟩ := (texts_reads_iff h).mp hreads
      cases heq
      cases hread.symm.trans ((hdecode _).mpr hspells)
  | number span n =>
    have hinvalid : texts.Class (some text) .invalid :=
      .invalid (by simp [eq_null_iff h]) (by simp [texts_reads_iff h]) id
    rw [Node.kind]
    cases n.isIntegral <;> exact hinvalid
  | _ => exact .invalid (by simp [eq_null_iff h]) (by simp [texts_reads_iff h]) id

/-- The rows of a view are converted as the classes of their texts demand. -/
structure Target.Sorts (target : Target α) (v : View) (c : Coerced α) : Prop where
  length_eq : c.values.length = v.rowCount
  unique : ∀ text? ∈ v.toJsonText, ∃! outcome, target.Class text? outcome
  /-- The values of the rows, and the source rows of those that overflowed or are invalid, in the
  order of the rows. -/
  sorted : ∃ outcomes, List.Forall₂ target.Class v.toJsonText outcomes ∧
    c.values = outcomes.map Outcome.toOption ∧
    c.overflowRows = ((outcomes.zip v.rowNumbers).filter (·.1.isOverflow)).map (·.2) ∧
    c.invalidRows = ((outcomes.zip v.rowNumbers).filter (·.1.isInvalid)).map (·.2)

/-- No row overflows where texts do not. -/
theorem Target.Sorts.overflowRows_eq_nil {v : View} {c : Coerced α} (h : target.Sorts v c)
    (hexceeds : ∀ text, ¬ target.exceeds text) : c.overflowRows = [] := by
  obtain ⟨outcomes, hclasses, -, hrows, -⟩ := h.sorted
  rw [hrows, List.map_eq_nil_iff, List.filter_eq_nil_iff]
  rintro ⟨outcome, row⟩ hmem hoverflow
  obtain ⟨text?, -, hclass⟩ := exists_of_forall₂ hclasses (List.of_mem_zip hmem).1
  cases hclass with
  | overflow hover => exact hexceeds _ hover
  | _ => cases hoverflow

end Convert

namespace View

variable {α : Type} {target : Convert.Target α} {convert : Kind → List Char → Outcome α}
  {root v : View} {row : Cell} {text? : Option String}

/-! ## The rows of a view -/

/-- The text of a row: the one of the source that writes the value of the row, none if the row is
not there. -/
def TextOf (v : View) (row : Cell) (text? : Option String) : Prop :=
  row = .absent ∧ text? = none ∨
    ∃ text m, text? = some text ∧ Writes m.span.offset text.toList m ∧
      v.source.Shows m.span.offset text.toList ∧ Scanned v.schema m row

theorem textOf_of_stores (h : v.Stores row) :
    v.TextOf row (if row.isAbsent then none else (v.textOf? row).map String.ofList) := by
  rcases h with rfl | ⟨m, hscanned, hread, -⟩
  · exact .inl ⟨rfl, rfl⟩
  · obtain ⟨own, hshows, hwrites⟩ := exists_own_of_readTree hread
    obtain ⟨hpresent, htext⟩ := textOf?_of_writes hshows hwrites hscanned
    refine .inr ⟨String.ofList own, m, ?_, ?_, ?_, hscanned⟩
    · rw [hpresent, htext]
      rfl
    · rwa [String.toList_ofList]
    · rwa [String.toList_ofList]

/-- **A row converts as the class of its text demands.** -/
theorem class_outcome (hfinds : target.Finds convert) (h : v.TextOf row text?) :
    target.Class text? (v.outcome convert row) := by
  rcases h with ⟨rfl, rfl⟩ | ⟨text, m, rfl, hwrites, hshows, hscanned⟩
  · exact .absent
  · obtain ⟨hpresent, htext⟩ := textOf?_of_writes hshows hwrites hscanned
    rw [outcome, hpresent, htext, hscanned.kind_eq]
    exact hfinds hwrites

theorem numberedRows_eq_zip (v : View) : v.numberedRows = v.rows.toList.zip v.rowNumbers := by
  refine List.zip_of_prod (map_fst_numberedRows v) ?_
  rw [numberedRows, List.map_map, rowNumbers, rowCount, ← Array.length_toList, List.range_eq_range',
    ← List.zipIdx_map_snd 0 v.rows.toList, List.map_map]
  rfl

theorem coerce_eq (v : View) (convert : Kind → List Char → Outcome α) : v.coerce convert =
    .ofOutcomes ((v.rows.toList.map (v.outcome convert)).zip v.rowNumbers) := by
  rw [coerce, numberedRows_eq_zip, List.zip_map_left]
  rfl

theorem sorts_coerce (hlawful : target.Lawful) (hfinds : target.Finds convert)
    (htexts : List.Forall₂ v.TextOf v.rows.toList v.toJsonText) :
    target.Sorts v (v.coerce convert) := by
  refine ⟨?_, fun text? _ => Convert.Target.existsUnique_class hlawful text?,
    v.rows.toList.map (v.outcome convert), ?_, values_coerce.trans ?_, ?_, ?_⟩
  · rw [values_coerce, List.length_map, Array.length_toList, rowCount]
  · rw [List.forall₂_map_right_iff]
    exact htexts.flip.imp fun _ _ h => class_outcome hfinds h
  · rw [List.map_map]
    rfl
  · rw [coerce_eq, Coerced.ofOutcomes]
  · rw [coerce_eq, Coerced.ofOutcomes]

/-- All rows of a view are converted as their texts tell. -/
structure Classified (v : View) : Prop where
  texts_of_rows : List.Forall₂ v.TextOf v.rows.toList v.toJsonText
  booleans : Convert.booleans.Sorts v v.toBoolean
  integers : Convert.integers.Sorts v v.toInteger
  reals : Convert.reals.Sorts v v.toReal
  texts : Convert.texts.Sorts v v.toText
  no_overflow : v.toBoolean.overflowRows = [] ∧ v.toText.overflowRows = []
  /-- A literal is beyond the range of doubles when its magnitude is. -/
  exceeds_iff : ∀ text (n : Numeral), some text ∈ v.toJsonText → n.Written text.toList →
    n.Ordinary → (Convert.reals.exceeds text ↔ (Binary64.overflowBound : Rat) ≤ n.magnitude)

/-- **Every row is converted as its own text tells**, over every chain of views. -/
theorem classified {source : ByteSource} {config : Config} (hroot : load source config = .ok root)
    (h : root.Chain v) : v.Classified := by
  have hv := sound_chain hroot h
  have htexts : List.Forall₂ v.TextOf v.rows.toList v.toJsonText := by
    rw [toJsonText, List.forall₂_map_right_iff, List.forall₂_same]
    exact fun row hrow => textOf_of_stores (hv.stores row hrow)
  have hbooleans : Convert.booleans.Sorts v v.toBoolean :=
    sorts_coerce Convert.lawful_booleans Convert.finds_boolean htexts
  have hstrings : Convert.texts.Sorts v v.toText :=
    sorts_coerce Convert.lawful_texts Convert.finds_text htexts
  refine ⟨htexts, hbooleans, sorts_coerce Convert.lawful_integers Convert.finds_integer htexts,
    sorts_coerce Convert.lawful_reals Convert.finds_real htexts, hstrings,
    ⟨hbooleans.overflowRows_eq_nil fun _ => id, hstrings.overflowRows_eq_nil fun _ => id⟩, ?_⟩
  intro text n _ hwritten hordinary
  rw [← Numeral.toBinary64_isFinite_iff hwritten hordinary]
  constructor
  · rintro ⟨n', hwritten', hinfinite⟩
    rwa [hwritten.eq hwritten']
  · exact fun hinfinite => ⟨n, hwritten, hinfinite⟩

/-- Six records of different kinds, two of them numbers beyond a range. -/
def mixedValues : ByteSource :=
  .ofString "true\n2147483648\n-7\n\"x\"\n1e999\nnull\n"

/-- Four of the rows, in reverse. -/
theorem classified_mixedValues : ∃ root v, load mixedValues {} = .ok root ∧ root.Chain v ∧
    v.toInteger = ⟨[none, none, some (-7), none], [2], [5]⟩ ∧ v.Classified := by
  have hrun : ((load mixedValues {}).toOption.bind fun root =>
      (root.select [6, 5, 3, 2]).toOption.map fun v => v.toInteger) =
        some ⟨[none, none, some (-7), none], [2], [5]⟩ := by
    decide +kernel
  obtain ⟨root, hload, hrun⟩ := Option.bind_eq_some_iff.mp hrun
  obtain ⟨v, hselect, hvalues⟩ := Option.map_eq_some_iff.mp hrun
  have hroot := eq_ok_of_toOption hload
  have hchain : root.Chain v := .single (.select (eq_ok_of_toOption hselect))
  exact ⟨root, v, hroot, hchain, hvalues, classified hroot hchain⟩

end View

end JsonLines
