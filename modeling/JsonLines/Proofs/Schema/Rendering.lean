/-
JsonLines.Proofs.Schema.Rendering — the text of a type tells the type.

The printer writes a prefix code: with any text after it, the text of a type says which type it is
and where it ends (`renderWithin_append_inj`). The first character gives the kind away, a quoted
name ends at its quote, and neither a separator nor a closing brace can be taken for a question
mark. What is then known of the parts is what the registry goes by, so the numbers are equal.

The two layouts differ in blanks outside the quoted names alone (`sameInk_renderWithin`).
-/
import JsonLines.Proofs.Json.Literal
import JsonLines.Proofs.Schema.Canonicity
import JsonLines.Schema.Render

namespace JsonLines

open Json

/-! ## Kinds -/

/-- The character that the text of a type starts with. -/
def Kind.initial : Kind → Char
  | .null => 'n'
  | .boolean => 'b'
  | .integer => 'i'
  | .real => 'r'
  | .text => 't'
  | .array => '['
  | .record => '\x7b'
  | .any => 'a'

theorem Kind.initial_injective {k l : Kind} (h : k.initial = l.initial) : k = l := by
  cases k <;> cases l <;> first | rfl | (simp [initial] at h)

/-- A type without parts is its kind. -/
theorem DataType.eq_of_kind_eq {type type' : DataType} (h : type.kind = type'.kind)
    (hsimple : type.kind.isComposite = false) : type = type' := by
  rcases type with _ | _ | _ | _ | _ | _ | (_ | _) <;>
    rcases type' with _ | _ | _ | _ | _ | _ | (_ | _) <;>
    first | rfl | (simp [kind, Kind.isComposite] at h hsimple)

namespace Schema

variable {s : Schema} {multiline multiline' : Bool} {depth level level' : Nat} {a b id : TypeId}
  {type : DataType} {field other : Field} {fields others : List Field}
  {rest rest' raw text : List Char}

/-- The same type stands at one number only. -/
theorem eq_of_get?_eq (ha : s.get? a = some type) (hb : s.get? b = some type) : a = b := by
  have hprimitive := get?_primitive_iff s
  cases type with
  | composite c => exact same_inj ha hb c.same_self
  | null => rw [(hprimitive a).1.mp ha, (hprimitive b).1.mp hb]
  | boolean => rw [(hprimitive a).2.1.mp ha, (hprimitive b).2.1.mp hb]
  | integer => rw [(hprimitive a).2.2.1.mp ha, (hprimitive b).2.2.1.mp hb]
  | real => rw [(hprimitive a).2.2.2.1.mp ha, (hprimitive b).2.2.2.1.mp hb]
  | text => rw [(hprimitive a).2.2.2.2.1.mp ha, (hprimitive b).2.2.2.2.1.mp hb]
  | any => rw [(hprimitive a).2.2.2.2.2.mp ha, (hprimitive b).2.2.2.2.2.mp hb]

/-- The names of all fields are known. -/
def FieldsNamed (s : Schema) : Prop :=
  ∀ id c, s.get? id = some (.composite c) → ∀ n ∈ c.names, (s.name? n).isSome

/-! ## How a type is written -/

/-- The text of a field, whose type nests at most as deep as the number says. -/
def fieldText (s : Schema) (multiline : Bool) (depth level : Nat) (field : Field) : List Char :=
  Literal.quoteChars (s.name field.name).toList ++ ':' :: ' ' ::
    (s.renderWithin multiline depth (level + 1) field.type ++
      (if field.optional then ['?'] else []))

/-- The text of the fields after the first one, and the end of the record. -/
def moreFields (s : Schema) (multiline : Bool) (depth level : Nat) : List Field → List Char
  | [] => (layout multiline level).after ++ ['\x7d']
  | field :: fields => (layout multiline level).between ++
    (s.fieldText multiline depth level field ++ s.moreFields multiline depth level fields)

theorem renderWithin_simple (h : s.get? id = some type)
    (hsimple : type.kind.isComposite = false) :
    s.renderWithin multiline (depth + 1) level id = type.kind.name.toList := by
  rcases type with _ | _ | _ | _ | _ | _ | (_ | _)
  iterate 6 · rw [renderWithin, h]; rfl
  iterate 2 · cases hsimple

theorem renderWithin_array {element : TypeId} (h : s.get? id = some (.composite (.array element))) :
    s.renderWithin multiline (depth + 1) level id =
      '[' :: (s.renderWithin multiline depth level element ++ [']']) := by
  rw [renderWithin, h]

theorem renderWithin_record_nil (h : s.get? id = some (.composite (.record []))) :
    s.renderWithin multiline (depth + 1) level id = ['\x7b', '\x7d'] := by
  rw [renderWithin, h]

theorem intercalate_fieldTexts :
    (layout multiline level).between.intercalate
        ((field :: fields).map (s.fieldText multiline depth level)) ++
      ((layout multiline level).after ++ ['\x7d']) =
    s.fieldText multiline depth level field ++ s.moreFields multiline depth level fields := by
  induction fields generalizing field with
  | nil => simp [List.intercalate_singleton, moreFields]
  | cons next fields ih =>
    rw [List.map_cons, List.map_cons, List.intercalate_cons_cons, ← List.map_cons,
      List.append_assoc, List.append_assoc, ih, moreFields]

theorem renderWithin_record_cons
    (h : s.get? id = some (.composite (.record (field :: fields)))) :
    s.renderWithin multiline (depth + 1) level id = '\x7b' :: ((layout multiline level).before ++
      (s.fieldText multiline depth level field ++
        s.moreFields multiline depth level fields)) := by
  rw [← intercalate_fieldTexts, renderWithin, h]
  simp only [List.append_assoc]
  rfl

/-! ## First characters -/

theorem head?_renderWithin (h : s.get? id = some type) :
    (s.renderWithin multiline (depth + 1) level id ++ rest).head? = some type.kind.initial := by
  rcases type with _ | _ | _ | _ | _ | _ | (element | fields)
  iterate 6 · rw [renderWithin_simple h rfl]; rfl
  · rw [renderWithin_array h]
    rfl
  · cases fields with
    | nil => rw [renderWithin_record_nil h]; rfl
    | cons field fields => rw [renderWithin_record_cons h]; rfl

/-- What follows a field is no question mark, and it tells whether more fields follow. -/
theorem head?_moreFields : (s.moreFields multiline depth level fields ++ rest).head? =
    some (if fields = [] then (if multiline then '\n' else '\x7d') else ',') := by
  cases fields <;> cases multiline <;> rfl

theorem head?_moreFields_ne :
    (s.moreFields multiline depth level fields ++ rest).head? ≠ some '?' := by
  rw [head?_moreFields]
  split
  · split <;> decide
  · decide

theorem head?_before_ne : ((layout multiline level).before ++
    (s.fieldText multiline depth level field ++ rest)).head? ≠ some '\x7d' := by
  cases multiline
  · intro h
    cases h
  · intro h
    cases h

/-! ## Unique readability -/

/-- The text of the type of a field tells the type and where it ends. -/
def Readable (s : Schema) (multiline : Bool) (depth level : Nat) (a b : TypeId) : Prop :=
  ∀ rest rest', s.renderWithin multiline depth level a ++ rest =
    s.renderWithin multiline depth level b ++ rest' → a = b ∧ rest = rest'

/-- The text of a field tells the field, and ends where no question mark follows. -/
theorem fieldText_append_inj (hfield : (s.name? field.name).isSome)
    (hother : (s.name? other.name).isSome)
    (htype : s.Readable multiline depth (level + 1) field.type other.type)
    (hrest : rest.head? ≠ some '?') (hrest' : rest'.head? ≠ some '?')
    (h : s.fieldText multiline depth level field ++ rest =
      s.fieldText multiline depth level other ++ rest') : field = other ∧ rest = rest' := by
  simp only [fieldText, List.append_assoc, List.cons_append] at h
  obtain ⟨hname, h⟩ := Literal.quoteChars_append_inj h
  simp only [List.cons.injEq, true_and] at h
  obtain ⟨hfieldType, h⟩ := htype _ _ h
  have hid : field.name = other.name := by
    obtain ⟨text, htext⟩ := Option.isSome_iff_exists.mp hfield
    obtain ⟨text', htext'⟩ := Option.isSome_iff_exists.mp hother
    have heq : text = text' := by
      simpa only [name, htext, htext', Option.getD_some, String.toList_inj] using hname
    exact name_inj htext (heq ▸ htext')
  have hoptional : field.optional = other.optional ∧ rest = rest' := by
    cases hf : field.optional <;> cases ho : other.optional <;> rw [hf, ho] at h
    · exact ⟨rfl, h⟩
    · exact absurd (congrArg List.head? h) hrest
    · exact absurd (congrArg List.head? h).symm hrest'
    · exact ⟨rfl, (List.cons.inj h).2⟩
  refine ⟨?_, hoptional.2⟩
  cases field
  cases other
  simp_all

theorem moreFields_append_inj (hfields : ∀ f ∈ fields, (s.name? f.name).isSome)
    (hothers : ∀ g ∈ others, (s.name? g.name).isSome)
    (htypes : ∀ f ∈ fields, ∀ g ∈ others, s.Readable multiline depth (level + 1) f.type g.type)
    (h : s.moreFields multiline depth level fields ++ rest =
      s.moreFields multiline depth level others ++ rest') : fields = others ∧ rest = rest' := by
  induction fields generalizing others with
  | nil =>
    cases others with
    | nil => exact ⟨rfl, List.append_cancel_left h⟩
    | cons other others =>
      have hhead := congrArg List.head? h
      rw [head?_moreFields, head?_moreFields] at hhead
      cases multiline <;> cases hhead
  | cons field fields ih =>
    cases others with
    | nil =>
      have hhead := congrArg List.head? h
      rw [head?_moreFields, head?_moreFields] at hhead
      cases multiline <;> cases hhead
    | cons other others =>
      rw [List.forall_mem_cons] at hfields hothers
      rw [moreFields, moreFields, List.append_assoc, List.append_assoc, List.append_assoc,
        List.append_assoc] at h
      obtain ⟨rfl, htail⟩ := fieldText_append_inj hfields.1 hothers.1
        (htypes _ List.mem_cons_self _ List.mem_cons_self) head?_moreFields_ne
        head?_moreFields_ne (List.append_cancel_left h)
      obtain ⟨rfl, hend⟩ := ih hfields.2 hothers.2
        (fun f hf g hg => htypes f (List.mem_cons_of_mem _ hf) g (List.mem_cons_of_mem _ hg)) htail
      exact ⟨rfl, hend⟩

/-- The texts of two records, as those of their fields. -/
theorem record_append_inj (ha : s.get? a = some (.composite (.record fields)))
    (hb : s.get? b = some (.composite (.record others)))
    (hfields : ∀ f ∈ fields, (s.name? f.name).isSome)
    (hothers : ∀ g ∈ others, (s.name? g.name).isSome)
    (htypes : ∀ f ∈ fields, ∀ g ∈ others, s.Readable multiline depth (level + 1) f.type g.type)
    (h : s.renderWithin multiline (depth + 1) level a ++ rest =
      s.renderWithin multiline (depth + 1) level b ++ rest') : fields = others ∧ rest = rest' := by
  cases fields with
  | nil =>
    cases others with
    | nil =>
      rw [renderWithin_record_nil ha, renderWithin_record_nil hb] at h
      exact ⟨rfl, List.append_cancel_left h⟩
    | cons other others =>
      rw [renderWithin_record_nil ha, renderWithin_record_cons hb] at h
      simp only [List.cons_append, List.append_assoc, List.cons.injEq, true_and] at h
      exact absurd (congrArg List.head? h).symm head?_before_ne
  | cons field fields =>
    cases others with
    | nil =>
      rw [renderWithin_record_cons ha, renderWithin_record_nil hb] at h
      simp only [List.cons_append, List.append_assoc, List.cons.injEq, true_and] at h
      exact absurd (congrArg List.head? h) head?_before_ne
    | cons other others =>
      rw [renderWithin_record_cons ha, renderWithin_record_cons hb] at h
      simp only [List.cons_append, List.append_assoc, List.cons.injEq, true_and] at h
      refine moreFields_append_inj hfields hothers htypes ?_
      simp only [moreFields, List.append_assoc, List.append_cancel_left h]

/-- **The text of a type tells the type and where it ends**, whatever follows it. -/
theorem renderWithin_append_inj (hs : s.WellFormed) (hn : s.FieldsNamed) (ha : s.Knows a)
    (hb : s.Knows b) (hda : a.index < depth) (hdb : b.index < depth) :
    s.Readable multiline depth level a b := by
  induction depth generalizing level a b with
  | zero => exact absurd hda (Nat.not_lt_zero _)
  | succ depth ih =>
    intro rest rest' h
    obtain ⟨type, hta⟩ := exists_get? ha
    obtain ⟨type', htb⟩ := exists_get? hb
    -- The first character gives the kind away, and from then on both texts are read in step.
    have hkind : type.kind = type'.kind := by
      have hhead := congrArg List.head? h
      rw [head?_renderWithin hta, head?_renderWithin htb] at hhead
      exact Kind.initial_injective (Option.some.inj hhead)
    -- Numbers of the parts are equal by induction, so the types are, and a type has one number.
    suffices htype : type = type' ∧ rest = rest' from
      ⟨eq_of_get?_eq hta (htype.1 ▸ htb), htype.2⟩
    cases hsimple : type.kind.isComposite with
    | false =>
      obtain rfl := DataType.eq_of_kind_eq hkind hsimple
      rw [renderWithin_simple hta hsimple, renderWithin_simple htb hsimple] at h
      exact ⟨rfl, List.append_cancel_left h⟩
    | true =>
      rcases type with _ | _ | _ | _ | _ | _ | (element | fields)
      iterate 6 · cases hsimple
      · rcases type' with _ | _ | _ | _ | _ | _ | (element' | fields')
        iterate 6 · cases hkind
        · have hlt := hs.element_lt hta
          have hlt' := hs.element_lt htb
          rw [renderWithin_array hta, renderWithin_array htb] at h
          simp only [List.cons_append, List.append_assoc, List.cons.injEq, true_and] at h
          obtain ⟨rfl, hrest⟩ := ih (hs.knows_element hta) (hs.knows_element htb) (by omega)
            (by omega) _ _ h
          exact ⟨rfl, (List.cons.inj hrest).2⟩
        · cases hkind
      · rcases type' with _ | _ | _ | _ | _ | _ | (element' | fields')
        iterate 7 · cases hkind
        · obtain ⟨rfl, hrest⟩ := record_append_inj hta htb
            (fun f hf => hn a _ hta f.name (List.mem_map_of_mem hf))
            (fun g hg => hn b _ htb g.name (List.mem_map_of_mem hg))
            (fun f hf g hg => ih (hs.knows_field hta f hf) (hs.knows_field htb g hg)
              (by have := hs.field_lt hta f hf; omega) (by have := hs.field_lt htb g hg; omega)) h
          exact ⟨rfl, hrest⟩

/-! ## Blanks -/

/-- The characters without the blanks outside quotes; the first argument says whether they start
inside quotes. Between quotes, a backslash and the character after it stand for one. -/
def squeezeFrom : Bool → List Char → List Char
  | _, [] => []
  | true, '\\' :: ch :: rest => '\\' :: ch :: squeezeFrom true rest
  | true, ch :: rest => ch :: squeezeFrom (ch != '"') rest
  | false, ch :: rest =>
    if ch.isWhitespace then squeezeFrom false rest else ch :: squeezeFrom (ch == '"') rest

/-- A text without the blanks outside quotes. -/
def squeeze (text : String) : String := String.ofList (squeezeFrom false text.toList)

/-- The texts differ in blanks alone, and leave no quote open. -/
def SameInk (cs ds : List Char) : Prop :=
  ∀ rest rest', squeezeFrom false rest = squeezeFrom false rest' →
    squeezeFrom false (cs ++ rest) = squeezeFrom false (ds ++ rest')

variable {cs ds cs' ds' : List Char}

theorem SameInk.append (h : SameInk cs ds) (h' : SameInk cs' ds') :
    SameInk (cs ++ cs') (ds ++ ds') := by
  intro rest rest' hrest
  rw [List.append_assoc, List.append_assoc]
  exact h _ _ (h' _ _ hrest)

theorem squeezeFrom_append (h : '"' ∉ cs) :
    squeezeFrom false (cs ++ rest) =
      cs.filter (fun ch => !ch.isWhitespace) ++ squeezeFrom false rest := by
  induction cs with
  | nil => rfl
  | cons ch cs ih =>
    rw [List.mem_cons, not_or] at h
    have hquote : (ch == '"') = false := by simpa using Ne.symm h.1
    rw [List.cons_append, squeezeFrom, hquote, ih h.2, List.filter_cons]
    cases ch.isWhitespace <;> rfl

/-- Texts without quotes. -/
theorem sameInk_of_filter_eq (hcs : '"' ∉ cs) (hds : '"' ∉ ds)
    (h : cs.filter (fun ch => !ch.isWhitespace) = ds.filter (fun ch => !ch.isWhitespace)) :
    SameInk cs ds := by
  intro rest rest' hrest
  rw [squeezeFrom_append hcs, squeezeFrom_append hds, h, hrest]

theorem sameInk_self (cs : List Char) (h : '"' ∉ cs) : SameInk cs cs :=
  sameInk_of_filter_eq h h rfl

/-- Between quotes a character stays that is neither a quote nor a backslash. -/
theorem squeezeFrom_plain {ch : Char} (hquote : ch ≠ '"') (hslash : ch ≠ '\\') :
    squeezeFrom true (ch :: rest) = ch :: squeezeFrom true rest := by
  have hne : (ch != '"') = true := by simpa using hquote
  rw [squeezeFrom, hne]
  exact fun _ _ h _ => hslash h

theorem ne_of_hexValue? {ch : Char} {n : Nat} (h : Literal.hexValue? ch = some n) :
    ch ≠ '"' ∧ ch ≠ '\\' := by
  constructor <;> (rintro rfl; cases h)

/-- Between quotes nothing is left out. -/
theorem squeezeFrom_written (rest : List Char) (h : Literal.Written raw) :
    squeezeFrom true (raw ++ '"' :: rest) = raw ++ '"' :: squeezeFrom false rest := by
  induction h with
  | nil => rfl
  | plain _ hquote hslash _ ih =>
    rw [List.cons_append, squeezeFrom_plain hquote hslash, ih, List.cons_append]
  | escape _ _ ih => simp only [List.cons_append, squeezeFrom, ih]
  | unicode hquad _ ih =>
    unfold Literal.hexQuad? at hquad
    split at hquad
    · rename_i ha hb hc hd
      simp only [List.cons_append, squeezeFrom, ih,
        squeezeFrom_plain (ne_of_hexValue? ha).1 (ne_of_hexValue? ha).2,
        squeezeFrom_plain (ne_of_hexValue? hb).1 (ne_of_hexValue? hb).2,
        squeezeFrom_plain (ne_of_hexValue? hc).1 (ne_of_hexValue? hc).2,
        squeezeFrom_plain (ne_of_hexValue? hd).1 (ne_of_hexValue? hd).2]
    · cases hquad

theorem squeezeFrom_quoteChars : squeezeFrom false (Literal.quoteChars text ++ rest) =
    Literal.quoteChars text ++ squeezeFrom false rest := by
  have hblank : '"'.isWhitespace = false := by decide
  have hwritten := squeezeFrom_written rest (Literal.spells_escape text).written
  simp only [Literal.quoteChars, List.cons_append, List.append_assoc, List.nil_append]
  rw [squeezeFrom, hblank, beq_self_eq_true, hwritten]
  rfl

theorem sameInk_quoteChars : SameInk (Literal.quoteChars text) (Literal.quoteChars text) := by
  intro rest rest' hrest
  rw [squeezeFrom_quoteChars, squeezeFrom_quoteChars, hrest]

theorem not_mem_indent : '"' ∉ indent level := by
  simp [indent]

theorem filter_indent : (indent level).filter (fun ch => !ch.isWhitespace) = [] := by
  simp [indent, Char.isWhitespace]

theorem sameInk_before :
    SameInk (layout multiline level).before (layout multiline' level').before := by
  refine sameInk_of_filter_eq ?_ ?_ ?_ <;> cases multiline <;> cases multiline' <;>
    simp [layout, not_mem_indent, filter_indent]

theorem sameInk_between :
    SameInk (layout multiline level).between (layout multiline' level').between := by
  have hcomma : ','.isWhitespace = false := by decide
  have hspace : ' '.isWhitespace = true := by decide
  refine sameInk_of_filter_eq ?_ ?_ ?_ <;> cases multiline <;> cases multiline' <;>
    simp [layout, not_mem_indent, filter_indent, hcomma, hspace]

theorem sameInk_after :
    SameInk (layout multiline level).after (layout multiline' level').after := by
  refine sameInk_of_filter_eq ?_ ?_ ?_ <;> cases multiline <;> cases multiline' <;>
    simp [layout, not_mem_indent, filter_indent]

theorem sameInk_fieldText
    (h : SameInk (s.renderWithin multiline depth (level + 1) field.type)
      (s.renderWithin multiline' depth (level' + 1) field.type)) :
    SameInk (s.fieldText multiline depth level field)
      (s.fieldText multiline' depth level' field) := by
  have hmark : '"' ∉ (if field.optional then ['?'] else []) := by
    cases field.optional <;> decide
  exact sameInk_quoteChars.append
    (.append (sameInk_self [':', ' '] (by decide)) (h.append (sameInk_self _ hmark)))

theorem sameInk_moreFields
    (h : ∀ f ∈ fields, SameInk (s.renderWithin multiline depth (level + 1) f.type)
      (s.renderWithin multiline' depth (level' + 1) f.type)) :
    SameInk (s.moreFields multiline depth level fields)
      (s.moreFields multiline' depth level' fields) := by
  induction fields with
  | nil => exact sameInk_after.append (sameInk_self _ (by decide))
  | cons field fields ih =>
    rw [List.forall_mem_cons] at h
    exact sameInk_between.append ((sameInk_fieldText h.1).append (ih h.2))

/-- **The layouts differ in blanks outside the quoted names alone.** -/
theorem sameInk_renderWithin : SameInk (s.renderWithin multiline depth level id)
    (s.renderWithin multiline' depth level' id) := by
  induction depth generalizing level level' id with
  | zero => exact sameInk_self Kind.any.name.toList (by decide)
  | succ depth ih =>
    cases htype : s.get? id with
    | none =>
      rw [renderWithin, renderWithin, htype]
      exact sameInk_self Kind.any.name.toList (by decide)
    | some type =>
      rcases type with _ | _ | _ | _ | _ | _ | (element | fields)
      iterate 6
        · rw [renderWithin_simple htype rfl, renderWithin_simple htype rfl]
          exact sameInk_self _ (by decide)
      · rw [renderWithin_array htype, renderWithin_array htype]
        exact .append (sameInk_self ['['] (by decide))
          (ih.append (sameInk_self _ (by decide)))
      · cases fields with
        | nil =>
          rw [renderWithin_record_nil htype, renderWithin_record_nil htype]
          exact sameInk_self _ (by decide)
        | cons field fields =>
          rw [renderWithin_record_cons htype, renderWithin_record_cons htype]
          exact .append (sameInk_self ['\x7b'] (by decide))
            (sameInk_before.append ((sameInk_fieldText ih).append
              (sameInk_moreFields fun _ _ => ih)))

/-! ## What the texts say -/

/-- Types are never shown alike, on one line or on several. -/
structure RendersApart (s : Schema) : Prop where
  display_eq_iff : ∀ a b, s.Knows a → s.Knows b → (s.display a = s.display b ↔ a = b)
  pretty_eq_iff : ∀ a b, s.Knows a → s.Knows b → (s.pretty a = s.pretty b ↔ a = b)
  /-- Both texts say the same. -/
  squeeze_eq : ∀ id, squeeze (s.pretty id) = squeeze (s.display id)

theorem renderWithin_eq_iff (hs : s.WellFormed) (hn : s.FieldsNamed) (ha : s.Knows a)
    (hb : s.Knows b) :
    s.renderWithin multiline s.size level a = s.renderWithin multiline s.size level b ↔ a = b := by
  constructor
  · intro h
    exact (renderWithin_append_inj hs hn ha hb ha hb [] [] (by rw [h])).1
  · rintro rfl
    rfl

/-- **Type texts are unambiguous** where the names of all fields are known. -/
theorem rendersApart (hs : s.WellFormed) (hn : s.FieldsNamed) : s.RendersApart where
  display_eq_iff a b ha hb := by
    rw [display, display, String.ofList_inj]
    exact renderWithin_eq_iff hs hn ha hb
  pretty_eq_iff a b ha hb := by
    rw [pretty, pretty, String.ofList_inj]
    exact renderWithin_eq_iff hs hn ha hb
  squeeze_eq id := by
    have h : squeezeFrom false (s.renderWithin true s.size 0 id ++ []) =
        squeezeFrom false (s.renderWithin false s.size 0 id ++ []) :=
      sameInk_renderWithin [] [] rfl
    simpa only [squeeze, pretty, display, String.toList_ofList, List.append_nil] using
      congrArg String.ofList h

end Schema

end JsonLines
