/-
JsonLines.Proofs.Scan.Denotation — what the value of a text is as a JSON value.

`Denotes node value` says by recursion on the placed value what its JSON value is: numbers and texts
as they are read, items in their order, members under the names that they spell. An object that
begins with the name for the text of another value stands for that value. There are no places in it
and no bound on how deep containers nest, but in a string, whose text is read for itself.

`Value.parse` reads texts that are held in strings by itself again, with a number of levels that
runs down. A held text is shorter than the text it is held in, so the levels never run out
(`parseWithin_eq_ok_iff`), and what is read is what the text denotes, wherever it stands
(`parse_eq_ok_iff`).
-/
import JsonLines.Proofs.Collecting
import JsonLines.Proofs.Json.Shifting
import JsonLines.Proofs.Scan.Legibility

namespace JsonLines

open Json Json.Value

variable {source : ByteSource} {span : Span} {node : Node} {items : List Node}
  {members others : List (Key × Node)} {key : Key} {value : Value} {raw cs text : List Char}
  {embed : List Char → Except LocatedFault Value} {around : Cursor} {depth levels k : Nat}

namespace Json

/-- The JSON value of a placed value. -/
inductive Denotes : Node → Value → Prop where
  | null {span : Span} : Denotes (.null span) .null
  | boolean {span : Span} {b : Bool} : Denotes (.boolean span b) (.boolean b)
  | number {span : Span} {numeral : Numeral} {n : Number} : Number.ofNumeral 0 numeral = .ok n →
    Denotes (.number span numeral) (.number n)
  | text {span : Span} {raw : List Char} {text : String} : Literal.Spells raw text.toList →
    Denotes (.text span raw) (.string text)
  | array {span : Span} {items : List Node} {values : List Value} : items.length = values.length →
    (∀ item value, (item, value) ∈ items.zip values → Denotes item value) →
      Denotes (.array span items) (.array values)
  | object {span : Span} {members : List (Key × Node)} {named : List (String × Value)} :
    ¬ Embeds members → members.length = named.length →
      (∀ m entry, (m, entry) ∈ members.zip named → m.1.Spells entry.1) →
        (∀ m entry, (m, entry) ∈ members.zip named → Denotes m.2 entry.2) →
          Denotes (.object span members) (.ofMembers named)
  | embedded {span : Span} {key : Key} {node inner : Node} {text : List Char} {value : Value} :
    key.Spells embeddedName → node.Spells text → Document 0 text inner →
      inner.nesting < nestingLimit → Denotes inner value →
        Denotes (.object span [(key, node)]) value

/-- The text writes one value between blanks, and that denotes the JSON value and nests less than
128 deep. -/
def ReadsAs (cs : List Char) (value : Value) : Prop :=
  ∃ node, Document 0 cs node ∧ Denotes node value ∧ node.nesting < nestingLimit

theorem denotes_array_iff : Denotes (.array span items) value ↔
    ∃ values, value = .array values ∧ List.Forall₂ Denotes items values := by
  simp only [List.forall₂_iff_zip]
  constructor
  · rintro ⟨⟩
    rename_i values hlength hitems
    exact ⟨values, rfl, hlength, fun h => hitems _ _ h⟩
  · rintro ⟨values, rfl, hlength, hitems⟩
    exact .array hlength fun _ _ h => hitems h

/-- A member under its name. -/
def MemberDenotes (member : Key × Node) (entry : String × Value) : Prop :=
  member.1.Spells entry.1 ∧ Denotes member.2 entry.2

theorem denotes_object_iff (h : ¬ Embeds members) : Denotes (.object span members) value ↔
    ∃ named, value = .ofMembers named ∧ List.Forall₂ MemberDenotes members named := by
  simp only [List.forall₂_iff_zip]
  constructor
  · intro hvalue
    cases hvalue with
    | object _ hlength hnames hvalues =>
      exact ⟨_, rfl, hlength, fun hm => ⟨hnames _ _ hm, hvalues _ _ hm⟩⟩
    | embedded hkey _ _ _ _ => exact absurd ⟨_, _, _, rfl, hkey⟩ h
  · rintro ⟨named, rfl, hlength, hmembers⟩
    exact .object h hlength (fun _ _ hm => (hmembers hm).1) fun _ _ hm => (hmembers hm).2

theorem denotes_embedding_iff (h : key.Spells embeddedName) :
    Denotes (.object span ((key, node) :: others)) value ↔
      others = [] ∧ ∃ text, node.Spells text ∧ ReadsAs text value := by
  constructor
  · intro hvalue
    cases hvalue with
    | object hembeds _ _ _ => exact absurd ⟨_, _, _, rfl, h⟩ hembeds
    | embedded _ hspells hdoc hnesting hinner =>
      exact ⟨rfl, _, hspells, _, hdoc, hinner, hnesting⟩
  · rintro ⟨rfl, text, hspells, inner, hdoc, hinner, hnesting⟩
    exact .embedded h hspells hdoc hnesting hinner

/-- **What is legible has a JSON value**, and nothing else has. -/
theorem Node.legible_iff : node.Legible ↔ ∃ value, Denotes node value := by
  constructor
  · intro h
    induction h with
    | null => exact ⟨_, .null⟩
    | boolean => exact ⟨_, .boolean⟩
    | number h =>
      obtain ⟨n, hn⟩ := h
      exact ⟨_, .number hn⟩
    | @text span raw text h =>
      rw [← String.toList_ofList (l := text)] at h
      exact ⟨_, .text h⟩
    | array _ ih =>
      obtain ⟨values, hvalues⟩ := exists_forall₂_iff.mpr ih
      exact ⟨_, denotes_array_iff.mpr ⟨values, rfl, hvalues⟩⟩
    | object hembeds hnames _ ih =>
      have hmembers : ∀ m ∈ _, ∃ entry, MemberDenotes m entry := fun m hm => by
        obtain ⟨name, hname⟩ := hnames m hm
        obtain ⟨value, hvalue⟩ := ih m hm
        exact ⟨(name, value), hname, hvalue⟩
      obtain ⟨named, hnamed⟩ := exists_forall₂_iff.mpr hmembers
      exact ⟨_, (denotes_object_iff hembeds).mpr ⟨named, rfl, hnamed⟩⟩
    | embedded hkey hspells hdoc hnesting _ ih =>
      obtain ⟨value, hvalue⟩ := ih
      exact ⟨value, .embedded hkey hspells hdoc hnesting hvalue⟩
  · rintro ⟨value, h⟩
    induction h with
    | null => exact .null
    | boolean => exact .boolean
    | number h => exact .number ⟨_, h⟩
    | text h => exact .text h
    | array hlength _ ih =>
      refine .array fun item hitem => ?_
      have hall : List.Forall₂ (fun (item : Node) _ => item.Legible) _ _ :=
        List.forall₂_iff_zip.mpr ⟨hlength, fun h => ih _ _ h⟩
      obtain ⟨_, -, h⟩ := exists_of_forall₂ hall.flip hitem
      exact h
    | object hembeds hlength hnames _ ih =>
      have hall : List.Forall₂
          (fun (m : Key × Node) _ => (∃ name, m.1.Spells name) ∧ m.2.Legible) _ _ :=
        List.forall₂_iff_zip.mpr ⟨hlength, fun h => ⟨⟨_, hnames _ _ h⟩, ih _ _ h⟩⟩
      refine .object hembeds (fun m hm => ?_) fun m hm => ?_
      · obtain ⟨_, -, h⟩ := exists_of_forall₂ hall.flip hm
        exact h.1
      · obtain ⟨_, -, h⟩ := exists_of_forall₂ hall.flip hm
        exact h.2
    | embedded hkey hspells hdoc hnesting _ ih => exact .embedded hkey hspells hdoc hnesting ih

/-! ## Reading a value -/

/-- The texts of the value are written as literals are. -/
def Node.WrittenTexts (node : Node) : Prop :=
  ∀ span raw, (Node.text span raw).Part node → Literal.Written raw

/-- What reading a value asks of it: texts and names are written as literals are, and the texts that
its strings spell are read by `embed` as what they denote. -/
structure Node.Readable (embed : List Char → Except LocatedFault Value) (node : Node) : Prop where
  texts : node.WrittenTexts
  names : node.WrittenNames
  held : ∀ (m : Node) (text : List Char), m.Part node → m.Spells text →
    ∀ value, embed text = .ok value ↔ ReadsAs text value

theorem Node.Readable.part {m : Node} (h : node.Readable embed) (hm : m.Part node) :
    m.Readable embed where
  texts span raw hpart := h.texts span raw (hpart.trans hm)
  names span members hpart := h.names span members (hpart.trans hm)
  held m' text hpart := h.held m' text (hpart.trans hm)

theorem collects_ofNodes (embed : List Char → Except LocatedFault Value) (around : Cursor)
    (depth : Nat) : Collects (ofNodes embed around depth) (ofNode embed around depth) where
  nil := rfl
  cons node nodes := by
    rw [ofNodes]
    cases ofNode embed around depth node with
    | error e => rfl
    | ok value => cases ofNodes embed around depth nodes <;> rfl

/-- The name and the value of a member. -/
def ofMemberNode (embed : List Char → Except LocatedFault Value) (around : Cursor) (depth : Nat)
    (member : Key × Node) : Except Refusal (String × Value) :=
  match member.1.decode with
  | .error e => .error (.fault e)
  | .ok name =>
    match ofNode embed around depth member.2 with
    | .error e => .error e
    | .ok value => .ok (String.ofList name, value)

theorem collects_ofMemberNodes (embed : List Char → Except LocatedFault Value) (around : Cursor)
    (depth : Nat) :
    Collects (ofMemberNodes embed around depth) (ofMemberNode embed around depth) where
  nil := rfl
  cons member members := by
    obtain ⟨key, node⟩ := member
    rw [ofMemberNodes, ofMemberNode]
    cases key.decode with
    | error e => rfl
    | ok name =>
      dsimp only
      cases ofNode embed around depth node with
      | error e => rfl
      | ok value => cases ofMemberNodes embed around depth members <;> rfl

theorem ofMemberNode_eq_ok_iff {member : Key × Node} {entry : String × Value}
    (h : Literal.Written member.1.raw) : ofMemberNode embed around depth member = .ok entry ↔
      member.1.Spells entry.1 ∧ ofNode embed around depth member.2 = .ok entry.2 := by
  obtain ⟨name, value⟩ := entry
  rw [← Key.name?_eq_some_iff h, Key.name?, ofMemberNode]
  cases member.1.decode with
  | error e => simp
  | ok chars => cases ofNode embed around depth member.2 <;> simp

theorem heldText_eq_ok_iff (h : node.WrittenTexts) :
    heldText node = .ok text ↔ node.Spells text := by
  cases node with
  | text place raw =>
    rw [heldText, Key.decode_eq_ok_iff (h place raw .self)]
    simp [Node.Spells]
  | number span numeral =>
    rw [heldText]
    cases Number.ofNumeral span.stop numeral <;> simp [Node.Spells]
  | _ => simp [heldText, Node.Spells]

theorem ofEmbedded_eq_ok_iff (h : node.WrittenTexts) :
    ofEmbedded embed around ((key, node) :: others) = .ok value ↔
      others = [] ∧ ∃ text, node.Spells text ∧ embed text = .ok value := by
  simp only [← heldText_eq_ok_iff h]
  rw [ofEmbedded]
  cases heldText node with
  | error e => simp
  | ok inner =>
    simp only [Except.ok.injEq, exists_eq_left']
    cases embed inner with
    | error e => simp
    | ok result => cases others <;> simp

theorem ofNode_null_eq_ok_iff :
    ofNode embed around depth (.null span) = .ok value ↔ Denotes (.null span) value := by
  constructor
  · rintro ⟨⟩
    exact .null
  · rintro ⟨⟩
    rfl

theorem ofNode_boolean_eq_ok_iff {b : Bool} :
    ofNode embed around depth (.boolean span b) = .ok value ↔ Denotes (.boolean span b) value := by
  constructor
  · rintro ⟨⟩
    exact .boolean
  · rintro ⟨⟩
    rfl

theorem ofNode_number_eq_ok_iff {numeral : Numeral} :
    ofNode embed around depth (.number span numeral) = .ok value ↔
      Denotes (.number span numeral) value := by
  have hdenotes : Denotes (.number span numeral) value ↔
      ∃ n, Number.ofNumeral span.stop numeral = .ok n ∧ value = .number n := by
    simp only [ofNumeral_eq_ok_iff span.stop]
    constructor
    · rintro ⟨⟩
      exact ⟨_, ‹_›, rfl⟩
    · rintro ⟨n, hn, rfl⟩
      exact .number hn
  rw [hdenotes, ofNode]
  cases Number.ofNumeral span.stop numeral <;> simp [eq_comm]

theorem ofNode_text_eq_ok_iff (h : Literal.Written raw) :
    ofNode embed around depth (.text span raw) = .ok value ↔ Denotes (.text span raw) value := by
  have hdenotes : Denotes (.text span raw) value ↔
      ∃ text, Key.decode ⟨span.offset + 1, raw⟩ = .ok text ∧ value = .string (.ofList text) := by
    have hdecode : ∀ {cs}, Key.decode ⟨span.offset + 1, raw⟩ = .ok cs ↔ Literal.Spells raw cs :=
      Key.decode_eq_ok_iff h
    simp only [hdecode]
    constructor
    · rintro ⟨⟩
      exact ⟨_, ‹_›, by rw [String.ofList_toList]⟩
    · rintro ⟨text, htext, rfl⟩
      exact .text (by rwa [String.toList_ofList])
  rw [hdenotes, ofNode]
  cases Key.decode ⟨span.offset + 1, raw⟩ <;> simp [eq_comm]

theorem ofNode_array_eq_ok_iff : ofNode embed around depth (.array span items) = .ok value ↔
    depth + 1 < nestingLimit ∧ ∃ values, value = .array values ∧
      List.Forall₂ (fun item value => ofNode embed around (depth + 1) item = .ok value)
        items values := by
  simp only [← (collects_ofNodes embed around (depth + 1)).eq_ok_iff]
  rw [ofNode]
  split
  · exact iff_of_false (by simp) (by omega)
  · rename_i hlt
    rw [and_iff_right (Nat.lt_of_not_le hlt)]
    cases ofNodes embed around (depth + 1) items <;> simp [eq_comm]

/-- An object that begins with another name than the special one is read by its members. -/
theorem ofNode_object_eq_ok_iff (h : embedsText members = false) :
    ofNode embed around depth (.object span members) = .ok value ↔
      depth + 1 < nestingLimit ∧ ∃ named, value = .ofMembers named ∧
        List.Forall₂ (fun m entry => ofMemberNode embed around (depth + 1) m = .ok entry)
          members named := by
  simp only [← (collects_ofMemberNodes embed around (depth + 1)).eq_ok_iff]
  rw [ofNode, h]
  split
  · exact iff_of_false (by simp) (by omega)
  · rename_i hlt
    rw [and_iff_right (Nat.lt_of_not_le hlt)]
    cases ofMemberNodes embed around (depth + 1) members <;> simp [eq_comm]

theorem ofNode_embedding_eq_ok_iff (h : embedsText members = true) :
    ofNode embed around depth (.object span members) = .ok value ↔
      depth + 1 < nestingLimit ∧ ofEmbedded embed around members = .ok value := by
  rw [ofNode, h]
  split
  · exact iff_of_false (by simp) (by omega)
  · rename_i hlt
    rw [and_iff_right (Nat.lt_of_not_le hlt)]
    rfl

/-- A value that spells a text is no container. -/
theorem Node.Spells.nesting_eq (h : node.Spells text) : node.nesting = 0 := by
  obtain ⟨place, raw, rfl, -⟩ := h
  rfl

/-- **When a value is read, and as what**: as what it denotes, if fewer than 128 containers stand
around each other. -/
theorem ofNode_eq_ok_iff (h : node.Readable embed) (hdepth : depth < nestingLimit) :
    ofNode embed around depth node = .ok value ↔
      Denotes node value ∧ depth + node.nesting < nestingLimit := by
  induction node generalizing depth value with
  | null span => exact ofNode_null_eq_ok_iff.trans (and_iff_left hdepth).symm
  | boolean span b => exact ofNode_boolean_eq_ok_iff.trans (and_iff_left hdepth).symm
  | number span numeral => exact ofNode_number_eq_ok_iff.trans (and_iff_left hdepth).symm
  | text span raw =>
    exact (ofNode_text_eq_ok_iff (h.texts span raw .self)).trans (and_iff_left hdepth).symm
  | array span items ih =>
    have hitems : depth + 1 < nestingLimit → ∀ item ∈ items, ∀ value,
        ofNode embed around (depth + 1) item = .ok value ↔
          item.nesting ≤ nestingLimit - 1 - (depth + 1) ∧ Denotes item value :=
      fun hlt item hitem value => by
        rw [ih item hitem (h.part (.item hitem .self)) hlt, and_comm]
        exact and_congr_left' (by omega)
    rw [ofNode_array_eq_ok_iff, denotes_array_iff, Node.nesting]
    constructor
    · rintro ⟨hlt, values, rfl, hvalues⟩
      rw [forall₂_congr_of_mem (hitems hlt), List.forall₂_and_left,
        ← nestingOfItems_le_iff] at hvalues
      exact ⟨⟨values, rfl, hvalues.2⟩, by omega⟩
    · rintro ⟨⟨values, rfl, hvalues⟩, hlt⟩
      refine ⟨by omega, values, rfl, ?_⟩
      rw [forall₂_congr_of_mem (hitems (by omega)), List.forall₂_and_left, ← nestingOfItems_le_iff]
      exact ⟨by omega, hvalues⟩
  | object span members ih =>
    have hnames := h.names span members .self
    have hembeds := embedsText_iff hnames
    rw [Node.nesting]
    cases htext : embedsText members with
    | true =>
      obtain ⟨key, node, others, rfl, hkey⟩ := hembeds.mp htext
      have hnode : node.Part (.object span ((key, node) :: others)) :=
        .member List.mem_cons_self .self
      have hheld : (∃ text, node.Spells text ∧ embed text = .ok value) ↔
          ∃ text, node.Spells text ∧ ReadsAs text value :=
        exists_congr fun text => and_congr_right fun hspells => h.held node text hnode hspells value
      rw [ofNode_embedding_eq_ok_iff htext, ofEmbedded_eq_ok_iff (h.part hnode).texts, hheld,
        denotes_embedding_iff hkey, and_comm]
      refine and_congr_right ?_
      rintro ⟨rfl, text, hspells, -⟩
      rw [nestingOfMembers, nestingOfMembers, hspells.nesting_eq]
      omega
    | false =>
      have hplain : ¬ Embeds members := fun hm => by simp [hembeds.mpr hm] at htext
      have hmembers : depth + 1 < nestingLimit → ∀ m ∈ members, ∀ entry,
          ofMemberNode embed around (depth + 1) m = .ok entry ↔
            m.2.nesting ≤ nestingLimit - 1 - (depth + 1) ∧ MemberDenotes m entry :=
        fun hlt m hm entry => by
          rw [ofMemberNode_eq_ok_iff (hnames m hm), ih m hm (h.part (.member hm .self)) hlt,
            MemberDenotes, ← and_assoc, and_comm]
          exact and_congr_left' (by omega)
      rw [ofNode_object_eq_ok_iff htext, denotes_object_iff hplain]
      constructor
      · rintro ⟨hlt, named, rfl, hnamed⟩
        rw [forall₂_congr_of_mem (hmembers hlt),
          @List.forall₂_and_left _ _ _ (fun m : Key × Node => m.2.nesting ≤ _),
          ← nestingOfMembers_le_iff] at hnamed
        exact ⟨⟨named, rfl, hnamed.2⟩, by omega⟩
      · rintro ⟨⟨named, rfl, hnamed⟩, hlt⟩
        refine ⟨by omega, named, rfl, ?_⟩
        rw [forall₂_congr_of_mem (hmembers (by omega)),
          @List.forall₂_and_left _ _ _ (fun m : Key × Node => m.2.nesting ≤ _),
          ← nestingOfMembers_le_iff]
        exact ⟨by omega, hnamed⟩

/-! ## Reading texts -/

theorem Writes.writtenTexts {p : Nat} (h : Writes p cs node) : node.WrittenTexts := by
  intro span raw hpart
  obtain ⟨before, own, after, -, hown⟩ := h.holds hpart
  exact hown.2.2

/-- A text that parses writes the value that is parsed and no other. -/
theorem document_iff_of_parse {p : Nat} {m : Node} (h : Node.parse p cs = .ok node) :
    Document p cs m ↔ node = m := by
  rw [Document, ← Node.parse_eq_ok_iff, h, Except.ok.injEq]

/-- A text that a value holds in a string is shorter than the text of the value. -/
theorem Document.length_lt {p : Nat} {m : Node} (h : Document p cs node) (hm : m.Part node)
    (hspells : m.Spells text) : text.length < cs.length := by
  obtain ⟨before, own, after, rfl, -, hwrites, -⟩ := h
  obtain ⟨place, raw, rfl, hraw⟩ := hspells
  obtain ⟨before', own', after', rfl, hown⟩ := hwrites.holds hm
  obtain ⟨-, rfl, -⟩ := hown
  have hle := hraw.length_le
  simp only [List.length_append, List.length_cons]
  omega

/-- **There are always enough levels**: a text that is shorter than there are levels is read as what
it denotes. -/
theorem parseWithin_eq_ok_iff (h : cs.length < levels) :
    parseWithin levels cs = .ok value ↔ ReadsAs cs value := by
  induction levels generalizing cs value with
  | zero => exact absurd h (Nat.not_lt_zero _)
  | succ levels ih =>
    rw [parseWithin, ReadsAs]
    cases hparse : Node.parse 0 cs with
    | error fault =>
      refine iff_of_false (by simp) ?_
      rintro ⟨node, hdoc, -⟩
      cases hparse.symm.trans (Node.parse_eq_ok_iff.mpr hdoc)
    | ok node =>
      have hdoc : Document 0 cs node := Node.parse_eq_ok_iff.mp hparse
      have hreadable : node.Readable (parseWithin levels) := by
        refine ⟨?_, hdoc.writtenNames, fun m text hm hspells value => ?_⟩
        · obtain ⟨before, own, after, -, -, hwrites, -⟩ := hdoc
          exact hwrites.writtenTexts
        · have hlt := hdoc.length_lt hm hspells
          exact ih (by omega)
      have hvalue := @ofNode_eq_ok_iff node value _ ⟨0, cs⟩ 0 hreadable (by decide)
      rw [Nat.zero_add] at hvalue
      simp only [document_iff_of_parse hparse, exists_eq_left', ← hvalue]
      cases ofNode (parseWithin levels) ⟨0, cs⟩ 0 node <;> simp

/-- **What a text is read as** is what it denotes. -/
theorem Value.parse_eq_ok_iff : Value.parse cs = .ok value ↔ ReadsAs cs value :=
  parseWithin_eq_ok_iff (Nat.lt_succ_self _)

example : (Value.parse "\x7b\"$serde_json::private::RawValue\":\"[1, 2]\"\x7d".toList).toOption.map
    Value.compact = some "[1,2]" := by decide +kernel

/-! ## Values elsewhere -/

theorem shiftItems_eq_map (k : Nat) (items : List Node) :
    Node.shiftItems k items = items.map (Node.shift k) := by
  induction items with
  | nil => rfl
  | cons item items ih => rw [Node.shiftItems, List.map_cons, ih]

theorem shiftMembers_eq_map (k : Nat) (members : List (Key × Node)) :
    Node.shiftMembers k members = members.map fun m => (m.1.shift k, m.2.shift k) := by
  induction members with
  | nil => rfl
  | cons m members ih => rw [Node.shiftMembers, List.map_cons, ih]

theorem Node.spells_shift_iff : (node.shift k).Spells text ↔ node.Spells text := by
  cases node <;> simp [Node.Spells, Node.shift]

theorem nesting_shift (k : Nat) (node : Node) : (node.shift k).nesting = node.nesting := by
  induction node with
  | array span items ih =>
    rw [Node.shift, Node.nesting, Node.nesting, shiftItems_eq_map]
    refine congrArg (· + 1) (eq_of_forall_ge_iff fun n => ?_)
    rw [nestingOfItems_le_iff, nestingOfItems_le_iff, List.forall_mem_map]
    exact forall₂_congr fun item hitem => by rw [ih item hitem]
  | object span members ih =>
    rw [Node.shift, Node.nesting, Node.nesting, shiftMembers_eq_map]
    refine congrArg (· + 1) (eq_of_forall_ge_iff fun n => ?_)
    rw [nestingOfMembers_le_iff, nestingOfMembers_le_iff, List.forall_mem_map]
    exact forall₂_congr fun m hm => by rw [ih m hm]
  | _ => rfl

/-- A value denotes the same wherever it stands. -/
theorem denotes_shift_iff : Denotes (node.shift k) value ↔ Denotes node value := by
  induction node generalizing value with
  | null span | boolean span b => constructor <;> rintro ⟨⟩ <;> constructor
  | number span numeral => constructor <;> rintro ⟨⟩ <;> exact .number ‹_›
  | text span raw => constructor <;> rintro ⟨⟩ <;> exact .text ‹_›
  | array span items ih =>
    simp only [Node.shift, denotes_array_iff, shiftItems_eq_map, List.forall₂_map_left_iff]
    exact exists_congr fun values => and_congr_right' (forall₂_congr_of_mem fun item hitem _ =>
      ih item hitem)
  | object span members ih =>
    rw [Node.shift, shiftMembers_eq_map]
    by_cases hembeds : Embeds members
    · obtain ⟨key, node, others, rfl, hkey⟩ := hembeds
      have hshifted : (key.shift k).Spells embeddedName := hkey
      rw [List.map_cons, denotes_embedding_iff hshifted, denotes_embedding_iff hkey]
      simp only [Node.spells_shift_iff, List.map_eq_nil_iff]
    · have hshifted : ¬ Embeds (members.map fun m => (m.1.shift k, m.2.shift k)) := by
        rintro ⟨key, node, others, heq, hkey⟩
        obtain ⟨m, rest, rfl, hm, -⟩ := List.map_eq_cons_iff.mp heq
        cases hm
        exact hembeds ⟨_, _, _, rfl, hkey⟩
      rw [denotes_object_iff hshifted, denotes_object_iff hembeds]
      simp only [List.forall₂_map_left_iff]
      exact exists_congr fun named => and_congr_right' (forall₂_congr_of_mem fun m hm _ =>
        and_congr_right' (ih m hm))

end Json

/-- **A text that is read for itself** gives what its placed value denotes, if that nests less than
128 deep. -/
theorem parse_eq_ok_iff_of_readTree (hread : Scanner.readTree source span = .ok node)
    (htext : source.slice span = cs.utf8Encode) :
    Value.parse cs = .ok value ↔ Denotes node value ∧ node.nesting < nestingLimit := by
  obtain ⟨-, text, hslice, hdoc⟩ := readTree_eq_ok_iff.mp hread
  obtain rfl : text = cs := Utf8.utf8Encode_inj (hslice.symm.trans htext)
  have hparse := Node.parse_shift span.offset 0 text
  rw [Nat.add_zero, Node.parse_eq_ok_iff.mpr hdoc] at hparse
  cases hfirst : Node.parse 0 text with
  | error fault =>
    rw [hfirst] at hparse
    cases hparse
  | ok first =>
    rw [hfirst] at hparse
    cases hparse
    rw [Value.parse_eq_ok_iff, ReadsAs, denotes_shift_iff, nesting_shift]
    simp only [document_iff_of_parse hfirst, exists_eq_left']

/-- A text that scans is read when its value is legible and nests less than 128 deep. -/
theorem exists_parse_iff (hread : Scanner.readTree source span = .ok node)
    (htext : source.slice span = cs.utf8Encode) :
    (∃ value, Value.parse cs = .ok value) ↔ node.Legible ∧ node.nesting < nestingLimit := by
  simp only [parse_eq_ok_iff_of_readTree hread htext, exists_and_right, Node.legible_iff]

end JsonLines
