/-
JsonLines.Proofs.Json.Grammar — the grammar of JSON texts, with places.

`Writes p cs node` says that the characters `cs`, the first of which is at position `p`, write the
value: by recursion on the value, production by production, and with the span of every part. Blanks
may stand around every item, name and value, and nowhere else. Nothing here mentions how a text is
read.
-/
import JsonLines.Json.Node
import JsonLines.Proofs.Json.Literal
import JsonLines.Proofs.Json.Numeral

namespace JsonLines.Json

open Utf8

/-- Induction on a value, with the hypothesis for every item and every member. -/
@[induction_eliminator]
theorem Node.induction {P : Node → Prop} (null : ∀ span, P (.null span))
    (boolean : ∀ span value, P (.boolean span value))
    (number : ∀ span numeral, P (.number span numeral)) (text : ∀ span raw, P (.text span raw))
    (array : ∀ span items, (∀ item ∈ items, P item) → P (.array span items))
    (object : ∀ span members, (∀ m ∈ members, P m.2) → P (.object span members)) (node : Node) :
    P node :=
  @Node.rec P (fun items => ∀ item ∈ items, P item) (fun members => ∀ m ∈ members, P m.2)
    (fun m => P m.2) null boolean number text array object (by simp)
    (fun _ _ head tail => List.forall_mem_cons.mpr ⟨head, tail⟩) (by simp)
    (fun _ _ head tail => List.forall_mem_cons.mpr ⟨head, tail⟩) (fun _ _ h => h) node

/-- Nothing but blanks. -/
def Blanks (cs : List Char) : Prop := ∀ ch ∈ cs, Cursor.isBlank ch

/-- The literals of the values that have but one. -/
def word : Option Bool → List Char
  | none => ['n', 'u', 'l', 'l']
  | some true => ['t', 'r', 'u', 'e']
  | some false => ['f', 'a', 'l', 's', 'e']

/-- A name between quotes and the colon after it. -/
def WritesKey (p : Nat) (cs : List Char) (key : Key) : Prop :=
  ∃ before after, cs = before ++ ('"' :: (key.raw ++ ('"' :: (after ++ [':'])))) ∧
    Blanks before ∧ Blanks after ∧ Literal.Written key.raw ∧ key.position = p + width before + 1

mutual

/-- The characters write the value. -/
def Writes (p : Nat) (cs : List Char) : Node → Prop
  | .null span => span = ⟨p, width cs⟩ ∧ cs = word none
  | .boolean span value => span = ⟨p, width cs⟩ ∧ cs = word (some value)
  | .number span numeral => span = ⟨p, width cs⟩ ∧ numeral.Written cs
  | .text span raw => span = ⟨p, width cs⟩ ∧ cs = '"' :: (raw ++ ['"']) ∧ Literal.Written raw
  | .array span items => span = ⟨p, width cs⟩ ∧
    ∃ inner, cs = '[' :: (inner ++ [']']) ∧ WritesItems (p + 1) inner items
  | .object span members => span = ⟨p, width cs⟩ ∧
    ∃ inner, cs = '\x7b' :: (inner ++ ['\x7d']) ∧ WritesMembers (p + 1) inner members

/-- The characters write the items, with commas between them. -/
def WritesItems (p : Nat) (cs : List Char) : List Node → Prop
  | [] => Blanks cs
  | item :: items => ∃ before own after rest, cs = before ++ (own ++ (after ++ rest)) ∧
    Blanks before ∧ Writes (p + width before) own item ∧ Blanks after ∧
      (items = [] ∧ rest = [] ∨ items ≠ [] ∧ ∃ tail, rest = ',' :: tail ∧
        WritesItems (p + width before + width own + width after + 1) tail items)

/-- The characters write the members, with commas between them. -/
def WritesMembers (p : Nat) (cs : List Char) : List (Key × Node) → Prop
  | [] => Blanks cs
  | (key, node) :: members => ∃ head before own after rest,
    cs = head ++ (before ++ (own ++ (after ++ rest))) ∧ WritesKey p head key ∧
      Blanks before ∧ Writes (p + width head + width before) own node ∧ Blanks after ∧
        (members = [] ∧ rest = [] ∨ members ≠ [] ∧ ∃ tail, rest = ',' :: tail ∧
          WritesMembers (p + width head + width before + width own + width after + 1) tail members)

end

variable {p : Nat} {cs ds rest : List Char} {node : Node} {key : Key}

/-! ## Blanks -/

theorem blanks_nil : Blanks [] := fun _ h => absurd h List.not_mem_nil

theorem Blanks.append (h : Blanks cs) (h' : Blanks ds) : Blanks (cs ++ ds) := fun ch hch =>
  (List.mem_append.mp hch).elim (h ch) (h' ch)

theorem isBlank_iff {ch : Char} :
    Cursor.isBlank ch = true ↔ ch = ' ' ∨ ch = '\t' ∨ ch = '\n' ∨ ch = '\r' := by
  simp [Cursor.isBlank, or_assoc]

theorem Blanks.width_eq (h : Blanks cs) : width cs = cs.length := by
  refine width_eq_length ?_
  intro ch hch
  rcases isBlank_iff.mp (h ch hch) with rfl | rfl | rfl | rfl <;> decide

/-- Nothing blank comes next. -/
def Starts (cs : List Char) : Prop := ∀ ch ∈ cs.head?, Cursor.isBlank ch = false

theorem starts_cons {ch : Char} (h : Cursor.isBlank ch = false) : Starts (ch :: rest) := by
  intro ch' hch'
  cases hch'
  exact h

theorem skipBlanks_append (h : Blanks cs) (hrest : Starts rest) :
    Cursor.skipBlanks ⟨p, cs ++ rest⟩ = ⟨p + width cs, rest⟩ := by
  have htake : rest.takeWhile Cursor.isBlank = [] := by
    cases rest with
    | nil => rfl
    | cons ch rest => simp [hrest ch rfl]
  have hdrop : rest.dropWhile Cursor.isBlank = rest := by
    cases rest with
    | nil => rfl
    | cons ch rest => simp [hrest ch rfl]
  simp only [Cursor.skipBlanks, List.takeWhile_append_of_pos h, List.dropWhile_append_of_pos h,
    htake, hdrop, List.append_nil, h.width_eq]

theorem of_skipBlanks (c : Cursor) : ∃ before, Blanks before ∧
    c.rest = before ++ c.skipBlanks.rest ∧ c.skipBlanks.position = c.position + width before := by
  have hblanks : Blanks (c.rest.takeWhile Cursor.isBlank) := fun ch hch =>
    List.all_eq_true.mp List.all_takeWhile ch hch
  refine ⟨_, hblanks, ?_, ?_⟩
  · exact (List.takeWhile_append_dropWhile).symm
  · rw [hblanks.width_eq]
    rfl

/-- Blanks may be added in front of items. -/
theorem WritesItems.blanks {items : List Node} (hblanks : Blanks ds)
    (h : WritesItems (p + width ds) cs items) : WritesItems p (ds ++ cs) items := by
  cases items with
  | nil => exact hblanks.append h
  | cons item items =>
    obtain ⟨before, own, after, rest, rfl, hbefore, hown, hafter, htail⟩ := h
    refine ⟨ds ++ before, own, after, rest, ?_, hblanks.append hbefore, ?_, hafter, ?_⟩
    · simp only [List.append_assoc]
    · rwa [width_append, ← Nat.add_assoc]
    · rwa [width_append, ← Nat.add_assoc]

/-- Blanks may be added in front of members. -/
theorem WritesMembers.blanks {members : List (Key × Node)} (hblanks : Blanks ds)
    (h : WritesMembers (p + width ds) cs members) : WritesMembers p (ds ++ cs) members := by
  cases members with
  | nil => exact hblanks.append h
  | cons member members =>
    obtain ⟨head, before, own, after, rest, rfl, hkey, hbefore, hown, hafter, htail⟩ := h
    obtain ⟨first, second, rfl, hfirst, hsecond, hraw, hpos⟩ := hkey
    refine ⟨ds ++ (first ++ ('"' :: (member.1.raw ++ ('"' :: (second ++ [':']))))), before, own,
      after, rest, ?_, ⟨ds ++ first, second, ?_, hblanks.append hfirst, hsecond, hraw, ?_⟩,
      hbefore, ?_, hafter, ?_⟩
    · simp only [List.append_assoc]
    · simp only [List.append_assoc]
    · rw [hpos, width_append, ← Nat.add_assoc]
    · rwa [@width_append ds, ← Nat.add_assoc p]
    · rwa [@width_append ds, ← Nat.add_assoc p]

/-! ## The characters at the ends of a value -/

theorem Writes.span_eq (h : Writes p cs node) : node.span = ⟨p, width cs⟩ := by
  cases node <;> exact h.1

/-- How a value starts. -/
def IsFirst (ch : Char) : Prop :=
  ch ∈ ['n', 't', 'f', '"', '[', '\x7b', '-'] ∨ ch.isDigit

/-- A value starts with a character that tells its kind. -/
theorem Writes.head (h : Writes p cs node) : ∃ ch tail, cs = ch :: tail ∧ IsFirst ch := by
  cases node with
  | null span =>
    obtain ⟨-, rfl⟩ := h
    exact ⟨_, _, rfl, .inl (by decide)⟩
  | boolean span value =>
    obtain ⟨-, rfl⟩ := h
    cases value <;> exact ⟨_, _, rfl, .inl (by decide)⟩
  | number span numeral =>
    obtain ⟨-, hwritten⟩ := h
    obtain ⟨ch, tail, rfl, hch⟩ := Numeral.head_of_written hwritten
    refine ⟨ch, tail, rfl, hch.imp_left ?_⟩
    rintro rfl
    decide
  | text span raw =>
    obtain ⟨-, rfl, -⟩ := h
    exact ⟨_, _, rfl, .inl (by decide)⟩
  | array span items =>
    obtain ⟨-, inner, rfl, -⟩ := h
    exact ⟨_, _, rfl, .inl (by decide)⟩
  | object span members =>
    obtain ⟨-, inner, rfl, -⟩ := h
    exact ⟨_, _, rfl, .inl (by decide)⟩

/-- A value ends with a bracket, a brace, a quote, a letter or a digit. -/
theorem Writes.last (h : Writes p cs node) {ch : Char} (hch : ch ∈ cs.getLast?) :
    ch ∈ ['l', 'e', '"', ']', '\x7d'] ∨ ch.isDigit := by
  cases node with
  | null span =>
    obtain ⟨-, rfl⟩ := h
    cases hch
    exact .inl (by decide)
  | boolean span value =>
    obtain ⟨-, rfl⟩ := h
    cases value <;> cases hch <;> exact .inl (by decide)
  | number span numeral => exact .inr (Numeral.last_of_written h.2 ch hch)
  | text span raw =>
    obtain ⟨-, rfl, -⟩ := h
    rw [← List.cons_append, List.getLast?_concat] at hch
    cases hch
    exact .inl (by decide)
  | array span items =>
    obtain ⟨-, inner, rfl, -⟩ := h
    rw [← List.cons_append, List.getLast?_concat] at hch
    cases hch
    exact .inl (by decide)
  | object span members =>
    obtain ⟨-, inner, rfl, -⟩ := h
    rw [← List.cons_append, List.getLast?_concat] at hch
    cases hch
    exact .inl (by decide)

theorem isBlank_of_isFirst {ch : Char} (h : IsFirst ch) : Cursor.isBlank ch = false := by
  rcases h with hmem | hdigit
  · simp only [List.mem_cons, List.not_mem_nil, or_false] at hmem
    rcases hmem with rfl | rfl | rfl | rfl | rfl | rfl | rfl <;> decide
  · rw [Bool.eq_false_iff]
    intro hblank
    rcases isBlank_iff.mp hblank with rfl | rfl | rfl | rfl <;> exact absurd hdigit (by decide)

/-- No blank stands before a value. -/
theorem Writes.starts (h : Writes p cs node) : Starts (cs ++ rest) := by
  obtain ⟨ch, tail, rfl, hch⟩ := h.head
  exact starts_cons (isBlank_of_isFirst hch)

/-! ## The blanks in front of parts -/

/-- Items start with blanks and then with a value. -/
theorem WritesItems.start {items : List Node} (h : WritesItems p cs items) (hne : items ≠ []) :
    ∃ before inner, cs = before ++ inner ∧ Blanks before ∧
      WritesItems (p + width before) inner items ∧ ∃ ch tail, inner = ch :: tail ∧ IsFirst ch := by
  cases items with
  | nil => exact absurd rfl hne
  | cons item items =>
    obtain ⟨before, own, after, rest, rfl, hbefore, hown, hafter, htail⟩ := h
    obtain ⟨ch, tail, heq, hch⟩ := hown.head
    refine ⟨before, own ++ (after ++ rest), rfl, hbefore, ?_, ch, tail ++ (after ++ rest), ?_, hch⟩
    · exact ⟨[], own, after, rest, rfl, blanks_nil, hown, hafter, htail⟩
    · rw [heq, List.cons_append]

/-- Members start with blanks and then with a quote. -/
theorem WritesMembers.start {members : List (Key × Node)} (h : WritesMembers p cs members)
    (hne : members ≠ []) :
    ∃ before inner, cs = before ++ inner ∧ Blanks before ∧
      WritesMembers (p + width before) inner members ∧
        ∃ ch tail, inner = ch :: tail ∧ IsFirst ch := by
  cases members with
  | nil => exact absurd rfl hne
  | cons member members =>
    obtain ⟨head, before, own, after, rest, rfl, hkey, hbefore, hown, hafter, htail⟩ := h
    obtain ⟨first, second, rfl, hfirst, hsecond, hraw, hpos⟩ := hkey
    rw [@width_append first, ← Nat.add_assoc p] at hown htail
    refine ⟨first, _, List.append_assoc _ _ _, hfirst, ?_, '"', _, rfl, .inl (by decide)⟩
    exact ⟨_, before, own, after, rest, rfl,
      ⟨[], second, rfl, blanks_nil, hsecond, hraw, hpos⟩, hbefore, hown, hafter, htail⟩

theorem ne_of_isFirst {ch : Char} (h : IsFirst ch) : ch ≠ ']' ∧ ch ≠ '\x7d' := by
  constructor <;> rintro rfl <;> exact absurd h (by simp [IsFirst])

/-! ## The parts of a value -/

/-- The first value is the second one or stands inside it. -/
inductive Node.Part (m : Node) : Node → Prop where
  | self : Part m m
  | item {span : Span} {items : List Node} {item : Node} : item ∈ items → Part m item →
    Part m (.array span items)
  | member {span : Span} {members : List (Key × Node)} {key : Key} {value : Node} :
    (key, value) ∈ members → Part m value → Part m (.object span members)

theorem Node.Part.trans {l m n : Node} (h : l.Part m) (h' : m.Part n) : l.Part n := by
  induction h' with
  | self => exact h
  | item hmem _ ih => exact .item hmem ih
  | member hmem _ ih => exact .member hmem ih

/-- The characters `cs` from position `p` on hold characters that write the value. -/
def Holds (p : Nat) (cs : List Char) (node : Node) : Prop :=
  ∃ before own after, cs = before ++ (own ++ after) ∧ Writes (p + width before) own node

/-- More characters hold the same values. -/
theorem Holds.within (first last : List Char) (h : Holds (p + width first) cs node) :
    Holds p (first ++ (cs ++ last)) node := by
  obtain ⟨before, own, after, rfl, hown⟩ := h
  refine ⟨first ++ before, own, after ++ last, ?_, ?_⟩
  · simp only [List.append_assoc]
  · rwa [width_append, ← Nat.add_assoc]

theorem Holds.part {m : Node} (h : Holds p cs node)
    (hpart : ∀ {q own}, Writes q own node → Holds q own m) : Holds p cs m := by
  obtain ⟨before, own, after, rfl, hown⟩ := h
  exact (hpart hown).within before after

theorem WritesItems.holds {items : List Node} (h : WritesItems p cs items) (hmem : node ∈ items) :
    Holds p cs node := by
  induction items generalizing p cs with
  | nil => cases hmem
  | cons item items ih =>
    obtain ⟨before, own, after, rest, rfl, -, hown, -, htail⟩ := h
    rcases List.mem_cons.mp hmem with rfl | hmem
    · exact ⟨before, own, after ++ rest, rfl, hown⟩
    · rcases htail with ⟨rfl, -⟩ | ⟨-, tail, rfl, hitems⟩
      · cases hmem
      · have hcomma : ','.utf8Size = 1 := by decide
        have htail : Holds (p + width (before ++ (own ++ (after ++ [','])))) tail node := by
          have hwidth : p + width (before ++ (own ++ (after ++ [',']))) =
              p + width before + width own + width after + 1 := by
            simp only [width_append, width_cons, width_nil, hcomma]
            omega
          rw [hwidth]
          exact ih hitems hmem
        have := htail.within _ []
        simpa only [List.append_assoc, List.append_nil, List.cons_append, List.nil_append]
          using this

theorem WritesMembers.holds {members : List (Key × Node)} (h : WritesMembers p cs members)
    (hmem : (key, node) ∈ members) : Holds p cs node := by
  induction members generalizing p cs with
  | nil => cases hmem
  | cons member members ih =>
    obtain ⟨head, before, own, after, rest, rfl, -, -, hown, -, htail⟩ := h
    rcases List.mem_cons.mp hmem with rfl | hmem
    · refine ⟨head ++ before, own, after ++ rest, ?_, ?_⟩
      · simp only [List.append_assoc]
      · rwa [width_append, ← Nat.add_assoc]
    · rcases htail with ⟨rfl, -⟩ | ⟨-, tail, rfl, hmembers⟩
      · cases hmem
      · have hcomma : ','.utf8Size = 1 := by decide
        have htail : Holds (p + width (head ++ (before ++ (own ++ (after ++ [',']))))) tail
            node := by
          have hwidth : p + width (head ++ (before ++ (own ++ (after ++ [','])))) =
              p + width head + width before + width own + width after + 1 := by
            simp only [width_append, width_cons, width_nil, hcomma]
            omega
          rw [hwidth]
          exact ih hmembers hmem
        have := htail.within _ []
        simpa only [List.append_assoc, List.append_nil, List.cons_append, List.nil_append]
          using this

/-- Every name is written as a literal is. -/
theorem WritesMembers.written_of_mem {members : List (Key × Node)} {m : Key × Node}
    (h : WritesMembers p cs members) (hm : m ∈ members) : Literal.Written m.1.raw := by
  induction members generalizing p cs with
  | nil => cases hm
  | cons member members ih =>
    obtain ⟨head, before, own, after, rest, -, hkey, -, -, -, htail⟩ := h
    obtain ⟨-, -, -, -, -, hraw, -⟩ := hkey
    rcases List.mem_cons.mp hm with rfl | hm
    · exact hraw
    · rcases htail with ⟨rfl, -⟩ | ⟨-, tail, -, hmembers⟩
      · cases hm
      · exact ih hmembers hm

/-- **The text of a value holds the text of each of its parts**, at the place that its span
names. -/
theorem Writes.holds {m : Node} (h : Writes p cs node) (hm : m.Part node) : Holds p cs m := by
  induction hm generalizing p cs with
  | self => exact ⟨[], cs, [], by simp, h⟩
  | item hmem _ ih =>
    obtain ⟨-, inner, rfl, hitems⟩ := h
    exact ((hitems.holds hmem).part ih).within ['['] [']']
  | member hmem _ ih =>
    obtain ⟨-, inner, rfl, hmembers⟩ := h
    exact ((hmembers.holds hmem).part ih).within ['\x7b'] ['\x7d']

/-! ## What may follow a value -/

theorem ends_cons {ch : Char} (h : ch ∈ [',', ']', '\x7d']) : Numeral.Ends (ch :: rest) := by
  intro ch' hch'
  cases hch'
  simp only [List.mem_cons, List.not_mem_nil, or_false] at h
  rcases h with rfl | rfl | rfl <;> decide

theorem Blanks.ends (h : Blanks cs) (hrest : Numeral.Ends rest) :
    Numeral.Ends (cs ++ rest) := by
  cases cs with
  | nil => exact hrest
  | cons ch cs =>
    intro ch' hch'
    cases hch'
    rcases isBlank_iff.mp (h ch List.mem_cons_self) with rfl | rfl | rfl | rfl <;> decide

end JsonLines.Json
