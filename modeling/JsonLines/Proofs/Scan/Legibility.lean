/-
JsonLines.Proofs.Scan.Legibility — which of the values that scan are read as values of their own.

A scan looks at a text no closer than it must. It takes numbers of any size, passes over the escapes
of a text without decoding them, and lets containers nest as deep as its limit says. Reading a value
asks for more: its numbers are within the range of doubles and its texts spell characters. It also
looks at one name. An object that begins with `Value.embeddedName` is read as the value that is
written in the string bound to it, and must hold nothing else. `Legible` says all this by
recursion on the value, except how deep containers may nest; of the values in strings, each of which
is read for itself, it says that too.
-/
import JsonLines.Json.Value
import JsonLines.Proofs.Scan.Acceptance

namespace JsonLines

open Json Json.Value

variable {span : Span} {node : Node} {items : List Node} {members : List (Key × Node)}
  {numeral : Numeral} {raw : List Char}

/-! ## Numbers -/

/-- The numeral is within the range of numbers. -/
def Numeral.InRange (numeral : Numeral) : Prop := ∃ n, Number.ofNumeral 0 numeral = .ok n

/-- Where the numeral ends tells only where a fault is. -/
theorem toOption_readReal (stop : Nat) (numeral : Numeral) :
    (Number.readReal stop numeral).toOption = (Number.readReal 0 numeral).toOption := by
  unfold Number.readReal
  cases numeral.exponent with
  | none =>
    dsimp only
    split <;> rfl
  | some exponent =>
    dsimp only
    cases Number.readPower 0 0 exponent.digits with
    | ok power =>
      dsimp only
      split <;> rfl
    | error read =>
      dsimp only
      split <;> rfl

theorem ofNumeral_eq_ok_iff {n : Number} (stop : Nat) :
    Number.ofNumeral stop numeral = .ok n ↔ Number.ofNumeral 0 numeral = .ok n := by
  have hreal := toOption_readReal stop numeral
  unfold Number.ofNumeral
  dsimp only
  split
  · rfl
  · split
    · rfl
    · cases h : Number.readReal stop numeral <;> cases h' : Number.readReal 0 numeral <;>
        simp_all [Except.toOption]

/-! ## Texts in texts -/

/-- The object begins with the name that is for the text of another value. -/
def Json.Embeds (members : List (Key × Node)) : Prop :=
  ∃ key node others, members = (key, node) :: others ∧ key.Spells embeddedName

theorem embedsText_iff (h : ∀ m ∈ members, Literal.Written m.1.raw) :
    embedsText members = true ↔ Embeds members := by
  cases members with
  | nil => exact iff_of_false Bool.false_ne_true (by rintro ⟨_, _, _, ⟨⟩, _⟩)
  | cons member others =>
    obtain ⟨key, node⟩ := member
    have hname : ∀ {name}, key.decode = .ok name ↔ Literal.Spells key.raw name :=
      Key.decode_eq_ok_iff (h (key, node) List.mem_cons_self)
    have hembeds : Embeds ((key, node) :: others) ↔ key.Spells embeddedName := by
      simp [Embeds]
    rw [hembeds, Key.Spells, ← hname, embedsText]
    cases key.decode with
    | error fault => simp
    | ok name =>
      rw [decide_eq_true_eq, Except.ok.injEq]
      constructor
      · intro heq
        rw [← heq, String.toList_ofList]
      · rintro rfl
        exact String.ofList_toList

/-- The value is a string that spells the text. -/
def Json.Node.Spells (node : Node) (text : List Char) : Prop :=
  ∃ place raw, node = .text place raw ∧ Literal.Spells raw text

/-! ## Legible values -/

/-- The value can be read, but for how deep it nests: its numbers are within range, its texts and
names spell characters, and an object that begins with the name for the text of another value holds
nothing but a string that writes one. -/
inductive Json.Node.Legible : Node → Prop where
  | null {span : Span} : Legible (.null span)
  | boolean {span : Span} {value : Bool} : Legible (.boolean span value)
  | number {span : Span} {numeral : Numeral} : numeral.InRange → Legible (.number span numeral)
  | text {span : Span} {raw text : List Char} : Literal.Spells raw text → Legible (.text span raw)
  | array {span : Span} {items : List Node} : (∀ item ∈ items, item.Legible) →
    Legible (.array span items)
  | object {span : Span} {members : List (Key × Node)} : ¬ Embeds members →
    (∀ m ∈ members, ∃ name, m.1.Spells name) → (∀ m ∈ members, m.2.Legible) →
      Legible (.object span members)
  | embedded {span : Span} {key : Key} {node inner : Node} {text : List Char} :
    key.Spells embeddedName → node.Spells text → Document 0 text inner →
      inner.nesting < nestingLimit → inner.Legible → Legible (.object span [(key, node)])

/-- The parts of a legible value are legible. -/
theorem Json.Node.Legible.part {m : Node} (h : node.Legible) (hm : m.Part node) : m.Legible := by
  induction hm with
  | self => exact h
  | item hitem _ ih =>
    cases h with
    | array hitems => exact ih (hitems _ hitem)
  | member hm _ ih =>
    cases h with
    | object _ _ hmembers => exact ih (hmembers _ hm)
    | embedded _ hspells _ _ _ =>
      cases List.mem_singleton.mp hm
      obtain ⟨place, raw, rfl, hraw⟩ := hspells
      exact ih (.text hraw)

theorem legible_array_iff : (Node.array span items).Legible ↔ ∀ item ∈ items, item.Legible := by
  constructor
  · rintro ⟨⟩
    assumption
  · exact .array

end JsonLines
