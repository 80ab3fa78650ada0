/-
JsonLines.Proofs.Json.Shifting — a text reads the same wherever it starts.

A reader sees characters and counts positions; it never looks at a position to decide anything. So
the outcome of a reader that starts some bytes later is its outcome, with every position in it that
many bytes later, be it a tree or a fault (`shifts`, `parse_shift`). There is one lemma for
each reader, all of the shape `shifted`.
-/
import JsonLines.Proofs.Json.Reading

namespace JsonLines

/-- The span some bytes later. -/
def Span.shift (k : Nat) (s : Span) : Span := ⟨k + s.offset, s.len⟩

namespace Json

/-! ## Moving what readers handle -/

/-- The fault some bytes later. -/
def Fault.shift (k : Nat) (fault : Fault) : Fault := ⟨fault.cause, k + fault.position⟩

/-- The cursor some bytes later, at the same characters. -/
def Cursor.shift (k : Nat) (c : Cursor) : Cursor := ⟨k + c.position, c.rest⟩

/-- The name some bytes later. -/
def Key.shift (k : Nat) (key : Key) : Key := ⟨k + key.position, key.raw⟩

mutual

/-- The value some bytes later. -/
def Node.shift (k : Nat) : Node → Node
  | .null span => .null (span.shift k)
  | .boolean span value => .boolean (span.shift k) value
  | .number span numeral => .number (span.shift k) numeral
  | .text span raw => .text (span.shift k) raw
  | .array span items => .array (span.shift k) (shiftItems k items)
  | .object span members => .object (span.shift k) (shiftMembers k members)

/-- Items some bytes later. -/
def Node.shiftItems (k : Nat) : List Node → List Node
  | [] => []
  | item :: items => shift k item :: shiftItems k items

/-- Members some bytes later. -/
def Node.shiftMembers (k : Nat) : List (Key × Node) → List (Key × Node)
  | [] => []
  | (key, node) :: members => (key.shift k, shift k node) :: shiftMembers k members

end

/-- An outcome some bytes later; `move` says what becomes of what there is if there is no fault. -/
def moved {α : Type} (k : Nat) (move : α → α) : Except Fault α → Except Fault α
  | .error fault => .error (fault.shift k)
  | .ok a => .ok (move a)

/-- The outcome of a reader some bytes later; `move` says what becomes of what it reads. -/
def shifted {α : Type} (k : Nat) (move : α → α) :
    Except Fault (α × Cursor) → Except Fault (α × Cursor)
  | .error fault => .error (fault.shift k)
  | .ok (a, c) => .ok (move a, c.shift k)

variable {k p : Nat} {c d : Cursor} {cause : Cause} {cs : List Char}

/-! ## Cursors -/

namespace Cursor

@[simp] theorem shift_position : (c.shift k).position = k + c.position := rfl

@[simp] theorem shift_rest : (c.shift k).rest = c.rest := rfl

@[simp] theorem shift_here : (c.shift k).here cause = (c.here cause).shift k := rfl

@[simp] theorem shift_peek : (c.shift k).peek cause = (c.peek cause).shift k := by
  unfold peek
  rw [shift_rest]
  cases c.rest <;> rfl

@[simp] theorem shift_skip : (c.shift k).skip = c.skip.shift k := rfl

@[simp] theorem shift_skipBlanks : (c.shift k).skipBlanks = c.skipBlanks.shift k := by
  simp only [skipBlanks, shift, Nat.add_assoc]

@[simp] theorem shift_spanTo : (c.shift k).spanTo (d.shift k) = (c.spanTo d).shift k := by
  simp only [spanTo, shift, Span.shift, Nat.add_sub_add_left]

end Cursor

/-! ## Literals -/

namespace Literal

theorem shortEscape_shift : shortEscape (k + p) cs = (shortEscape p cs).shift k := by
  unfold shortEscape
  split <;> simp only [Fault.shift, Nat.add_assoc]

theorem unpaired_shift : unpaired (k + p) cs = (unpaired p cs).shift k := by
  fun_cases unpaired p cs <;>
    simp_all only [unpaired, Nat.add_assoc, shortEscape_shift] <;> rfl

theorem skim_shift : skim (k + p) cs = shifted k id (skim p cs) := by
  fun_induction skim p cs <;>
    simp_all only [skim, Nat.add_assoc, shortEscape_shift, shifted, id, if_true] <;> rfl

theorem read_shift : read (k + p) cs = shifted k id (read p cs) := by
  fun_induction read p cs <;>
    simp_all only [read, Nat.add_assoc, shortEscape_shift, unpaired_shift, shifted, id] <;> rfl

end Literal

/-- A name decodes alike wherever it stands, and where it does not, the fault stands with it. -/
theorem Key.decode_shift (key : Key) : (key.shift k).decode = moved k id key.decode := by
  simp only [Key.decode, Key.shift, Literal.read_shift]
  cases Literal.read key.position (key.raw ++ ['"']) <;> rfl

end Json

/-! ## Numerals -/

namespace Numeral

open Json

variable {k : Nat} {c : Cursor} {cutShort : Cause}

theorem readDigits_shift :
    readDigits (c.shift k) = ((readDigits c).1, (readDigits c).2.shift k) := by
  simp only [readDigits, Cursor.shift, Nat.add_assoc]

theorem missingDigit_shift :
    missingDigit cutShort (c.shift k) = (missingDigit cutShort c).shift k := by
  unfold missingDigit
  exact Cursor.shift_peek

theorem readWhole_shift :
    readWhole cutShort (c.shift k) = shifted k id (readWhole cutShort c) := by
  fun_cases readWhole cutShort c <;>
    simp_all [readWhole, shifted, readDigits_shift, missingDigit_shift]

theorem readFraction_shift :
    readFraction cutShort (c.shift k) = shifted k id (readFraction cutShort c) := by
  fun_cases readFraction cutShort c <;>
    simp_all [readFraction, shifted, readDigits_shift, missingDigit_shift]

theorem readExponentDigits_shift {negative : Bool} :
    readExponentDigits cutShort negative (c.shift k) =
      shifted k id (readExponentDigits cutShort negative c) := by
  fun_cases readExponentDigits cutShort negative c <;>
    simp_all [readExponentDigits, shifted, readDigits_shift, missingDigit_shift]

theorem readExponent_shift :
    readExponent cutShort (c.shift k) = shifted k id (readExponent cutShort c) := by
  fun_cases readExponent cutShort c <;>
    simp_all [readExponent, shifted, readExponentDigits_shift]

theorem unsigned_shift :
    unsigned (c.shift k) = ((unsigned c).1, (unsigned c).2.shift k) := by
  unfold unsigned
  rw [Cursor.shift_rest]
  split <;> rfl

theorem readParts_shift {negative : Bool} :
    readParts cutShort negative (c.shift k) = shifted k id (readParts cutShort negative c) := by
  simp only [readParts, readWhole_shift]
  cases readWhole cutShort c with
  | error e => rfl
  | ok result =>
    simp only [shifted, id, readFraction_shift]
    cases readFraction cutShort result.2 with
    | error e => rfl
    | ok result =>
      simp only [shifted, id, readExponent_shift]
      cases readExponent cutShort result.2 <;> rfl

theorem read_shift : read cutShort (c.shift k) = shifted k id (read cutShort c) := by
  rw [read_eq_readParts, read_eq_readParts, unsigned_shift, readParts_shift]

end Numeral

/-! ## Values -/

namespace Json.Node

variable {k room : Nat} {c : Cursor} {word : List Char}

theorem readWord_shift :
    readWord (c.shift k) word = moved k (Cursor.shift k) (readWord c word) := by
  fun_induction readWord c word <;> simp_all [readWord, moved]

theorem readScalar_shift : readScalar (c.shift k) = shifted k (shift k) (readScalar c) := by
  fun_cases readScalar c <;>
    simp_all [readScalar, shifted, shift, readWord_shift, moved, Numeral.read_shift, Nat.add_assoc,
      Literal.skim_shift]

theorem readKey_shift : readKey (c.shift k) = shifted k (Key.shift k) (readKey c) := by
  unfold readKey
  rw [Cursor.shift_rest]
  split
  · rw [Cursor.shift_peek]
    rfl
  · rename_i rest _
    simp only [Cursor.shift_position, Nat.add_assoc]
    rw [Literal.skim_shift]
    cases Literal.skim (c.position + 1) rest with
    | error fault => rfl
    | ok result =>
      simp only [shifted, id, Cursor.shift_skipBlanks, Cursor.shift_rest]
      split <;> simp [Key.shift]
  · rw [Cursor.shift_peek]
    rfl

/-- The three readers that call each other, with some room. -/
structure Shifts (k room : Nat) : Prop where
  value : ∀ c, readValue room (c.shift k) = shifted k (shift k) (readValue room c)
  items : ∀ c, readItems room (c.shift k) = shifted k (shiftItems k) (readItems room c)
  members : ∀ c, readMembers room (c.shift k) = shifted k (shiftMembers k) (readMembers room c)

theorem Shifts.readValue_succ (h : Shifts k room) (c : Cursor) :
    readValue (room + 1) (c.shift k) = shifted k (shift k) (readValue (room + 1) c) := by
  simp only [readValue, Cursor.shift_skipBlanks, Cursor.shift_rest, Cursor.shift_skip]
  split
  · split
    · simp [shifted]
    · simp [shifted, shift, shiftItems]
    · rw [h.items]
      cases readItems room c.skipBlanks.skip.skipBlanks <;> simp [shifted, shift]
  · split
    · simp [shifted]
    · simp [shifted, shift, shiftMembers]
    · rw [h.members]
      cases readMembers room c.skipBlanks.skip.skipBlanks <;> simp [shifted, shift]
  · exact readScalar_shift

theorem Shifts.readItems_succ (h : Shifts k room) (c : Cursor) :
    readItems (room + 1) (c.shift k) = shifted k (shiftItems k) (readItems (room + 1) c) := by
  simp only [readItems, h.value]
  cases readValue room c with
  | error fault => rfl
  | ok result =>
    obtain ⟨item, d⟩ := result
    simp only [shifted, Cursor.shift_skipBlanks, Cursor.shift_rest, Cursor.shift_skip, h.items]
    split
    · simp
    · simp [shiftItems]
    · cases readItems room d.skipBlanks.skip <;> simp [shiftItems]
    · simp

theorem Shifts.readMembers_succ (h : Shifts k room) (c : Cursor) :
    readMembers (room + 1) (c.shift k) =
      shifted k (shiftMembers k) (readMembers (room + 1) c) := by
  simp only [readMembers, Cursor.shift_skipBlanks, readKey_shift]
  cases readKey c.skipBlanks with
  | error fault => rfl
  | ok result =>
    obtain ⟨key, d⟩ := result
    simp only [shifted, h.value]
    cases readValue room d with
    | error fault => rfl
    | ok result =>
      obtain ⟨value, e⟩ := result
      simp only [shifted, Cursor.shift_skipBlanks, Cursor.shift_rest, Cursor.shift_skip, h.members]
      split
      · simp
      · simp [shiftMembers]
      · cases readMembers room e.skipBlanks.skip <;> simp [shiftMembers]
      · simp

theorem shifts (k room : Nat) : Shifts k room := by
  induction room with
  | zero =>
    exact ⟨fun c => by simp [readValue, shifted], fun c => by simp [readItems, shifted],
      fun c => by simp [readMembers, shifted]⟩
  | succ room ih => exact ⟨ih.readValue_succ, ih.readItems_succ, ih.readMembers_succ⟩

/-- **A text reads the same wherever it starts**, be it a tree or a fault that is found. -/
theorem parse_shift (k start : Nat) (cs : List Char) :
    parse (k + start) cs = moved k (shift k) (parse start cs) := by
  have hread : read ⟨k + start, cs⟩ = shifted k (shift k) (read ⟨start, cs⟩) :=
    (shifts k _).value ⟨start, cs⟩
  rw [parse, hread, parse]
  cases read ⟨start, cs⟩ with
  | error fault => rfl
  | ok result =>
    obtain ⟨node, d⟩ := result
    simp only [shifted, Cursor.shift_skipBlanks, Cursor.shift_rest]
    split <;> simp [moved]

end Json.Node

end JsonLines
