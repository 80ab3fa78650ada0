/-
JsonLines.Proofs.Scan.Relocating — the scan of a span is that of its text, moved to its place.

A span is scanned as if its text were a source of its own (`ByteSource.alone`): the same schema, the
same refusal, and the same cell with all offsets moved by the offset of the span (`scan_eq_alone`).
Nothing around the span and nothing about where it stands gets into names, types or messages; even
the line and the column of a fault are counted from the start of the text.
-/
import JsonLines.Proofs.Json.Shifting
import JsonLines.Proofs.Scan.Rereading

namespace JsonLines

open Json

/-! ## Moving cells -/

mutual

/-- The cell some bytes later. -/
def Cell.shift (k : Nat) : Cell → Cell
  | .leaf span type => .leaf (span.shift k) type
  | .array span type cells => .array (span.shift k) type (shiftItems k cells)
  | .record span type members => .record (span.shift k) type (shiftMembers k members)

/-- Items some bytes later. -/
def Cell.shiftItems (k : Nat) : List Cell → List Cell
  | [] => []
  | cell :: cells => shift k cell :: shiftItems k cells

/-- Members some bytes later. -/
def Cell.shiftMembers (k : Nat) : List (NameId × Cell) → List (NameId × Cell)
  | [] => []
  | (name, cell) :: members => (name, shift k cell) :: shiftMembers k members

end

variable {source base : ByteSource} {scanner : Scanner} {k depth : Nat} {s : Schema}
  {node m : Node} {items : List Node} {members : List (Key × Node)} {span record : Span}

@[simp] theorem Cell.type_shift (k : Nat) (cell : Cell) : (cell.shift k).type = cell.type := by
  cases cell <;> simp only [shift, type]

theorem Cell.fields_shiftMembers (k : Nat) (members : List (NameId × Cell)) :
    (shiftMembers k members).map (fun (name, cell) => (⟨name, cell.type, false⟩ : Field)) =
      members.map fun (name, cell) => ⟨name, cell.type, false⟩ := by
  induction members with
  | nil => rfl
  | cons member members ih => simp only [shiftMembers, List.map_cons, type_shift, ih]

/-- The outcome of a scan some bytes later. -/
def movedScan {α : Type} (move : α → α) (r : Except ScanError α × Schema) :
    Except ScanError α × Schema :=
  (r.1.map move, r.2)

/-! ## Faults -/

theorem Json.Fault.locate_shift (fault : Fault) (bytes : List UInt8) (start : Nat) :
    (fault.shift k).locate bytes (k + start) = fault.locate bytes start := by
  simp only [locate, shift, Nat.add_sub_add_left]

theorem Json.decodeNames_shift (members : List (Key × Node)) :
    decodeNames (Node.shiftMembers k members) = Json.moved k id (decodeNames members) := by
  induction members with
  | nil => rfl
  | cons member members ih =>
    simp only [Node.shiftMembers, decodeNames, Key.decode_shift, ih]
    cases member.1.decode with
    | error fault => rfl
    | ok name => cases decodeNames members <;> rfl

/-! ## Scanning -/

/-- Every part of the value stands in both sources, in the first one some bytes later. -/
def Stands (source base : ByteSource) (k : Nat) (node : Node) : Prop :=
  ∀ m : Node, m.Part node → source.slice (m.span.shift k) = base.slice m.span

theorem scanItems_shift {element : TypeId}
    (ih : ∀ item ∈ items, ∀ (s : Schema), scanner.scanNode source depth s (item.shift k) =
      movedScan (Cell.shift k) (scanner.scanNode base depth s item)) :
    scanner.scanItems source depth s element (Node.shiftItems k items) =
      movedScan (fun r => (Cell.shiftItems k r.1, r.2))
        (scanner.scanItems base depth s element items) := by
  induction items generalizing s element with
  | nil => rfl
  | cons item items ih' =>
    simp only [Node.shiftItems, Scanner.scanItems, ih item List.mem_cons_self, movedScan]
    obtain ⟨outcome, s₁⟩ := scanner.scanNode base depth s item
    cases outcome with
    | error e => rfl
    | ok cell =>
      simp only [Except.map, Cell.type_shift,
        ih' (fun i hi => ih i (List.mem_cons_of_mem _ hi)), movedScan]
      obtain ⟨outcome, s₂⟩ := scanner.scanItems base depth (s₁.union element cell.type).2
        (s₁.union element cell.type).1 items
      cases outcome <;> rfl

theorem scanMembers_shift {seen : List NameId} {names : List String}
    (ih : ∀ m ∈ members, ∀ (s : Schema), scanner.scanNode source depth s (m.2.shift k) =
      movedScan (Cell.shift k) (scanner.scanNode base depth s m.2)) :
    scanner.scanMembers source depth s seen names (Node.shiftMembers k members) =
      movedScan (Cell.shiftMembers k) (scanner.scanMembers base depth s seen names members) := by
  induction members generalizing s seen names with
  | nil => rfl
  | cons member members ih' =>
    cases names with
    | nil => rfl
    | cons name names =>
      simp only [Node.shiftMembers, Scanner.scanMembers]
      split
      · rfl
      simp only [ih member List.mem_cons_self, movedScan]
      obtain ⟨outcome, s₁⟩ := scanner.scanNode base depth (s.intern name).2 member.2
      cases outcome with
      | error e => rfl
      | ok cell =>
        simp only [Except.map, ih' (fun m hm => ih m (List.mem_cons_of_mem _ hm)), movedScan]
        obtain ⟨outcome, s₂⟩ := scanner.scanMembers base depth s₁ ((s.intern name).1 :: seen) names
          members
        cases outcome <;> rfl

/-- **A value scans the same wherever it stands.** -/
theorem scanNode_shift (h : Stands source base k node) :
    scanner.scanNode source depth s (node.shift k) =
      movedScan (Cell.shift k) (scanner.scanNode base depth s node) := by
  induction node generalizing depth s with
  | array span items ih =>
    have hitems : ∀ {element : TypeId}, scanner.scanItems source (depth + 1) s element
        (Node.shiftItems k items) = movedScan (fun r => (Cell.shiftItems k r.1, r.2))
          (scanner.scanItems base (depth + 1) s element items) :=
      scanItems_shift fun item hitem s =>
        ih item hitem fun m hm => h m (.item hitem hm)
    simp only [Node.shift, Scanner.scanNode]
    split
    · rfl
    rw [hitems]
    obtain ⟨outcome, s₁⟩ := scanner.scanItems base (depth + 1) s .null items
    cases outcome <;> rfl
  | object span members ih =>
    have hmembers : ∀ {names : List String}, scanner.scanMembers source (depth + 1) s [] names
        (Node.shiftMembers k members) = movedScan (Cell.shiftMembers k)
          (scanner.scanMembers base (depth + 1) s [] names members) :=
      scanMembers_shift fun member hmember s =>
        ih member hmember fun m hm => h m (.member hmember hm)
    have hslice : source.slice (span.shift k) = base.slice span := h _ .self
    simp only [Node.shift, Scanner.scanNode, decodeNames_shift]
    split
    · rfl
    cases decodeNames members with
    | error fault =>
      -- The fault is told within the text of the object, which is the same text at both places.
      simp only [Json.moved, hslice]
      simp only [Span.shift, Fault.locate_shift]
      rfl
    | ok names =>
      simp only [Json.moved, id, hmembers, movedScan]
      obtain ⟨outcome, s₁⟩ := scanner.scanMembers base (depth + 1) s [] names members
      cases outcome with
      | error e => rfl
      | ok fields =>
        simp only [Except.map, Cell.fields_shiftMembers, Cell.shift]
  | _ => rfl

/-! ## Texts by themselves -/

namespace ByteSource

/-- The text of a span as a source of its own. -/
def alone (source : ByteSource) (span : Span) : ByteSource := .ofBytes (source.slice span)

/-- All bytes of a source. -/
def whole (source : ByteSource) : Span := ⟨0, source.size⟩

theorem size_slice (hfits : record.fits source.size) :
    (source.slice record).size = record.stop - record.offset ∧
      record.offset ≤ record.stop ∧ record.stop ≤ source.size ∧ record.stop < Word.modulus := by
  have hlt : record.stop < Word.modulus := Nat.mod_lt _ (by decide)
  rw [slice, if_pos hfits, ByteArray.size_extract]
  simp only [Span.fits, Bool.and_eq_true, decide_eq_true_eq] at hfits
  have : source.bytes.size = source.size := rfl
  omega

theorem fits_whole (hsize : source.size < Word.modulus) :
    source.whole.fits source.size ∧ source.slice source.whole = source.bytes := by
  have hstop : source.whole.stop = source.size := by
    rw [Span.stop, whole, Nat.zero_add]
    exact Nat.mod_eq_of_lt hsize
  have hfits : source.whole.fits source.size := by
    simp only [Span.fits, hstop, Bool.and_eq_true, decide_eq_true_eq]
    exact ⟨Nat.zero_le _, Nat.le_refl _⟩
  refine ⟨hfits, ?_⟩
  rw [slice, if_pos hfits, hstop]
  exact ByteArray.extract_zero_size

/-- A span inside a span cuts the same bytes out of the text by itself. -/
theorem slice_shift (hfits : record.fits source.size)
    (hspan : span.offset + span.len ≤ (source.slice record).size) :
    source.slice (span.shift record.offset) = (source.alone record).slice span := by
  obtain ⟨hsize, hle, hstop, hlt⟩ := size_slice hfits
  have hinner : span.stop = span.offset + span.len := Nat.mod_eq_of_lt (by omega)
  have houter : (span.shift record.offset).stop = record.offset + (span.offset + span.len) := by
    show (record.offset + span.offset + span.len) % Word.modulus = _
    rw [Nat.add_assoc, Nat.mod_eq_of_lt (by omega)]
  have hfitsInner : span.fits (source.alone record).size := by
    simp only [Span.fits, hinner, Bool.and_eq_true, decide_eq_true_eq]
    exact ⟨Nat.le_add_right _ _, hspan⟩
  have hfitsOuter : (span.shift record.offset).fits source.size := by
    simp only [Span.fits, houter, Bool.and_eq_true, decide_eq_true_eq]
    simp only [Span.shift]
    omega
  have hbytes : (source.alone record).bytes = source.bytes.extract record.offset record.stop := by
    rw [alone, ofBytes, slice, if_pos hfits]
  rw [slice, if_pos hfitsOuter, slice, if_pos hfitsInner, houter, hinner, hbytes,
    ByteArray.extract_extract, Span.shift]
  congr 1
  omega

end ByteSource

open ByteSource

/-- **A span reads as its text does by itself.** -/
theorem readTree_eq_alone (hfits : record.fits source.size) :
    Scanner.readTree source record =
      (Scanner.readTree (source.alone record) (source.alone record).whole).map
        (Node.shift record.offset) := by
  obtain ⟨hsize, -, -, hlt⟩ := size_slice hfits
  have hsmall : (source.alone record).size < Word.modulus := by
    have : (source.alone record).size = (source.slice record).size := rfl
    omega
  obtain ⟨hwhole, hbytes⟩ := fits_whole hsmall
  have hparse := Node.parse_shift record.offset 0
  unfold Scanner.readTree
  rw [if_pos hfits, if_pos hwhole, hbytes]
  have halone : (source.alone record).bytes = source.slice record := rfl
  dsimp only
  rw [halone]
  cases Utf8.decode (source.slice record) with
  | error valid => rfl
  | ok text =>
    simp only [whole]
    rw [← Nat.add_zero record.offset, hparse text]
    cases Node.parse 0 text with
    | error fault =>
      simp only [Json.moved, Fault.locate_shift]
      rfl
    | ok node => rfl

/-- **A span scans as its text does by itself**, moved to its place. -/
theorem scan_eq_alone (hfits : record.fits source.size) :
    scanner.scan source s record = movedScan (Cell.shift record.offset)
      (scanner.scan (source.alone record) s (source.alone record).whole) := by
  unfold Scanner.scan
  rw [readTree_eq_alone hfits]
  cases hread : Scanner.readTree (source.alone record) (source.alone record).whole with
  | error e => rfl
  | ok node =>
    refine scanNode_shift fun m hm => slice_shift hfits ?_
    obtain ⟨-, -, -, hle⟩ := readTree_part hread hm
    simpa [whole, alone, ByteSource.size, ofBytes] using hle

end JsonLines
