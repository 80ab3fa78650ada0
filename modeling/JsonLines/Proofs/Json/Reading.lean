/-
JsonLines.Proofs.Json.Reading — reading a text accepts exactly the grammar.

Whatever is read is written by the characters that were passed over (`writes_of_readValue`), and
what is written is read, with room for two calls a character (`readValue_of_writes`). For whole
texts both come together in `parse_eq_ok_iff`: a text parses to a value when it writes that value
between blanks.
-/
import JsonLines.Proofs.Json.Grammar

namespace JsonLines.Json.Node

open Utf8

variable {p room : Nat} {c d : Cursor} {cs own before rest : List Char} {node : Node} {key : Key}
  {items : List Node} {members : List (Key × Node)}

/-! ## What is read is written -/

theorem skip_rest {ch : Char} {tail : List Char} (h : c.rest = ch :: tail) :
    c.rest = ch :: c.skip.rest ∧ c.skip.position = c.position + 1 := by
  simp [Cursor.skip, h]

theorem of_readWord {letters : List Char} (h : readWord c letters = .ok d) :
    c.rest = letters ++ d.rest ∧ d.position = c.position + letters.length := by
  induction letters generalizing c with
  | nil =>
    cases h
    exact ⟨rfl, rfl⟩
  | cons letter letters ih =>
    simp only [readWord] at h
    split at h
    · cases h
    rename_i ch tail hrest
    split at h
    · rename_i hch
      obtain ⟨happend, hpos⟩ := ih h
      obtain ⟨hskip, hskipPos⟩ := skip_rest hrest
      refine ⟨?_, ?_⟩
      · rw [hskip, hch, happend]
        rfl
      · rw [hpos, hskipPos, List.length_cons]
        omega
    · cases h

/-- A word of one-byte letters, the first of which is already seen. -/
theorem of_readWord_skip {first : Char} {letters tail : List Char}
    (hrest : c.rest = first :: tail) (hwidth : width (first :: letters) = letters.length + 1)
    (h : readWord c.skip letters = .ok d) :
    c.rest = (first :: letters) ++ d.rest ∧
      d.position = c.position + width (first :: letters) := by
  obtain ⟨happend, hpos⟩ := of_readWord h
  obtain ⟨hskip, hskipPos⟩ := skip_rest hrest
  refine ⟨?_, ?_⟩
  · rw [hskip, happend]
    rfl
  · rw [hpos, hskipPos, hwidth]
    omega

/-- The span from a cursor to the end of what was passed over. -/
theorem spanTo_of_position (h : d.position = c.position + width own) :
    c.spanTo d = ⟨c.position, width own⟩ := by
  rw [Cursor.spanTo, h, Nat.add_sub_cancel_left]

theorem width_quoted (cs : List Char) : width ('"' :: (cs ++ ['"'])) = width cs + 2 := by
  have hquote : '"'.utf8Size = 1 := by decide
  simp only [width_cons, width_append, width_nil, hquote]
  omega

theorem writes_of_readScalar (h : readScalar c = .ok (node, d)) :
    ∃ own, c.rest = own ++ d.rest ∧ Writes c.position own node ∧
      d.position = c.position + width own := by
  unfold readScalar at h
  split at h
  · rename_i tail hrest
    split at h
    · cases h
    rename_i e hword
    cases h
    obtain ⟨happend, hpos⟩ := of_readWord_skip hrest (by decide) hword
    exact ⟨_, happend, ⟨spanTo_of_position hpos, rfl⟩, hpos⟩
  · rename_i tail hrest
    split at h
    · cases h
    rename_i e hword
    cases h
    obtain ⟨happend, hpos⟩ := of_readWord_skip hrest (by decide) hword
    exact ⟨_, happend, ⟨spanTo_of_position hpos, rfl⟩, hpos⟩
  · rename_i tail hrest
    split at h
    · cases h
    rename_i e hword
    cases h
    obtain ⟨happend, hpos⟩ := of_readWord_skip hrest (by decide) hword
    exact ⟨_, happend, ⟨spanTo_of_position hpos, rfl⟩, hpos⟩
  · rename_i tail hrest
    split at h
    · cases h
    rename_i raw e hskim
    cases h
    obtain ⟨hraw, htail, hpos⟩ := Literal.skim_eq_ok_iff.mp hskim
    have hpos' : d.position = c.position + width ('"' :: (raw ++ ['"'])) := by
      rw [hpos, width_quoted]
      omega
    refine ⟨'"' :: (raw ++ ['"']), ?_, ⟨spanTo_of_position hpos', rfl, hraw⟩, hpos'⟩
    rw [hrest, htail]
    simp
  · split at h
    · split at h
      · cases h
      rename_i numeral e hread
      cases h
      obtain ⟨own, hwritten, happend, hpos⟩ := Numeral.written_of_read hread
      rw [← Numeral.width_of_written hwritten] at hpos
      exact ⟨own, happend, ⟨spanTo_of_position hpos, hwritten⟩, hpos⟩
    · cases h
  · cases h

theorem writesKey_of_readKey (h : readKey c = .ok (key, d)) :
    ∃ head, c.rest = head ++ d.rest ∧ WritesKey c.position head key ∧
      d.position = c.position + width head := by
  unfold readKey at h
  split at h
  · cases h
  · rename_i tail hrest
    split at h
    · cases h
    rename_i raw e hskim
    obtain ⟨hraw, htail, hpos⟩ := Literal.skim_eq_ok_iff.mp hskim
    obtain ⟨after, hafter, happend, hpos'⟩ := of_skipBlanks e
    dsimp only at h
    split at h
    · cases h
    · rename_i tail' hcolon
      cases h
      obtain ⟨hskip, hskipPos⟩ := skip_rest hcolon
      refine ⟨'"' :: (raw ++ ('"' :: (after ++ [':']))), ?_, ⟨[], after, rfl, blanks_nil, hafter,
        hraw, rfl⟩, ?_⟩
      · rw [hrest, htail, happend, hskip]
        simp
      · have hquote : '"'.utf8Size = 1 := by decide
        have hcolon : ':'.utf8Size = 1 := by decide
        rw [hskipPos, hpos', hpos]
        simp only [width_cons, width_append, width_nil, hquote, hcolon]
        omega
    · cases h
  · cases h

/-- What reading a value from its first character on passes over. -/
def Reads (c : Cursor) (node : Node) (d : Cursor) : Prop :=
  ∃ own, c.rest = own ++ d.rest ∧ Writes c.position own node ∧ d.position = c.position + width own

/-- What reading the items of an array passes over, its closing bracket included. -/
def ReadsItems (c : Cursor) (items : List Node) (d : Cursor) : Prop :=
  ∃ inner, c.rest = inner ++ (']' :: d.rest) ∧ WritesItems c.position inner items ∧
    d.position = c.position + width inner + 1

/-- What reading the members of an object passes over, its closing brace included. -/
def ReadsMembers (c : Cursor) (members : List (Key × Node)) (d : Cursor) : Prop :=
  ∃ inner, c.rest = inner ++ ('\x7d' :: d.rest) ∧ WritesMembers c.position inner members ∧
    d.position = c.position + width inner + 1

/-- Blanks in front of items belong to what is passed over. -/
theorem ReadsItems.blanks (h : ReadsItems c.skipBlanks items d) : ReadsItems c items d := by
  obtain ⟨before, hbefore, hrest, hpos⟩ := of_skipBlanks c
  obtain ⟨inner, hinner, hitems, hend⟩ := h
  refine ⟨before ++ inner, ?_, (hpos ▸ hitems).blanks hbefore, ?_⟩
  · rw [hrest, hinner, List.append_assoc]
  · rw [hend, hpos, width_append]
    omega

/-- Blanks in front of members belong to what is passed over. -/
theorem ReadsMembers.blanks (h : ReadsMembers c.skipBlanks members d) :
    ReadsMembers c members d := by
  obtain ⟨before, hbefore, hrest, hpos⟩ := of_skipBlanks c
  obtain ⟨inner, hinner, hmembers, hend⟩ := h
  refine ⟨before ++ inner, ?_, (hpos ▸ hmembers).blanks hbefore, ?_⟩
  · rw [hrest, hinner, List.append_assoc]
  · rw [hend, hpos, width_append]
    omega

theorem width_bracketed {first last : Char} (hfirst : first.utf8Size = 1)
    (hlast : last.utf8Size = 1) (cs : List Char) :
    width (first :: (cs ++ [last])) = width cs + 2 := by
  simp only [width_cons, width_append, width_nil, hfirst, hlast]
  omega

/-- An array, after its opening bracket. -/
theorem ReadsItems.array {tail : List Char} (hrest : c.rest = '[' :: tail)
    (h : ReadsItems c.skip items d) : Reads c (.array (c.spanTo d) items) d := by
  obtain ⟨hskip, hskipPos⟩ := skip_rest hrest
  obtain ⟨inner, hinner, hitems, hpos⟩ := h
  have hpos' : d.position = c.position + width ('[' :: (inner ++ [']'])) := by
    rw [hpos, hskipPos, width_bracketed (by decide) (by decide)]
    omega
  refine ⟨'[' :: (inner ++ [']']), ?_, ⟨spanTo_of_position hpos', inner, rfl, hskipPos ▸ hitems⟩,
    hpos'⟩
  rw [hskip, hinner]
  simp

/-- An object, after its opening brace. -/
theorem ReadsMembers.object {tail : List Char} (hrest : c.rest = '\x7b' :: tail)
    (h : ReadsMembers c.skip members d) : Reads c (.object (c.spanTo d) members) d := by
  obtain ⟨hskip, hskipPos⟩ := skip_rest hrest
  obtain ⟨inner, hinner, hmembers, hpos⟩ := h
  have hpos' : d.position = c.position + width ('\x7b' :: (inner ++ ['\x7d'])) := by
    rw [hpos, hskipPos, width_bracketed (by decide) (by decide)]
    omega
  refine ⟨'\x7b' :: (inner ++ ['\x7d']), ?_,
    ⟨spanTo_of_position hpos', inner, rfl, hskipPos ▸ hmembers⟩, hpos'⟩
  rw [hskip, hinner]
  simp

/-- No items, and the closing bracket. -/
theorem readsItems_nil {tail : List Char} (hrest : c.rest = ']' :: tail) :
    ReadsItems c [] c.skip := by
  obtain ⟨hskip, hskipPos⟩ := skip_rest hrest
  exact ⟨[], hskip, blanks_nil, hskipPos⟩

/-- No members, and the closing brace. -/
theorem readsMembers_nil {tail : List Char} (hrest : c.rest = '\x7d' :: tail) :
    ReadsMembers c [] c.skip := by
  obtain ⟨hskip, hskipPos⟩ := skip_rest hrest
  exact ⟨[], hskip, blanks_nil, hskipPos⟩

/-- An item, the blanks around it, and what is read after them. -/
theorem Reads.consItem {e : Cursor} {last : Char} {tail : List Char}
    (h : Reads c.skipBlanks node e) (hrest : e.skipBlanks.rest = last :: tail)
    (hlast : last = ']' ∧ items = [] ∧ d = e.skipBlanks.skip ∨
      last = ',' ∧ items ≠ [] ∧ ReadsItems e.skipBlanks.skip items d) :
    ReadsItems c (node :: items) d := by
  obtain ⟨before, hbefore, hcrest, hcpos⟩ := of_skipBlanks c
  obtain ⟨own, hown, hwrites, hepos⟩ := h
  obtain ⟨after, hafter, herest, hepos'⟩ := of_skipBlanks e
  obtain ⟨hskip, hskipPos⟩ := skip_rest hrest
  rcases hlast with ⟨rfl, rfl, rfl⟩ | ⟨rfl, hne, inner, hinner, hitems, hpos⟩
  · refine ⟨before ++ (own ++ (after ++ [])), ?_,
      ⟨before, own, after, [], rfl, hbefore, hcpos ▸ hwrites, hafter, .inl ⟨rfl, rfl⟩⟩, ?_⟩
    · rw [hcrest, hown, herest, hskip]
      simp
    · rw [hskipPos, hepos', hepos, hcpos]
      simp only [width_append, width_nil]
      omega
  · have hcomma : ','.utf8Size = 1 := by decide
    have hstart : e.skipBlanks.skip.position =
        c.position + width before + width own + width after + 1 := by
      rw [hskipPos, hepos', hepos, hcpos]
    refine ⟨before ++ (own ++ (after ++ ',' :: inner)), ?_,
      ⟨before, own, after, _, rfl, hbefore, hcpos ▸ hwrites, hafter,
        .inr ⟨hne, inner, rfl, hstart ▸ hitems⟩⟩, ?_⟩
    · rw [hcrest, hown, herest, hskip, hinner]
      simp
    · rw [hpos, hstart]
      simp only [width_append, width_cons, hcomma]
      omega

/-- A member, the blanks around its value, and what is read after them. -/
theorem Reads.consMember {e f : Cursor} {last : Char} {tail : List Char}
    (hkey : ∃ head, c.rest = head ++ f.rest ∧ WritesKey c.position head key ∧
      f.position = c.position + width head)
    (h : Reads f.skipBlanks node e) (hrest : e.skipBlanks.rest = last :: tail)
    (hlast : last = '\x7d' ∧ members = [] ∧ d = e.skipBlanks.skip ∨
      last = ',' ∧ members ≠ [] ∧ ReadsMembers e.skipBlanks.skip members d) :
    ReadsMembers c ((key, node) :: members) d := by
  obtain ⟨head, hcrest, hhead, hcpos⟩ := hkey
  obtain ⟨before, hbefore, hfrest, hfpos⟩ := of_skipBlanks f
  obtain ⟨own, hown, hwrites, hepos⟩ := h
  obtain ⟨after, hafter, herest, hepos'⟩ := of_skipBlanks e
  obtain ⟨hskip, hskipPos⟩ := skip_rest hrest
  rw [hfpos, hcpos] at hwrites
  rcases hlast with ⟨rfl, rfl, rfl⟩ | ⟨rfl, hne, inner, hinner, hmembers, hpos⟩
  · refine ⟨head ++ (before ++ (own ++ (after ++ []))), ?_,
      ⟨head, before, own, after, [], rfl, hhead, hbefore, hwrites, hafter, .inl ⟨rfl, rfl⟩⟩, ?_⟩
    · rw [hcrest, hfrest, hown, herest, hskip]
      simp
    · rw [hskipPos, hepos', hepos, hfpos, hcpos]
      simp only [width_append, width_nil]
      omega
  · have hcomma : ','.utf8Size = 1 := by decide
    have hstart : e.skipBlanks.skip.position =
        c.position + width head + width before + width own + width after + 1 := by
      rw [hskipPos, hepos', hepos, hfpos, hcpos]
    refine ⟨head ++ (before ++ (own ++ (after ++ ',' :: inner))), ?_,
      ⟨head, before, own, after, _, rfl, hhead, hbefore, hwrites, hafter,
        .inr ⟨hne, inner, rfl, hstart ▸ hmembers⟩⟩, ?_⟩
    · rw [hcrest, hfrest, hown, herest, hskip, hinner]
      simp
    · rw [hpos, hstart]
      simp only [width_append, width_cons, hcomma]
      omega

/-- A value that starts with a bracket or a brace is read by its parts, any other as a whole. -/
theorem reads_of_readValue
    (ihItems : ∀ {c items d}, readItems room c = .ok (items, d) → items ≠ [] ∧ ReadsItems c items d)
    (ihMembers : ∀ {c members d}, readMembers room c = .ok (members, d) →
      members ≠ [] ∧ ReadsMembers c members d)
    (h : readValue (room + 1) c = .ok (node, d)) : Reads c.skipBlanks node d := by
  rw [readValue] at h
  dsimp only at h
  split at h
  · rename_i tail hrest
    split at h
    · cases h
    · rename_i tail' hclose
      cases h
      exact (readsItems_nil hclose).blanks.array hrest
    · split at h
      · cases h
      rename_i items e hitems
      cases h
      exact (ihItems hitems).2.blanks.array hrest
  · rename_i tail hrest
    split at h
    · cases h
    · rename_i tail' hclose
      cases h
      exact (readsMembers_nil hclose).blanks.object hrest
    · split at h
      · cases h
      rename_i members e hmembers
      cases h
      exact (ihMembers hmembers).2.blanks.object hrest
  · exact writes_of_readScalar h

/-- One item, and the items after it. -/
theorem reads_of_readItems
    (ihValue : ∀ {c node d}, readValue room c = .ok (node, d) → Reads c.skipBlanks node d)
    (ihItems : ∀ {c items d}, readItems room c = .ok (items, d) → items ≠ [] ∧ ReadsItems c items d)
    (h : readItems (room + 1) c = .ok (items, d)) : items ≠ [] ∧ ReadsItems c items d := by
  rw [readItems] at h
  split at h
  · cases h
  rename_i item e hitem
  have hreads := ihValue hitem
  dsimp only at h
  split at h
  · cases h
  · rename_i tail hclose
    cases h
    exact ⟨List.cons_ne_nil _ _, hreads.consItem hclose (.inl ⟨rfl, rfl, rfl⟩)⟩
  · rename_i tail hcomma
    split at h
    · cases h
    rename_i items' e' hitems
    cases h
    obtain ⟨hne, hrest⟩ := ihItems hitems
    exact ⟨List.cons_ne_nil _ _, hreads.consItem hcomma (.inr ⟨rfl, hne, hrest⟩)⟩
  · cases h

/-- One member, and the members after it. -/
theorem reads_of_readMembers
    (ihValue : ∀ {c node d}, readValue room c = .ok (node, d) → Reads c.skipBlanks node d)
    (ihMembers : ∀ {c members d}, readMembers room c = .ok (members, d) →
      members ≠ [] ∧ ReadsMembers c members d)
    (h : readMembers (room + 1) c = .ok (members, d)) :
    members ≠ [] ∧ ReadsMembers c members d := by
  rw [readMembers] at h
  split at h
  · cases h
  rename_i key e hkey
  split at h
  · cases h
  rename_i value f hvalue
  have hreads := ihValue hvalue
  dsimp only at h
  split at h
  · cases h
  · rename_i tail hclose
    cases h
    have := hreads.consMember (writesKey_of_readKey hkey) hclose (.inl ⟨rfl, rfl, rfl⟩)
    exact ⟨List.cons_ne_nil _ _, this.blanks⟩
  · rename_i tail hcomma
    split at h
    · cases h
    rename_i members' e' hmembers
    cases h
    obtain ⟨hne, hrest⟩ := ihMembers hmembers
    have := hreads.consMember (writesKey_of_readKey hkey) hcomma (.inr ⟨rfl, hne, hrest⟩)
    exact ⟨List.cons_ne_nil _ _, this.blanks⟩
  · cases h

/-- What any number of calls reads is written by what it passes over. -/
theorem reads_of_room (room : Nat) :
    (∀ {c node d}, readValue room c = .ok (node, d) → Reads c.skipBlanks node d) ∧
      (∀ {c items d}, readItems room c = .ok (items, d) → items ≠ [] ∧ ReadsItems c items d) ∧
      ∀ {c members d}, readMembers room c = .ok (members, d) →
        members ≠ [] ∧ ReadsMembers c members d := by
  induction room with
  | zero =>
    refine ⟨?_, ?_, ?_⟩ <;> intro c _ d h
    · rw [readValue] at h
      cases h
    · rw [readItems] at h
      cases h
    · rw [readMembers] at h
      cases h
  | succ room ih =>
    obtain ⟨ihValue, ihItems, ihMembers⟩ := ih
    exact ⟨reads_of_readValue ihItems ihMembers, reads_of_readItems ihValue ihItems,
      reads_of_readMembers ihValue ihMembers⟩

/-! ## What is written is read -/

theorem readWord_append {letters : List Char} :
    readWord ⟨p, letters ++ rest⟩ letters = .ok ⟨p + letters.length, rest⟩ := by
  induction letters generalizing p with
  | nil => rfl
  | cons letter letters ih =>
    simp only [List.cons_append, readWord, Cursor.skip, List.tail_cons, ih, if_true,
      List.length_cons]
    congr 2
    omega

/-- The letters of a word after the first one. -/
theorem readWord_skip {first : Char} {letters : List Char}
    (hwidth : width (first :: letters) = letters.length + 1) :
    readWord (Cursor.skip ⟨p, first :: (letters ++ rest)⟩) letters =
      .ok ⟨p + width (first :: letters), rest⟩ := by
  have hpos : p + width (first :: letters) = p + 1 + letters.length := by omega
  rw [Cursor.skip, List.tail_cons, readWord_append, hpos]

theorem spanTo_add (n : Nat) (cs ds : List Char) :
    Cursor.spanTo ⟨p, cs⟩ ⟨p + n, ds⟩ = ⟨p, n⟩ := by
  rw [Cursor.spanTo, Nat.add_sub_cancel_left]

theorem readScalar_null : readScalar ⟨p, word none ++ rest⟩ =
    .ok (.null ⟨p, width (word none)⟩, ⟨p + width (word none), rest⟩) := by
  have hword : readWord (Cursor.skip ⟨p, word none ++ rest⟩) ['u', 'l', 'l'] =
    .ok ⟨p + width (word none), rest⟩ := readWord_skip (by decide)
  simp only [word, List.cons_append, List.nil_append] at hword ⊢
  simp only [readScalar, hword, spanTo_add]

theorem readScalar_boolean (value : Bool) : readScalar ⟨p, word (some value) ++ rest⟩ =
    .ok (.boolean ⟨p, width (word (some value))⟩ value,
      ⟨p + width (word (some value)), rest⟩) := by
  cases value with
  | true =>
    have hword : readWord (Cursor.skip ⟨p, word (some true) ++ rest⟩) ['r', 'u', 'e'] =
      .ok ⟨p + width (word (some true)), rest⟩ := readWord_skip (by decide)
    simp only [word, List.cons_append, List.nil_append] at hword ⊢
    simp only [readScalar, hword, spanTo_add]
  | false =>
    have hword : readWord (Cursor.skip ⟨p, word (some false) ++ rest⟩) ['a', 'l', 's', 'e'] =
      .ok ⟨p + width (word (some false)), rest⟩ := readWord_skip (by decide)
    simp only [word, List.cons_append, List.nil_append] at hword ⊢
    simp only [readScalar, hword, spanTo_add]

theorem readScalar_text {raw : List Char} (h : Literal.Written raw) :
    readScalar ⟨p, '"' :: (raw ++ ['"']) ++ rest⟩ =
      .ok (.text ⟨p, width ('"' :: (raw ++ ['"']))⟩ raw,
        ⟨p + width ('"' :: (raw ++ ['"'])), rest⟩) := by
  have hskim : Literal.skim (p + 1) (raw ++ '"' :: rest) =
    .ok (raw, ⟨p + 1 + width raw + 1, rest⟩) := Literal.skim_of_written h
  have hpos : p + width ('"' :: (raw ++ ['"'])) = p + 1 + width raw + 1 := by
    rw [width_quoted]
    omega
  simp only [List.cons_append, List.append_assoc, List.nil_append, readScalar, hskim, ← hpos,
    spanTo_add]

theorem readScalar_number {numeral : Numeral} (h : numeral.Written own)
    (hrest : Numeral.Ends rest) :
    readScalar ⟨p, own ++ rest⟩ =
      .ok (.number ⟨p, width own⟩ numeral, ⟨p + width own, rest⟩) := by
  have hread : Numeral.read .invalidNumber ⟨p, own ++ rest⟩ =
    .ok (numeral, ⟨p + own.length, rest⟩) := Numeral.read_of_written h hrest
  rw [← Numeral.width_of_written h] at hread
  obtain ⟨ch, tail, rfl, hch⟩ := Numeral.head_of_written h
  have hne : ∀ {first : Char}, first ≠ '-' → first.isDigit = false → ch ≠ first := by
    rintro first hminus hdigit rfl
    rcases hch with rfl | hch
    · exact hminus rfl
    · rw [hdigit] at hch
      cases hch
  unfold readScalar
  split
  · rename_i hcons
    exact absurd (List.cons.inj hcons).1 (hne (by decide) (by decide))
  · rename_i hcons
    exact absurd (List.cons.inj hcons).1 (hne (by decide) (by decide))
  · rename_i hcons
    exact absurd (List.cons.inj hcons).1 (hne (by decide) (by decide))
  · rename_i hcons
    exact absurd (List.cons.inj hcons).1 (hne (by decide) (by decide))
  · rename_i ch' tail' _ _ _ _ hcons
    rw [if_pos ((List.cons.inj hcons).1 ▸ hch), hread]
    simp only [spanTo_add]
  · rename_i hnil
    cases hnil

/-! ## Reading containers -/

/-- A value that starts with neither a bracket nor a brace. -/
theorem readValue_scalar (hbefore : Blanks before) (hwrites : Writes (p + width before) own node)
    (hbracket : own.head? ≠ some '[') (hbrace : own.head? ≠ some '\x7b') :
    readValue (room + 1) ⟨p, before ++ (own ++ rest)⟩ =
      readScalar ⟨p + width before, own ++ rest⟩ := by
  rw [readValue, skipBlanks_append hbefore hwrites.starts]
  obtain ⟨ch, tail, rfl, -⟩ := hwrites.head
  dsimp only [List.cons_append]
  split
  · rename_i hcons
    exact absurd (congrArg some (List.cons.inj hcons).1) hbracket
  · rename_i hcons
    exact absurd (congrArg some (List.cons.inj hcons).1) hbrace
  · rfl

/-- A value is read back from every text that writes it, whatever follows. -/
def ReadsBack (node : Node) : Prop :=
  ∀ {p room own before rest}, Blanks before → Writes (p + width before) own node →
    Numeral.Ends rest → 2 * own.length ≤ room →
    readValue room ⟨p, before ++ (own ++ rest)⟩ =
      .ok (node, ⟨p + width before + width own, rest⟩)

theorem readItems_of_writes {inner : List Char} (ih : ∀ item ∈ items, ReadsBack item)
    (hne : items ≠ []) (h : WritesItems p inner items) (hroom : 2 * inner.length < room) :
    readItems room ⟨p, inner ++ ']' :: rest⟩ = .ok (items, ⟨p + width inner + 1, rest⟩) := by
  induction items generalizing p inner room with
  | nil => exact absurd rfl hne
  | cons item items ih' =>
    obtain ⟨before, own, after, tail, rfl, hbefore, hown, hafter, htail⟩ := h
    obtain ⟨room, rfl⟩ : ∃ n, room = n + 1 := ⟨room - 1, by omega⟩
    simp only [List.length_append] at hroom
    have hvalue : ∀ {rest}, Numeral.Ends rest → readValue room ⟨p, before ++ (own ++ rest)⟩ =
        .ok (item, ⟨p + width before + width own, rest⟩) := fun {rest} hrest =>
      ih item List.mem_cons_self hbefore hown hrest (by omega)
    rcases htail with ⟨rfl, rfl⟩ | ⟨hne', tail, rfl, hitems⟩
    · rw [readItems]
      simp only [List.append_assoc, List.nil_append]
      rw [hvalue (hafter.ends (ends_cons (by decide)))]
      dsimp only
      rw [skipBlanks_append hafter (starts_cons (by decide))]
      simp only [Cursor.skip, List.tail_cons, width_append, width_nil, Nat.add_assoc,
        Nat.add_zero]
    · have hrest : readItems room ⟨p + width before + width own + width after + 1,
          tail ++ ']' :: rest⟩ =
          .ok (items, ⟨p + width before + width own + width after + 1 + width tail + 1, rest⟩) :=
        ih' (fun i hi => ih i (List.mem_cons_of_mem _ hi)) hne' hitems (by
          simp only [List.length_cons] at hroom
          omega)
      have hcomma : ','.utf8Size = 1 := by decide
      rw [readItems]
      simp only [List.append_assoc, List.cons_append]
      rw [hvalue (hafter.ends (ends_cons (by decide)))]
      dsimp only
      rw [skipBlanks_append hafter (starts_cons (by decide))]
      simp only [Cursor.skip, List.tail_cons, hrest, width_append, width_cons, hcomma]
      congr 3
      omega

theorem readKey_of_writes {head : List Char} (h : WritesKey p head key) :
    readKey (Cursor.skipBlanks ⟨p, head ++ rest⟩) = .ok (key, ⟨p + width head, rest⟩) := by
  obtain ⟨before, after, rfl, hbefore, hafter, hraw, hpos⟩ := h
  obtain ⟨position, raw⟩ := key
  simp only at hraw hpos
  subst hpos
  have hskim : Literal.skim (p + width before + 1) (raw ++ '"' :: (after ++ ':' :: rest)) =
      .ok (raw, ⟨p + width before + 1 + width raw + 1, after ++ ':' :: rest⟩) :=
    Literal.skim_of_written hraw
  have hquote : '"'.utf8Size = 1 := by decide
  have hcolon : ':'.utf8Size = 1 := by decide
  simp only [List.append_assoc, List.cons_append, List.nil_append]
  rw [skipBlanks_append hbefore (starts_cons (by decide))]
  simp only [readKey, hskim]
  rw [skipBlanks_append hafter (starts_cons (by decide))]
  simp only [Cursor.skip, List.tail_cons, width_append, width_cons, width_nil, hquote, hcolon]
  congr 3
  omega

theorem readMembers_of_writes {inner : List Char} (ih : ∀ m ∈ members, ReadsBack m.2)
    (hne : members ≠ []) (h : WritesMembers p inner members) (hroom : 2 * inner.length < room) :
    readMembers room ⟨p, inner ++ '\x7d' :: rest⟩ =
      .ok (members, ⟨p + width inner + 1, rest⟩) := by
  induction members generalizing p inner room with
  | nil => exact absurd rfl hne
  | cons member members ih' =>
    obtain ⟨key, node⟩ := member
    obtain ⟨head, before, own, after, tail, rfl, hkey, hbefore, hown, hafter, htail⟩ := h
    obtain ⟨room, rfl⟩ : ∃ n, room = n + 1 := ⟨room - 1, by omega⟩
    simp only [List.length_append] at hroom
    have hvalue : ∀ {rest}, Numeral.Ends rest →
        readValue room ⟨p + width head, before ++ (own ++ rest)⟩ =
          .ok (node, ⟨p + width head + width before + width own, rest⟩) := fun {rest} hrest =>
      ih (key, node) List.mem_cons_self hbefore hown hrest (by omega)
    rcases htail with ⟨rfl, rfl⟩ | ⟨hne', tail, rfl, hmembers⟩
    · rw [readMembers]
      simp only [List.append_assoc, List.nil_append]
      rw [readKey_of_writes hkey]
      dsimp only
      rw [hvalue (hafter.ends (ends_cons (by decide)))]
      dsimp only
      rw [skipBlanks_append hafter (starts_cons (by decide))]
      simp only [Cursor.skip, List.tail_cons, width_append, width_nil, Nat.add_assoc,
        Nat.add_zero]
    · have hrest : readMembers room
          ⟨p + width head + width before + width own + width after + 1, tail ++ '\x7d' :: rest⟩ =
          .ok (members,
            ⟨p + width head + width before + width own + width after + 1 + width tail + 1, rest⟩) :=
        ih' (fun i hi => ih i (List.mem_cons_of_mem _ hi)) hne' hmembers (by
          simp only [List.length_cons] at hroom
          omega)
      have hcomma : ','.utf8Size = 1 := by decide
      rw [readMembers]
      simp only [List.append_assoc, List.cons_append]
      rw [readKey_of_writes hkey]
      dsimp only
      rw [hvalue (hafter.ends (ends_cons (by decide)))]
      dsimp only
      rw [skipBlanks_append hafter (starts_cons (by decide))]
      simp only [Cursor.skip, List.tail_cons, hrest, width_append, width_cons, hcomma]
      congr 3
      omega

/-- An array, from the blanks before it to its closing bracket. -/
theorem readValue_array {inner : List Char} (hbefore : Blanks before)
    (ih : ∀ item ∈ items, ReadsBack item)
    (h : WritesItems (p + width before + 1) inner items) (hroom : 2 * inner.length < room) :
    readValue (room + 1) ⟨p, before ++ ('[' :: (inner ++ [']']) ++ rest)⟩ =
      .ok (.array ⟨p + width before, width ('[' :: (inner ++ [']']))⟩ items,
        ⟨p + width before + width ('[' :: (inner ++ [']'])), rest⟩) := by
  have hstarts : Starts ('[' :: (inner ++ [']']) ++ rest) := starts_cons (by decide)
  have hpos : p + width before + width ('[' :: (inner ++ [']'])) =
      p + width before + 1 + width inner + 1 := by
    rw [width_bracketed (by decide) (by decide)]
    omega
  rw [readValue, skipBlanks_append hbefore hstarts]
  simp only [List.cons_append, List.append_assoc, List.nil_append, Cursor.skip, List.tail_cons]
  by_cases hne : items = []
  · subst hne
    have hclose : Cursor.skipBlanks ⟨p + width before + 1, inner ++ ']' :: rest⟩ =
        ⟨p + width before + 1 + width inner, ']' :: rest⟩ :=
      skipBlanks_append h (starts_cons (by decide))
    rw [hclose]
    simp only [List.tail_cons, ← hpos, spanTo_add]
  · obtain ⟨blanks, inner, rfl, hblanks, hitems, ch, tail, rfl, hch⟩ := h.start hne
    have hopen : Cursor.skipBlanks ⟨p + width before + 1, blanks ++ (ch :: tail ++ ']' :: rest)⟩ =
        ⟨p + width before + 1 + width blanks, ch :: tail ++ ']' :: rest⟩ :=
      skipBlanks_append hblanks (starts_cons (isBlank_of_isFirst hch))
    have hread : readItems room ⟨p + width before + 1 + width blanks, ch :: tail ++ ']' :: rest⟩ =
        .ok (items, ⟨p + width before + 1 + width blanks + width (ch :: tail) + 1, rest⟩) :=
      readItems_of_writes ih hne hitems (by simp only [List.length_append] at hroom; omega)
    rw [width_append, ← Nat.add_assoc (p + width before + 1)] at hpos
    rw [List.append_assoc, hopen]
    dsimp only [List.cons_append] at hread ⊢
    split
    · rename_i hnil
      cases hnil
    · rename_i hcons
      exact absurd (List.cons.inj hcons).1 (ne_of_isFirst hch).1
    · rw [hread]
      simp only [← hpos, spanTo_add]

/-- An object, from the blanks before it to its closing brace. -/
theorem readValue_object {inner : List Char} (hbefore : Blanks before)
    (ih : ∀ m ∈ members, ReadsBack m.2)
    (h : WritesMembers (p + width before + 1) inner members) (hroom : 2 * inner.length < room) :
    readValue (room + 1) ⟨p, before ++ ('\x7b' :: (inner ++ ['\x7d']) ++ rest)⟩ =
      .ok (.object ⟨p + width before, width ('\x7b' :: (inner ++ ['\x7d']))⟩ members,
        ⟨p + width before + width ('\x7b' :: (inner ++ ['\x7d'])), rest⟩) := by
  have hstarts : Starts ('\x7b' :: (inner ++ ['\x7d']) ++ rest) := starts_cons (by decide)
  have hpos : p + width before + width ('\x7b' :: (inner ++ ['\x7d'])) =
      p + width before + 1 + width inner + 1 := by
    rw [width_bracketed (by decide) (by decide)]
    omega
  rw [readValue, skipBlanks_append hbefore hstarts]
  simp only [List.cons_append, List.append_assoc, List.nil_append, Cursor.skip, List.tail_cons]
  by_cases hne : members = []
  · subst hne
    have hclose : Cursor.skipBlanks ⟨p + width before + 1, inner ++ '\x7d' :: rest⟩ =
        ⟨p + width before + 1 + width inner, '\x7d' :: rest⟩ :=
      skipBlanks_append h (starts_cons (by decide))
    rw [hclose]
    simp only [List.tail_cons, ← hpos, spanTo_add]
  · obtain ⟨blanks, inner, rfl, hblanks, hmembers, ch, tail, rfl, hch⟩ := h.start hne
    have hopen : Cursor.skipBlanks
        ⟨p + width before + 1, blanks ++ (ch :: tail ++ '\x7d' :: rest)⟩ =
        ⟨p + width before + 1 + width blanks, ch :: tail ++ '\x7d' :: rest⟩ :=
      skipBlanks_append hblanks (starts_cons (isBlank_of_isFirst hch))
    have hread : readMembers room
        ⟨p + width before + 1 + width blanks, ch :: tail ++ '\x7d' :: rest⟩ =
        .ok (members, ⟨p + width before + 1 + width blanks + width (ch :: tail) + 1, rest⟩) :=
      readMembers_of_writes ih hne hmembers (by simp only [List.length_append] at hroom; omega)
    rw [width_append, ← Nat.add_assoc (p + width before + 1)] at hpos
    rw [List.append_assoc, hopen]
    dsimp only [List.cons_append] at hread ⊢
    split
    · rename_i hnil
      cases hnil
    · rename_i hcons
      exact absurd (List.cons.inj hcons).1 (ne_of_isFirst hch).2
    · rw [hread]
      simp only [← hpos, spanTo_add]

theorem readsBack_scalar
    (hread : ∀ {p own rest}, Writes p own node → Numeral.Ends rest →
      readScalar ⟨p, own ++ rest⟩ = .ok (node, ⟨p + width own, rest⟩))
    (hhead : ∀ {p own}, Writes p own node → own.head? ≠ some '[' ∧ own.head? ≠ some '\x7b') :
    ReadsBack node := by
  intro p room own before rest hbefore hwrites hrest hroom
  obtain ⟨ch, tail, rfl, -⟩ := hwrites.head
  simp only [List.length_cons] at hroom
  obtain ⟨room, rfl⟩ : ∃ n, room = n + 1 := ⟨room - 1, by omega⟩
  rw [readValue_scalar hbefore hwrites (hhead hwrites).1 (hhead hwrites).2, hread hwrites hrest]

/-- **What is written is read**, with room for two calls a character. -/
theorem readsBack (node : Node) : ReadsBack node := by
  induction node with
  | null span =>
    refine readsBack_scalar ?_ ?_
    · rintro p own rest ⟨rfl, rfl⟩ -
      exact readScalar_null
    · rintro p own ⟨-, rfl⟩
      decide
  | boolean span value =>
    refine readsBack_scalar ?_ ?_
    · rintro p own rest ⟨rfl, rfl⟩ -
      exact readScalar_boolean value
    · rintro p own ⟨-, rfl⟩
      cases value <;> decide
  | number span numeral =>
    refine readsBack_scalar ?_ ?_
    · rintro p own rest ⟨rfl, hwritten⟩ hrest
      exact readScalar_number hwritten hrest
    · rintro p own ⟨-, hwritten⟩
      obtain ⟨ch, tail, rfl, hch⟩ := Numeral.head_of_written hwritten
      constructor <;> rintro ⟨⟩ <;> exact absurd hch (by decide)
  | text span raw =>
    refine readsBack_scalar ?_ ?_
    · rintro p own rest ⟨rfl, rfl, hraw⟩ -
      exact readScalar_text hraw
    · rintro p own ⟨-, rfl, -⟩
      constructor <;> rintro ⟨⟩
  | array span items ih =>
    rintro p room own before rest hbefore ⟨rfl, inner, rfl, hitems⟩ - hroom
    simp only [List.length_cons, List.length_append, List.length_nil] at hroom
    obtain ⟨room, rfl⟩ : ∃ n, room = n + 1 := ⟨room - 1, by omega⟩
    exact readValue_array hbefore ih hitems (by omega)
  | object span members ih =>
    rintro p room own before rest hbefore ⟨rfl, inner, rfl, hmembers⟩ - hroom
    simp only [List.length_cons, List.length_append, List.length_nil] at hroom
    obtain ⟨room, rfl⟩ : ∃ n, room = n + 1 := ⟨room - 1, by omega⟩
    exact readValue_object hbefore ih hmembers (by omega)

/-! ## Whole texts -/

/-- **The language of texts**: a text parses to a value when it writes that value between
blanks. -/
theorem parse_eq_ok_iff : parse p cs = .ok node ↔ ∃ before own after,
    cs = before ++ (own ++ after) ∧ Blanks before ∧ Writes (p + width before) own node ∧
      Blanks after := by
  unfold parse read
  constructor
  · intro h
    split at h
    · cases h
    rename_i node' d hread
    obtain ⟨before, hbefore, hrest, hpos⟩ := of_skipBlanks ⟨p, cs⟩
    obtain ⟨own, hown, hwrites, -⟩ := (reads_of_room _).1 hread
    obtain ⟨after, hafter, hend, -⟩ := of_skipBlanks d
    split at h
    · rename_i hnil
      cases h
      rw [hnil, List.append_nil] at hend
      refine ⟨before, own, after, ?_, hbefore, hpos ▸ hwrites, hafter⟩
      simp only at hrest
      rw [hrest, hown, hend]
    · cases h
  · rintro ⟨before, own, after, rfl, hbefore, hwrites, hafter⟩
    have hends : Numeral.Ends after := by
      have := hafter.ends (show Numeral.Ends [] from fun _ h => by cases h)
      rwa [List.append_nil] at this
    have hskip : Cursor.skipBlanks ⟨p + width before + width own, after ++ []⟩ =
        ⟨p + width before + width own + width after, []⟩ :=
      skipBlanks_append hafter fun _ h => by cases h
    rw [List.append_nil] at hskip
    rw [readsBack node hbefore hwrites hends (by simp only [List.length_append]; omega)]
    simp only [hskip]

theorem parse_of_writes (h : Writes p cs node) : parse p cs = .ok node :=
  parse_eq_ok_iff.mpr ⟨[], cs, [], (List.append_nil cs).symm, blanks_nil, h, blanks_nil⟩

end JsonLines.Json.Node
