/-
JsonLines.Proofs.Source.Lines — lines of bytes and lines of characters.

No line holds a line feed, and each stands at the offset that is given with it (`split_place`).
The other way round, texts that hold no line feed and do not end in a carriage return are the
records of their lines joined by line feeds, each of them at the place that the widths before it
make (`records_joined`), whether blank lines are skipped or not.
-/
import JsonLines.Source.ByteSource
import JsonLines.Proofs.Text.Utf8

namespace JsonLines

open Utf8

namespace Lines

variable {bytes line rest : List UInt8} {start offset : Nat}

/-! ## Splitting -/

theorem split_nil (start : Nat) : split start [] = [] := by rw [split]

theorem takeWhile_append (h : lineFeed ∉ line) :
    (line ++ rest).takeWhile (· != lineFeed) = line ++ rest.takeWhile (· != lineFeed) :=
  List.takeWhile_append_of_pos fun _ hb => bne_iff_ne.mpr fun heq => h (heq ▸ hb)

/-- A line and what follows its line feed. -/
theorem split_append (h : lineFeed ∉ line) :
    split start (line ++ lineFeed :: rest) =
      (start, line) :: split (start + line.length + 1) rest := by
  have htake : (line ++ lineFeed :: rest).takeWhile (· != lineFeed) = line := by
    rw [takeWhile_append h]
    simp
  have hdrop : (line ++ lineFeed :: rest).drop (line.length + 1) = rest := by
    rw [← List.drop_drop, List.drop_left]
    rfl
  obtain ⟨b, tail, heq⟩ : ∃ b tail, line ++ lineFeed :: rest = b :: tail := by
    cases line <;> simp
  rw [heq] at htake hdrop ⊢
  rw [split]
  simp only [htake, hdrop]

/-- The last line, which nothing ends. -/
theorem split_last (h : lineFeed ∉ line) (hne : line ≠ []) :
    split start line = [(start, line)] := by
  have htake : line.takeWhile (· != lineFeed) = line := by
    have happend : (line ++ []).takeWhile (· != lineFeed) = line ++ [] := takeWhile_append h
    rwa [List.append_nil] at happend
  obtain ⟨b, tail, rfl⟩ := List.exists_cons_of_ne_nil hne
  rw [split]
  simp only [htake]
  rw [List.drop_eq_nil_of_le (by omega), split_nil]

/-- **A line stands at its offset**, and holds no line feed. -/
theorem split_place (h : (offset, line) ∈ split start bytes) :
    lineFeed ∉ line ∧ ∃ before after, bytes = before ++ (line ++ after) ∧
      offset = start + before.length := by
  fun_induction split start bytes with
  | case1 => cases h
  | case2 start b tail first ih =>
    have hfirst : lineFeed ∉ first := by
      intro hmem
      simpa using List.all_eq_true.mp List.all_takeWhile _ hmem
    rcases List.mem_cons.mp h with heq | hmem
    · obtain ⟨hoffset, hline⟩ := Prod.mk.inj heq
      rw [hline, hoffset]
      exact ⟨hfirst, [], (b :: tail).dropWhile (· != lineFeed),
        List.takeWhile_append_dropWhile.symm, rfl⟩
    · have hlen : first.length + 1 ≤ (b :: tail).length := by
        by_contra hlt
        rw [List.drop_eq_nil_of_le (by omega), split_nil] at hmem
        cases hmem
      obtain ⟨hline, before, after, hdrop, hoffset⟩ := ih hmem
      refine ⟨hline, (b :: tail).take (first.length + 1) ++ before, after, ?_, ?_⟩
      · rw [List.append_assoc, ← hdrop, List.take_append_drop]
      · rw [hoffset, List.length_append, List.length_take_of_le hlen]
        omega

/-! ## Records -/

theorem content_prefix (line : List UInt8) : ∃ after, line = content line ++ after := by
  unfold content
  split
  · rename_i hlast
    obtain ⟨front, rfl⟩ := List.getLast?_eq_some_iff.mp hlast
    exact ⟨[carriageReturn], by rw [List.dropLast_concat]⟩
  · exact ⟨[], (List.append_nil _).symm⟩

end Lines

variable {source : ByteSource} {skip : Bool} {span : Span} {cs : List Char}

/-- **No record holds a line feed.** -/
theorem lineFeed_not_mem_slice (h : span ∈ source.records skip) :
    Lines.lineFeed ∉ (source.slice span).data.toList := by
  simp only [ByteSource.records, ByteSource.lines, List.mem_map, List.mem_filter] at h
  obtain ⟨⟨offset, record⟩, ⟨⟨⟨start, line⟩, hsplit, heq⟩, -⟩, rfl⟩ := h
  cases heq
  obtain ⟨hline, before, after, hbytes, rfl⟩ := Lines.split_place hsplit
  dsimp only
  rw [Nat.zero_add]
  unfold ByteSource.slice
  split
  · have hbytes' : source.bytes.data.toList = before ++ (line ++ after) := hbytes
    obtain ⟨rest, hrest⟩ := Lines.content_prefix line
    have hstop : Span.stop ⟨before.length, (Lines.content line).length⟩ ≤
        before.length + (Lines.content line).length := Nat.mod_le _ _
    have hlength := congrArg List.length hrest
    rw [List.length_append] at hlength
    rw [ByteArray.data_extract, Array.toList_extract, List.extract_eq_take_drop, hbytes',
      List.drop_left, List.take_append_of_le_length (by dsimp only; omega)]
    intro hmem
    exact hline (List.mem_of_mem_take hmem)
  · simp

/-- The characters of a record hold no line feed. -/
theorem newline_not_mem (h : span ∈ source.records skip)
    (hslice : source.slice span = cs.utf8Encode) : '\n' ∉ cs := by
  have hbytes := lineFeed_not_mem_slice h
  rw [hslice, toList_utf8Encode] at hbytes
  intro hmem
  exact hbytes (List.mem_flatMap.mpr ⟨'\n', hmem, by decide⟩)

/-! ## Joining texts to lines -/

/-- A text that is a record when it stands on a line of its own. -/
structure Line (cs : List Char) : Prop where
  no_feed : '\n' ∉ cs
  no_return : '\r' ∉ cs.getLast?
  not_blank : ∃ ch ∈ cs, ch.toNat ∉ [32, 9, 10, 12, 13]

/-- The spans of texts that stand on lines of their own, from a position on. -/
def placed (start : Nat) : List (List Char) → List Span
  | [] => []
  | cs :: texts => ⟨start, width cs⟩ :: placed (start + width cs + 1) texts

/-- The bytes of characters. -/
def bytesOf (cs : List Char) : List UInt8 := cs.flatMap String.utf8EncodeChar

theorem length_bytesOf (cs : List Char) : (bytesOf cs).length = width cs := by
  rw [bytesOf, ← toList_utf8Encode, ← size_utf8Encode]
  rfl

theorem Line.ne_nil (h : Line cs) : bytesOf cs ≠ [] := by
  obtain ⟨ch, hch, -⟩ := h.not_blank
  intro hnil
  exact String.utf8EncodeChar_ne_nil (List.flatMap_eq_nil_iff.mp hnil ch hch)

theorem Line.lineFeed_not_mem (h : Line cs) : Lines.lineFeed ∉ bytesOf cs := by
  intro hmem
  obtain ⟨ch, hch, hb⟩ := List.mem_flatMap.mp hmem
  have hfeed : ch = '\n' := eq_of_mem_utf8EncodeChar hb (by decide) (by decide)
  exact h.no_feed (hfeed ▸ hch)

theorem Line.content_eq (h : Line cs) : Lines.content (bytesOf cs) = bytesOf cs := by
  unfold Lines.content
  split
  · rename_i hlast
    exfalso
    obtain ⟨front, ch, rfl⟩ : ∃ front ch, cs = front ++ [ch] := by
      have hne : cs ≠ [] := by
        rintro rfl
        exact h.ne_nil rfl
      exact ⟨cs.dropLast, cs.getLast hne, (List.dropLast_concat_getLast hne).symm⟩
    have hbytes : bytesOf (front ++ [ch]) = bytesOf front ++ String.utf8EncodeChar ch := by
      simp [bytesOf]
    have hchar : Lines.carriageReturn ∈ String.utf8EncodeChar ch := by
      rw [hbytes, List.getLast?_append] at hlast
      cases htail : (String.utf8EncodeChar ch).getLast? with
      | none => exact absurd (List.getLast?_eq_none_iff.mp htail) String.utf8EncodeChar_ne_nil
      | some b =>
        rw [htail] at hlast
        cases hlast
        exact List.mem_of_getLast? htail
    have hreturn : ch = '\r' :=
      eq_of_mem_utf8EncodeChar hchar (by decide) (by decide)
    exact h.no_return (by rw [hreturn, List.getLast?_concat]; rfl)
  · rfl

theorem Line.not_isBlank (h : Line cs) : Lines.isBlank (bytesOf cs) = false := by
  obtain ⟨ch, hch, hblank⟩ := h.not_blank
  obtain ⟨b, hb⟩ := List.exists_mem_of_ne_nil _ (String.utf8EncodeChar_ne_nil (c := ch))
  rw [Lines.isBlank, List.all_eq_false]
  refine ⟨b, List.mem_flatMap.mpr ⟨ch, hch, hb⟩, fun hb' => hblank ?_⟩
  simp only [Lines.isBlankByte, Bool.or_eq_true, beq_iff_eq] at hb'
  have hsmall : b.toNat < 128 ∧ b.toNat ∈ [32, 9, 10, 12, 13] := by
    rcases hb' with (((rfl | rfl) | rfl) | rfl) | rfl <;> decide
  rw [toNat_of_mem_utf8EncodeChar hb hsmall.1]
  exact hsmall.2

/-- The characters of some texts with a line feed between each and the next. -/
def joined (texts : List (List Char)) : List Char := ['\n'].intercalate texts

theorem joined_singleton (cs : List Char) : joined [cs] = cs := by
  simp [joined, List.intercalate]

theorem joined_cons {texts : List (List Char)} (hne : texts ≠ []) :
    joined (cs :: texts) = cs ++ '\n' :: joined texts := by
  rw [joined, List.intercalate_cons_of_ne_nil hne, List.append_assoc]
  rfl

theorem bytesOf_newline {rest : List Char} :
    bytesOf (cs ++ '\n' :: rest) = bytesOf cs ++ Lines.lineFeed :: bytesOf rest := by
  have hfeed : String.utf8EncodeChar '\n' = [Lines.lineFeed] := by decide
  rw [bytesOf, List.flatMap_append, List.flatMap_cons, hfeed]
  rfl

/-- A join is split into the texts that it joins. -/
theorem split_joined {texts : List (List Char)} (h : ∀ cs ∈ texts, Line cs) (start : Nat) :
    Lines.split start (bytesOf (joined texts)) =
      List.zipWith (fun span cs => (span.offset, bytesOf cs)) (placed start texts) texts := by
  induction texts generalizing start with
  | nil => exact Lines.split_nil start
  | cons cs texts ih =>
    obtain ⟨hcs, htexts⟩ := List.forall_mem_cons.mp h
    rw [placed, List.zipWith_cons_cons, ← ih htexts]
    cases texts with
    | nil =>
      rw [joined_singleton, Lines.split_last hcs.lineFeed_not_mem hcs.ne_nil]
      exact congrArg (_ :: ·) (Lines.split_nil _).symm
    | cons next texts =>
      rw [joined_cons (List.cons_ne_nil next texts), bytesOf_newline,
        Lines.split_append hcs.lineFeed_not_mem, length_bytesOf]

/-- **Texts that are lines are the records of their join**, whether blank lines are skipped or
not. -/
theorem records_joined {texts : List (List Char)} (h : ∀ cs ∈ texts, Line cs) :
    (ByteSource.ofString (String.ofList (joined texts))).records skip = placed 0 texts := by
  have hbytes : (ByteSource.ofString (String.ofList (joined texts))).toList =
      bytesOf (joined texts) := by
    rw [bytesOf, ← toList_utf8Encode]
    rfl
  rw [ByteSource.records, ByteSource.lines, hbytes, split_joined h]
  clear hbytes
  generalize 0 = start
  induction texts generalizing start with
  | nil => rfl
  | cons cs texts ih =>
    obtain ⟨hcs, htexts⟩ := List.forall_mem_cons.mp h
    rw [placed, List.zipWith_cons_cons, List.map_cons, List.filter_cons_of_pos, List.map_cons,
      ih htexts]
    · dsimp only
      rw [hcs.content_eq, length_bytesOf]
    · dsimp only
      rw [hcs.content_eq, hcs.not_isBlank, Bool.and_false]
      rfl

end JsonLines
