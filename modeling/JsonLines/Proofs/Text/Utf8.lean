/-
JsonLines.Proofs.Text.Utf8 — decoding is the inverse of encoding.

The standard library encodes characters and decodes one of them. From that: `decode` gives back
exactly the characters whose encoding the bytes are, and refuses all other bytes with the length of
their longest valid prefix; the width of characters is the number of their bytes. The encoding of a
character other than a line feed holds no byte of a line feed, so that bytes and characters split
into lines alike.
-/
import JsonLines.Text.Utf8
import Mathlib.Order.Bounds.Basic
import Mathlib.Tactic.Common

namespace JsonLines.Utf8

variable {bytes : ByteArray} {c : Char} {cs ds : List Char} {i m n : Nat}

/-! ## Widths -/

@[simp] theorem width_nil : width [] = 0 := rfl

@[simp] theorem width_cons : width (c :: cs) = c.utf8Size + width cs := rfl

@[simp] theorem width_append : width (cs ++ ds) = width cs + width ds := by
  induction cs with
  | nil => simp
  | cons c cs ih => simp [ih, Nat.add_assoc]

/-- Characters of one byte each. -/
theorem width_eq_length (h : ∀ ch ∈ cs, ch.utf8Size = 1) : width cs = cs.length := by
  induction cs with
  | nil => rfl
  | cons c cs ih =>
    obtain ⟨hc, hcs⟩ := List.forall_mem_cons.mp h
    rw [width_cons, hc, ih hcs, List.length_cons, Nat.add_comm]

theorem size_utf8Encode : cs.utf8Encode.size = width cs := by
  induction cs with
  | nil => simp
  | cons c cs ih =>
    rw [List.utf8Encode_cons, ByteArray.size_append, ih, List.utf8Encode_singleton, width_cons]
    simp

/-! ## Decoding -/

/-- The character at a position stands there with its bytes. -/
theorem extract_of_utf8DecodeChar? (h : bytes.utf8DecodeChar? i = some c) :
    bytes.extract i bytes.size =
      [c].utf8Encode ++ bytes.extract (i + c.utf8Size) bytes.size := by
  have hle := ByteArray.le_size_of_utf8DecodeChar?_eq_some h
  rw [ByteArray.utf8DecodeChar?_eq_utf8DecodeChar?_extract] at h
  have hchar := ByteArray.eq_of_utf8DecodeChar?_eq_some h
  rw [ByteArray.extract_extract, ByteArray.size_extract] at hchar
  have hend : min (i + (min bytes.size bytes.size - i)) bytes.size = bytes.size := by omega
  rw [hend] at hchar
  rw [hchar, List.utf8Encode_singleton]

theorem decodeFrom_eq_ok_iff (hi : i ≤ bytes.size) :
    decodeFrom bytes i = .ok cs ↔ bytes.extract i bytes.size = cs.utf8Encode := by
  constructor
  · intro h
    induction cs generalizing i with
    | nil =>
      rw [decodeFrom] at h
      split at h
      · cases hc : bytes.utf8DecodeChar? i with
        | none => simp [hc] at h
        | some c => cases hr : decodeFrom bytes (i + c.utf8Size) <;> simp [hc, hr] at h
      · rw [List.utf8Encode_nil, ByteArray.extract_eq_empty_iff]
        omega
    | cons d ds ih =>
      rw [decodeFrom] at h
      split at h
      · cases hc : bytes.utf8DecodeChar? i with
        | none => simp [hc] at h
        | some c =>
          cases hr : decodeFrom bytes (i + c.utf8Size) with
          | error e => simp [hc, hr] at h
          | ok rest =>
            simp only [hc, hr, Except.ok.injEq, List.cons.injEq] at h
            obtain ⟨rfl, rfl⟩ := h
            have hle := ByteArray.le_size_of_utf8DecodeChar?_eq_some hc
            rw [extract_of_utf8DecodeChar? hc, ih hle hr, ← List.utf8Encode_cons]
      · simp at h
  · intro h
    induction cs generalizing i with
    | nil =>
      rw [List.utf8Encode_nil, ByteArray.extract_eq_empty_iff] at h
      rw [decodeFrom, if_neg (by omega)]
    | cons c cs ih =>
      have hc : bytes.utf8DecodeChar? i = some c := by
        rw [ByteArray.utf8DecodeChar?_eq_utf8DecodeChar?_extract, h,
          List.utf8DecodeChar?_utf8Encode_cons]
      have hle := ByteArray.le_size_of_utf8DecodeChar?_eq_some hc
      have hpos := c.utf8Size_pos
      rw [extract_of_utf8DecodeChar? hc, @List.utf8Encode_cons c cs,
        ByteArray.append_right_inj] at h
      rw [decodeFrom, if_pos (by omega)]
      simp [hc, ih hle h]

/-- **Decoding inverts encoding**: bytes decode to the characters whose encoding they are. -/
theorem decode_eq_ok_iff : decode bytes = .ok cs ↔ bytes = cs.utf8Encode := by
  rw [decode, decodeFrom_eq_ok_iff (Nat.zero_le _), ByteArray.extract_zero_size]

theorem decode_utf8Encode (cs : List Char) : decode cs.utf8Encode = .ok cs :=
  decode_eq_ok_iff.mpr rfl

/-- Different characters have different bytes. -/
theorem utf8Encode_inj {cs ds : List Char} (h : cs.utf8Encode = ds.utf8Encode) : cs = ds := by
  have hdecode := decode_utf8Encode cs
  rw [h, decode_utf8Encode] at hdecode
  exact (Except.ok.inj hdecode).symm

/-! ## Bytes that do not decode -/

/-- A part that holds the whole character at its start. -/
theorem extract_eq_append (h : bytes.utf8DecodeChar? i = some c) (hle : i + c.utf8Size ≤ m) :
    bytes.extract i m = [c].utf8Encode ++ bytes.extract (i + c.utf8Size) m := by
  have hend := ByteArray.le_size_of_utf8DecodeChar?_eq_some h
  have hchar : bytes.extract i (i + c.utf8Size) = [c].utf8Encode := by
    have hall := extract_of_utf8DecodeChar? h
    rw [ByteArray.extract_eq_extract_append_extract _ (Nat.le_add_right i _) hend] at hall
    exact (ByteArray.append_left_inj _).mp hall
  rw [ByteArray.extract_eq_extract_append_extract _ (Nat.le_add_right i _) hle, hchar]

/-- A part that is not empty is valid when a character stands at its start and what follows the
character is valid. -/
theorem isValidUTF8_extract_iff (him : i < m) (hm : m ≤ bytes.size) :
    (bytes.extract i m).IsValidUTF8 ↔ ∃ c, bytes.utf8DecodeChar? i = some c ∧
      i + c.utf8Size ≤ m ∧ (bytes.extract (i + c.utf8Size) m).IsValidUTF8 := by
  constructor
  · rintro ⟨cs, hcs⟩
    have hsize := congrArg ByteArray.size hcs
    rw [ByteArray.size_extract, size_utf8Encode] at hsize
    cases cs with
    | nil =>
      rw [width_nil] at hsize
      omega
    | cons c cs =>
      rw [width_cons] at hsize
      rw [List.utf8Encode_cons] at hcs
      have hchar : bytes.utf8DecodeChar? i = some c := by
        rw [ByteArray.utf8DecodeChar?_eq_utf8DecodeChar?_extract,
          ByteArray.extract_eq_extract_append_extract m (Nat.le_of_lt him) hm, hcs,
          ByteArray.append_assoc, List.utf8DecodeChar?_utf8Encode_singleton_append]
      have hle : i + c.utf8Size ≤ m := by omega
      rw [extract_eq_append hchar hle, ByteArray.append_right_inj] at hcs
      exact ⟨c, hchar, hle, cs, hcs⟩
  · rintro ⟨c, hchar, hle, cs, hcs⟩
    exact ⟨c :: cs, by rw [extract_eq_append hchar hle, hcs, ← List.utf8Encode_cons]⟩

/-- The positions up to which the bytes from a position on are valid. -/
def validEnds (bytes : ByteArray) (i : Nat) : Set Nat :=
  {m | i ≤ m ∧ m ≤ bytes.size ∧ (bytes.extract i m).IsValidUTF8}

theorem isGreatest_of_decodeFrom (hi : i ≤ bytes.size) (h : decodeFrom bytes i = .error n) :
    IsGreatest (validEnds bytes i) n := by
  fun_induction decodeFrom bytes i with
  | case1 i hlt hnone =>
    cases h
    refine ⟨⟨Nat.le_refl _, hi, [], by simp⟩, ?_⟩
    rintro m ⟨him, hm, hvalid⟩
    by_contra hlt
    obtain ⟨c, hchar, -⟩ := (isValidUTF8_extract_iff (by omega) hm).mp hvalid
    rw [hnone] at hchar
    cases hchar
  | case2 i hlt c hchar e hrest ih =>
    cases h
    have hend := ByteArray.le_size_of_utf8DecodeChar?_eq_some hchar
    have hpos := c.utf8Size_pos
    obtain ⟨⟨hle, hsize, hvalid⟩, hgreatest⟩ := ih hend hrest
    refine ⟨⟨by omega, hsize, ?_⟩, ?_⟩
    · exact (isValidUTF8_extract_iff (by omega) hsize).mpr ⟨c, hchar, hle, hvalid⟩
    · rintro m ⟨him, hm, hvalid'⟩
      by_cases heq : i = m
      · omega
      · obtain ⟨c', hchar', hle', hrest'⟩ := (isValidUTF8_extract_iff (by omega) hm).mp hvalid'
        rw [hchar] at hchar'
        cases hchar'
        exact hgreatest ⟨hle', hm, hrest'⟩
  | case3 | case4 => cases h

theorem isValidUTF8_iff : bytes.IsValidUTF8 ↔ ∃ cs, decode bytes = .ok cs := by
  simp only [decode_eq_ok_iff]
  constructor
  · rintro ⟨cs, hcs⟩
    exact ⟨cs, hcs⟩
  · rintro ⟨cs, hcs⟩
    exact ⟨cs, hcs⟩

/-- **Where decoding fails**: bytes that are not valid are refused with the length of their longest
valid prefix. -/
theorem decode_eq_error_iff : decode bytes = .error n ↔
    ¬ bytes.IsValidUTF8 ∧ IsGreatest (validEnds bytes 0) n := by
  constructor
  · intro h
    refine ⟨?_, isGreatest_of_decodeFrom (Nat.zero_le _) h⟩
    rw [isValidUTF8_iff, h]
    rintro ⟨cs, ⟨⟩⟩
  · rintro ⟨hinvalid, hn⟩
    cases h : decode bytes with
    | ok cs => exact absurd (isValidUTF8_iff.mpr ⟨cs, h⟩) hinvalid
    | error m => rw [hn.unique (isGreatest_of_decodeFrom (Nat.zero_le _) h)]

/-! ## Bytes of characters -/

/-- The bytes of characters, as a list. -/
theorem toList_utf8Encode (cs : List Char) :
    cs.utf8Encode.data.toList = cs.flatMap String.utf8EncodeChar := by
  simp [List.utf8Encode]

/-- **Only characters of one byte have small bytes**: a byte below 128 is its character. -/
theorem toNat_of_mem_utf8EncodeChar {b : UInt8} (h : b ∈ String.utf8EncodeChar c)
    (hb : b.toNat < 128) : c.toNat = b.toNat := by
  have hor : ∀ x y : UInt8, 128 ≤ y.toNat → 128 ≤ (x ||| y).toNat := by
    intro x y hy
    rw [UInt8.toNat_or]
    exact Nat.le_trans hy Nat.right_le_or
  have hsmall : ∀ x y : UInt8, b = x ||| y → 128 ≤ y.toNat → False := by
    intro x y heq hy
    have := hor x y hy
    rw [← heq] at this
    omega
  rw [String.utf8EncodeChar_eq_utf8EncodeCharFast, String.utf8EncodeCharFast] at h
  split at h
  · rename_i hle
    rw [List.mem_singleton] at h
    have hval : c.val.toNat ≤ 127 := hle
    rw [h, UInt32.toNat_toUInt8, Nat.mod_eq_of_lt (by omega)]
    rfl
  · exfalso
    split at h
    · simp only [List.mem_cons, List.not_mem_nil, or_false] at h
      rcases h with h | h <;> exact hsmall _ _ h (by decide)
    split at h
    · simp only [List.mem_cons, List.not_mem_nil, or_false] at h
      rcases h with h | h | h <;> exact hsmall _ _ h (by decide)
    · simp only [List.mem_cons, List.not_mem_nil, or_false] at h
      rcases h with h | h | h | h <;> exact hsmall _ _ h (by decide)

theorem eq_of_mem_utf8EncodeChar {d : Char} {b : UInt8} (h : b ∈ String.utf8EncodeChar c)
    (hd : d.toNat = b.toNat) (hb : b.toNat < 128) : c = d :=
  Char.toNat_inj.mp ((toNat_of_mem_utf8EncodeChar h hb).trans hd.symm)

end JsonLines.Utf8
