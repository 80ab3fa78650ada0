/-
JsonLines.Proofs.Json.Numeral — the grammar of number literals.

`Numeral.Written n cs` says that the characters write the numeral: sign, whole part, fraction and
exponent one after the other. Reading a numeral gives one that the characters passed over write
(`written_of_read`), and it passes over all of a written one if what follows cannot continue it
(`read_of_written`).
-/
import JsonLines.Json.Numeral
import JsonLines.Proofs.Text.Utf8

namespace JsonLines.Numeral

open Utf8

/-! ## The parts of a literal -/

/-- The sign of a literal. -/
def signOf (negative : Bool) : List Char := if negative then ['-'] else []

/-- Decimal digits, one at least. -/
def Digits (ds : List Char) : Prop := ds ≠ [] ∧ ∀ ch ∈ ds, ch.isDigit

/-- A single zero, or digits that do not start with one. -/
def Whole (ds : List Char) : Prop := ds = ['0'] ∨ Digits ds ∧ ds.head? ≠ some '0'

/-- The characters of a fraction, if there is one. -/
inductive Fraction : Option (List Char) → List Char → Prop where
  | none : Fraction none []
  | some {ds : List Char} : Digits ds → Fraction (some ds) ('.' :: ds)

/-- The sign of an exponent, which may be left out unless it is a minus. -/
inductive Sign : Bool → List Char → Prop where
  | none : Sign false []
  | plus : Sign false ['+']
  | minus : Sign true ['-']

/-- The characters of an exponent, if there is one. -/
inductive Power : Option Exponent → List Char → Prop where
  | none : Power none []
  | some {letter : Char} {negative : Bool} {sign ds : List Char} : letter = 'e' ∨ letter = 'E' →
    Sign negative sign → Digits ds → Power (some ⟨negative, ds⟩) (letter :: (sign ++ ds))

/-- The characters write the numeral. -/
def Written (n : Numeral) (cs : List Char) : Prop :=
  ∃ fraction power, Whole n.whole ∧ Fraction n.fraction fraction ∧ Power n.exponent power ∧
    cs = signOf n.negative ++ (n.whole ++ (fraction ++ power))

/-- No digit comes next. -/
def EndsDigits (rest : List Char) : Prop := ∀ ch ∈ rest.head?, ch.isDigit = false

/-- Nothing comes next that would continue a literal. -/
def Ends (rest : List Char) : Prop :=
  ∀ ch ∈ rest.head?, ch.isDigit = false ∧ ch ≠ '.' ∧ ch ≠ 'e' ∧ ch ≠ 'E'

variable {n : Numeral} {cs ds rest part : List Char} {c d : Json.Cursor} {cut : Json.Cause}
  {p : Nat} {negative : Bool}

theorem Ends.digits (h : Ends rest) : EndsDigits rest := fun ch hch => (h ch hch).1

/-! ## Digits -/

theorem isDigit_head (h : Digits ds) : ∃ ch tail, ds = ch :: tail ∧ ch.isDigit := by
  obtain ⟨hne, hall⟩ := h
  cases ds with
  | nil => exact absurd rfl hne
  | cons ch tail => exact ⟨ch, tail, rfl, hall ch List.mem_cons_self⟩

theorem readDigits_append (h : ∀ ch ∈ ds, ch.isDigit) (hrest : EndsDigits rest) :
    readDigits ⟨p, ds ++ rest⟩ = (ds, ⟨p + ds.length, rest⟩) := by
  have htake : rest.takeWhile Char.isDigit = [] := by
    cases rest with
    | nil => rfl
    | cons ch rest => simp [hrest ch rfl]
  have hdrop : rest.dropWhile Char.isDigit = rest := by
    cases rest with
    | nil => rfl
    | cons ch rest => simp [hrest ch rfl]
  simp only [readDigits, List.takeWhile_append_of_pos h, List.dropWhile_append_of_pos h, htake,
    hdrop, List.append_nil]

theorem of_readDigits (h : readDigits c = (ds, d)) :
    (∀ ch ∈ ds, ch.isDigit) ∧ c.rest = ds ++ d.rest ∧ d.position = c.position + ds.length := by
  simp only [readDigits, Prod.mk.injEq] at h
  obtain ⟨rfl, rfl⟩ := h
  refine ⟨fun ch hch => List.all_eq_true.mp List.all_takeWhile ch hch, ?_, rfl⟩
  exact (List.takeWhile_append_dropWhile).symm

/-! ## Reading the parts -/

theorem whole_of_readWhole (h : readWhole cut c = .ok (ds, d)) :
    Whole ds ∧ c.rest = ds ++ d.rest ∧ d.position = c.position + ds.length := by
  unfold readWhole at h
  split at h
  · cases h
  rename_i ch tail hrest
  split at h
  · rename_i hzero
    have htail : c.rest = ['0'] ++ c.skip.rest := by
      simp [Json.Cursor.skip, hrest, hzero]
    split at h
    · split at h
      · cases h
      · cases h
        exact ⟨.inl rfl, htail, rfl⟩
    · cases h
      exact ⟨.inl rfl, htail, rfl⟩
  · rename_i hzero
    split at h
    · rename_i hdigit
      simp only [Except.ok.injEq] at h
      obtain ⟨hall, happend, hpos⟩ := of_readDigits h
      refine ⟨.inr ⟨⟨?_, hall⟩, ?_⟩, happend, hpos⟩
      · rintro rfl
        simp [readDigits, hrest, hdigit] at h
      · intro hhead
        obtain ⟨tail', rfl⟩ := List.head?_eq_some_iff.mp hhead
        rw [hrest] at happend
        exact hzero (List.cons.inj happend).1
    · cases h

theorem readWhole_of_whole (h : Whole ds) (hrest : EndsDigits rest) :
    readWhole cut ⟨p, ds ++ rest⟩ = .ok (ds, ⟨p + ds.length, rest⟩) := by
  rcases h with rfl | ⟨hdigits, hzero⟩
  · cases rest with
    | nil => rfl
    | cons ch rest =>
      have hch := hrest ch rfl
      simp [readWhole, Json.Cursor.skip, hch]
  · have hread := readDigits_append (p := p) hdigits.2 hrest
    obtain ⟨ch, tail, rfl, hdigit⟩ := isDigit_head hdigits
    have hne : ch ≠ '0' := by
      rintro rfl
      exact hzero rfl
    rw [List.cons_append] at hread ⊢
    simp only [readWhole, hne, hdigit, if_true, if_false, hread]

theorem fraction_of_readFraction {fraction : Option (List Char)}
    (h : readFraction cut c = .ok (fraction, d)) :
    ∃ part, Fraction fraction part ∧ c.rest = part ++ d.rest ∧
      d.position = c.position + part.length := by
  unfold readFraction at h
  split at h
  · rename_i tail hrest
    have hskip : c.rest = '.' :: c.skip.rest := by simp [Json.Cursor.skip, hrest]
    split at h
    · cases h
    · rename_i ds e hne hdigits
      cases h
      obtain ⟨hall, happend, hpos⟩ := of_readDigits hdigits
      refine ⟨'.' :: ds, .some ⟨hne, hall⟩, ?_, ?_⟩
      · rw [hskip, happend]
        rfl
      · rw [hpos, List.length_cons, Json.Cursor.skip]
        simp only
        omega
  · cases h
    exact ⟨[], .none, rfl, rfl⟩

theorem readFraction_of_fraction {fraction : Option (List Char)} (h : Fraction fraction part)
    (hdigits : EndsDigits rest) (hpoint : rest.head? ≠ some '.') :
    readFraction cut ⟨p, part ++ rest⟩ = .ok (fraction, ⟨p + part.length, rest⟩) := by
  cases h with
  | none =>
    unfold readFraction
    split
    · rename_i hrest
      simp only [List.nil_append] at hrest
      simp [hrest] at hpoint
    · rfl
  | @some ds hds =>
    have hread := readDigits_append (p := p + 1) hds.2 hdigits
    simp only [readFraction, List.cons_append, Json.Cursor.skip, List.tail_cons, hread]
    obtain ⟨ch, tail, rfl, -⟩ := isDigit_head hds
    simp only [List.length_cons]
    congr 3
    omega

/-- Digits that are read after the letter and the sign of an exponent. -/
theorem power_of_readExponentDigits {power : Option Exponent} {letter : Char} {sign : List Char}
    (hletter : letter = 'e' ∨ letter = 'E') (hsign : Sign negative sign)
    (h : readExponentDigits cut negative ⟨p + (sign.length + 1), rest⟩ = .ok (power, d)) :
    ∃ part, Power power part ∧ letter :: (sign ++ rest) = part ++ d.rest ∧
      d.position = p + part.length := by
  unfold readExponentDigits at h
  split at h
  · cases h
  · rename_i ds e hne hdigits
    cases h
    obtain ⟨hall, happend, hpos⟩ := of_readDigits hdigits
    refine ⟨_, .some hletter hsign ⟨hne, hall⟩, ?_, ?_⟩
    · simp only at happend
      simp [happend]
    · simp only at hpos
      rw [hpos, List.length_cons, List.length_append]
      omega

theorem readExponentDigits_of_digits (h : Digits ds) (hrest : EndsDigits rest) :
    readExponentDigits cut negative ⟨p, ds ++ rest⟩ =
      .ok (some ⟨negative, ds⟩, ⟨p + ds.length, rest⟩) := by
  have hread := readDigits_append (p := p) h.2 hrest
  obtain ⟨ch, tail, rfl, -⟩ := isDigit_head h
  simp only [readExponentDigits, hread]

theorem power_of_readExponent {power : Option Exponent}
    (h : readExponent cut c = .ok (power, d)) :
    ∃ part, Power power part ∧ c.rest = part ++ d.rest ∧
      d.position = c.position + part.length := by
  obtain ⟨p, cs⟩ := c
  cases cs with
  | nil =>
    cases h
    exact ⟨[], .none, rfl, rfl⟩
  | cons letter tail =>
    simp only [readExponent] at h
    split at h
    · rename_i hletter
      split at h
      · exact power_of_readExponentDigits hletter .plus h
      · exact power_of_readExponentDigits hletter .minus h
      · exact power_of_readExponentDigits hletter .none h
    · cases h
      exact ⟨[], .none, rfl, rfl⟩

theorem readExponent_of_power {power : Option Exponent} (h : Power power part)
    (hrest : Ends rest) :
    readExponent cut ⟨p, part ++ rest⟩ = .ok (power, ⟨p + part.length, rest⟩) := by
  cases h with
  | none =>
    unfold readExponent
    split
    · rename_i letter tail hcons
      simp only [List.nil_append] at hcons
      obtain ⟨-, -, he, hE⟩ := hrest letter (by simp [hcons])
      simp [he, hE]
    · rfl
  | @some letter negative sign ds hletter hsign hds =>
    have hread : readExponentDigits cut negative ⟨p + (sign.length + 1), ds ++ rest⟩ =
        .ok (some ⟨negative, ds⟩, ⟨p + (sign.length + 1) + ds.length, rest⟩) :=
      readExponentDigits_of_digits hds hrest.digits
    have hlen : p + (letter :: (sign ++ ds)).length = p + (sign.length + 1) + ds.length := by
      simp only [List.length_cons, List.length_append]
      omega
    rw [hlen, ← hread]
    simp only [List.cons_append, List.append_assoc, readExponent, if_pos hletter]
    cases hsign with
    | plus => rfl
    | minus => rfl
    | none =>
      obtain ⟨ch, tail, rfl, hdigit⟩ := isDigit_head hds
      split
      · rename_i hplus
        rw [(List.cons.inj hplus).1] at hdigit
        exact absurd hdigit (by decide)
      · rename_i hminus
        rw [(List.cons.inj hminus).1] at hdigit
        exact absurd hdigit (by decide)
      · rfl

/-! ## Reading a literal -/

/-- Whether a minus sign comes next, and the cursor past it. -/
def unsigned (c : Json.Cursor) : Bool × Json.Cursor :=
  match c.rest with
  | '-' :: _ => (true, c.skip)
  | _ => (false, c)

theorem unsigned_rest (c : Json.Cursor) :
    c.rest = signOf (unsigned c).1 ++ (unsigned c).2.rest ∧
      (unsigned c).2.position = c.position + (signOf (unsigned c).1).length := by
  unfold unsigned
  split
  · rename_i tail hrest
    simp [signOf, Json.Cursor.skip, hrest]
  · simp [signOf]

/-- What is read after the sign. -/
def readParts (cut : Json.Cause) (negative : Bool) (c : Json.Cursor) :
    Except Json.Fault (Numeral × Json.Cursor) :=
  match readWhole cut c with
  | .error e => .error e
  | .ok (whole, c) =>
    match readFraction cut c with
    | .error e => .error e
    | .ok (fraction, c) =>
      match readExponent cut c with
      | .error e => .error e
      | .ok (exponent, c) => .ok (⟨negative, whole, fraction, exponent⟩, c)

theorem read_eq_readParts : read cut c = readParts cut (unsigned c).1 (unsigned c).2 := rfl

/-- A literal is read part by part. -/
theorem read_eq_ok_iff : read cut c = .ok (n, d) ↔ (unsigned c).1 = n.negative ∧ ∃ c₁ c₂,
    readWhole cut (unsigned c).2 = .ok (n.whole, c₁) ∧
      readFraction cut c₁ = .ok (n.fraction, c₂) ∧ readExponent cut c₂ = .ok (n.exponent, d) := by
  rw [read_eq_readParts]
  obtain ⟨negative, whole, fraction, exponent⟩ := n
  unfold readParts
  constructor
  · intro h
    split at h
    · cases h
    rename_i whole' c₁ hwhole
    split at h
    · cases h
    rename_i fraction' c₂ hfraction
    split at h
    · cases h
    rename_i exponent' c₃ hpower
    cases h
    exact ⟨rfl, c₁, c₂, hwhole, hfraction, hpower⟩
  · rintro ⟨rfl, c₁, c₂, hwhole, hfraction, hpower⟩
    simp only at hwhole hfraction hpower
    simp only [hwhole, hfraction, hpower]

theorem written_of_read (h : read cut c = .ok (n, d)) :
    ∃ cs, Written n cs ∧ c.rest = cs ++ d.rest ∧ d.position = c.position + cs.length := by
  obtain ⟨hsign, c₁, c₂, hwhole, hfraction, hpower⟩ := read_eq_ok_iff.mp h
  obtain ⟨hrest, hpos⟩ := unsigned_rest c
  obtain ⟨hw, hrest₁, hpos₁⟩ := whole_of_readWhole hwhole
  obtain ⟨fraction, hf, hrest₂, hpos₂⟩ := fraction_of_readFraction hfraction
  obtain ⟨power, hp, hrest₃, hpos₃⟩ := power_of_readExponent hpower
  refine ⟨signOf n.negative ++ (n.whole ++ (fraction ++ power)), ⟨fraction, power, hw, hf, hp, rfl⟩,
    ?_, ?_⟩
  · rw [hrest, hrest₁, hrest₂, hrest₃, hsign]
    simp only [List.append_assoc]
  · rw [hpos₃, hpos₂, hpos₁, hpos, hsign]
    simp only [List.length_append]
    omega

theorem unsigned_of_whole (h : Whole ds) :
    unsigned ⟨p, signOf negative ++ (ds ++ rest)⟩ =
      (negative, ⟨p + (signOf negative).length, ds ++ rest⟩) := by
  cases negative with
  | true => rfl
  | false =>
    have hne : ∀ tail, ds ++ rest ≠ '-' :: tail := by
      intro tail
      rcases h with rfl | ⟨hdigits, -⟩
      · simp
      · obtain ⟨ch, tail', rfl, hdigit⟩ := isDigit_head hdigits
        rintro heq
        rw [(List.cons.inj heq).1] at hdigit
        exact absurd hdigit (by decide)
    simp only [unsigned, signOf, Bool.false_eq_true, if_false, List.nil_append, List.length_nil,
      Nat.add_zero]

/-- The characters of a fraction do not start with a digit. -/
theorem Fraction.endsDigits {fraction : Option (List Char)} (h : Fraction fraction part)
    (hrest : EndsDigits rest) : EndsDigits (part ++ rest) := by
  cases h with
  | none => exact hrest
  | some => simp [EndsDigits]

/-- The characters of an exponent start with neither a digit nor a point. -/
theorem Power.ends {power : Option Exponent} (h : Power power part) (hrest : Ends rest) :
    EndsDigits (part ++ rest) ∧ (part ++ rest).head? ≠ Option.some '.' := by
  cases h with
  | none =>
    refine ⟨hrest.digits, ?_⟩
    intro hhead
    exact (hrest '.' hhead).2.1 rfl
  | some hletter =>
    rcases hletter with rfl | rfl <;> simp [EndsDigits]

/-- A written literal is read as a whole, unless what follows continues it. -/
theorem read_of_written (h : Written n cs) (hrest : Ends rest) :
    read cut ⟨p, cs ++ rest⟩ = .ok (n, ⟨p + cs.length, rest⟩) := by
  obtain ⟨fraction, power, hw, hf, hp, rfl⟩ := h
  have hends := hp.ends hrest
  have hlen : p + (signOf n.negative ++ (n.whole ++ (fraction ++ power))).length =
      p + (signOf n.negative).length + n.whole.length + fraction.length + power.length := by
    simp only [List.length_append]
    omega
  rw [hlen, read_eq_ok_iff]
  simp only [List.append_assoc]
  rw [unsigned_of_whole hw]
  exact ⟨rfl, _, _, readWhole_of_whole hw (hf.endsDigits hends.1),
    readFraction_of_fraction hf hends.1 hends.2, readExponent_of_power hp hrest⟩

/-! ## The characters of a literal -/

/-- A literal starts with a minus sign or a digit. -/
theorem head_of_written (h : Written n cs) :
    ∃ ch tail, cs = ch :: tail ∧ (ch = '-' ∨ ch.isDigit) := by
  obtain ⟨fraction, power, hw, -, -, rfl⟩ := h
  cases hneg : n.negative with
  | true => exact ⟨_, _, rfl, .inl rfl⟩
  | false =>
    rcases hw with hzero | ⟨hdigits, -⟩
    · rw [hzero]
      exact ⟨_, _, rfl, .inr (by decide)⟩
    · obtain ⟨ch, tail, heq, hdigit⟩ := isDigit_head hdigits
      rw [heq]
      exact ⟨_, _, rfl, .inr hdigit⟩

/-- The last character, if there is one, is a digit. -/
def EndsInDigit (cs : List Char) : Prop := ∀ ch ∈ cs.getLast?, ch.isDigit

theorem EndsInDigit.append (h : EndsInDigit ds) (hnil : ds = [] → EndsInDigit cs) :
    EndsInDigit (cs ++ ds) := by
  intro ch hch
  rw [List.getLast?_append] at hch
  cases hlast : ds.getLast? with
  | none =>
    rw [hlast, Option.none_or] at hch
    exact hnil (List.getLast?_eq_none_iff.mp hlast) ch hch
  | some last =>
    rw [hlast, Option.some_or] at hch
    exact h ch (hlast.trans hch)

theorem Digits.endsInDigit (h : Digits ds) : EndsInDigit ds := fun ch hch =>
  h.2 ch (List.mem_of_getLast? hch)

theorem Fraction.endsInDigit {fraction : Option (List Char)} (h : Fraction fraction part) :
    EndsInDigit part := by
  cases h with
  | none => exact fun _ hch => by cases hch
  | @some ds hds =>
    have happend : EndsInDigit (['.'] ++ ds) :=
      hds.endsInDigit.append fun hnil => absurd hnil hds.1
    exact happend

theorem Power.endsInDigit {power : Option Exponent} (h : Power power part) :
    EndsInDigit part := by
  cases h with
  | none => exact fun _ hch => by cases hch
  | @some letter _ sign ds _ _ hds =>
    have happend : EndsInDigit ((letter :: sign) ++ ds) :=
      hds.endsInDigit.append fun hnil => absurd hnil hds.1
    exact happend

/-- A literal ends with a digit. -/
theorem last_of_written (h : Written n cs) : EndsInDigit cs := by
  obtain ⟨fraction, power, hw, hf, hp, rfl⟩ := h
  have hwhole : EndsInDigit n.whole ∧ n.whole ≠ [] := by
    rcases hw with hzero | ⟨hdigits, -⟩
    · rw [hzero]
      exact ⟨by simp [EndsInDigit], by simp⟩
    · exact ⟨hdigits.endsInDigit, hdigits.1⟩
  refine EndsInDigit.append ?_ fun hnil => ?_
  · refine (hp.endsInDigit.append fun _ => hf.endsInDigit).append fun _ => hwhole.1
  · exact absurd (List.append_eq_nil_iff.mp hnil).1 hwhole.2

theorem utf8Size_of_isDigit {ch : Char} (h : ch.isDigit) : ch.utf8Size = 1 := by
  simp only [Char.isDigit, Bool.and_eq_true, decide_eq_true_eq] at h
  exact Char.utf8Size_eq_one_iff.mpr (UInt32.le_trans h.2 (by decide))

theorem utf8Size_of_mem_whole (h : Whole ds) {ch : Char} (hch : ch ∈ ds) : ch.utf8Size = 1 := by
  rcases h with rfl | ⟨hdigits, -⟩
  · rw [List.mem_singleton.mp hch]
    decide
  · exact utf8Size_of_isDigit (hdigits.2 ch hch)

theorem utf8Size_of_mem_fraction {fraction : Option (List Char)} (h : Fraction fraction part)
    {ch : Char} (hch : ch ∈ part) : ch.utf8Size = 1 := by
  cases h with
  | none => cases hch
  | some hds =>
    rcases List.mem_cons.mp hch with rfl | hch
    · decide
    · exact utf8Size_of_isDigit (hds.2 ch hch)

theorem utf8Size_of_mem_power {power : Option Exponent} (h : Power power part) {ch : Char}
    (hch : ch ∈ part) : ch.utf8Size = 1 := by
  cases h with
  | none => cases hch
  | some hletter hsign hds =>
    rcases List.mem_cons.mp hch with rfl | hch
    · rcases hletter with rfl | rfl <;> decide
    rcases List.mem_append.mp hch with hch | hch
    · cases hsign with
      | none => cases hch
      | plus =>
        rw [List.mem_singleton.mp hch]
        decide
      | minus =>
        rw [List.mem_singleton.mp hch]
        decide
    · exact utf8Size_of_isDigit (hds.2 ch hch)

/-- A number literal has as many bytes as characters. -/
theorem width_of_written (h : Written n cs) : width cs = cs.length := by
  obtain ⟨fraction, power, hw, hf, hp, rfl⟩ := h
  refine width_eq_length ?_
  intro ch hch
  simp only [List.mem_append] at hch
  rcases hch with hch | hch | hch | hch
  · cases hneg : n.negative with
    | true =>
      rw [hneg] at hch
      rw [List.mem_singleton.mp hch]
      decide
    | false => simp [hneg, signOf] at hch
  · exact utf8Size_of_mem_whole hw hch
  · exact utf8Size_of_mem_fraction hf hch
  · exact utf8Size_of_mem_power hp hch

theorem Whole.isDigit (h : Whole ds) : ∀ ch ∈ ds, ch.isDigit := by
  rcases h with rfl | ⟨hdigits, -⟩
  · intro ch hch
    rw [List.mem_singleton.mp hch]
    decide
  · exact hdigits.2

/-- **A literal is integral when it has neither a point nor the letter of an exponent.** -/
theorem isIntegral_iff (h : Written n cs) :
    n.isIntegral ↔ '.' ∉ cs ∧ 'e' ∉ cs ∧ 'E' ∉ cs := by
  obtain ⟨fraction, power, hw, hf, hp, rfl⟩ := h
  have hplain : ∀ ch ∈ ['.', 'e', 'E'], ch ∉ signOf n.negative ∧ ch ∉ n.whole := by
    intro ch hch
    refine ⟨fun hmem => ?_, fun hmem => ?_⟩
    · cases hneg : n.negative with
      | true =>
        rw [hneg] at hmem
        rw [List.mem_singleton.mp hmem] at hch
        exact absurd hch (by decide)
      | false => simp [hneg, signOf] at hmem
    · have hdigit := hw.isDigit ch hmem
      simp only [List.mem_cons, List.not_mem_nil, or_false] at hch
      rcases hch with rfl | rfl | rfl <;> exact absurd hdigit (by decide)
  obtain ⟨hdot, hdot'⟩ := hplain '.' (by decide)
  obtain ⟨he, he'⟩ := hplain 'e' (by decide)
  obtain ⟨hE, hE'⟩ := hplain 'E' (by decide)
  rw [isIntegral]
  cases hfraction : n.fraction with
  | some ds =>
    rw [hfraction] at hf
    cases hf
    simp
  | none =>
    rw [hfraction] at hf
    cases hf
    cases hexponent : n.exponent with
    | some exponent =>
      rw [hexponent] at hp
      cases hp with
      | some hletter _ _ => rcases hletter with rfl | rfl <;> simp
    | none =>
      rw [hexponent] at hp
      cases hp
      simp [*]

end JsonLines.Numeral
