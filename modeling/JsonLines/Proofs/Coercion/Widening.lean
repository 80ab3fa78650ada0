/-
JsonLines.Proofs.Coercion.Widening — what simplifying keeps.

The form of a simplified view is chosen by its kind, the outcome of a row by the row alone. They go
together because the kind covers all rows: in a view of one scalar kind every row has a value of
that kind or none, so that none is invalid (`invalidRows_eq_nil`). Integers that do not all have 32
bits are widened to doubles, and widening loses nothing of those that do: integers of 53 bits are
doubles, and a number that is a double is its own closest one.
-/
import JsonLines.Proofs.Coercion.RowValues
import JsonLines.Proofs.Coercion.Simplifying

namespace JsonLines

open Json

/-! ## Integral literals as doubles -/

namespace Numeral

variable {n : Numeral}

theorem shortPower_of_isIntegral (h : n.isIntegral = true) : n.ShortPower := by
  intro e he
  rw [isIntegral, Bool.and_eq_true, Option.isNone_iff_eq_none, Option.isNone_iff_eq_none] at h
  rw [h.2] at he
  cases he

theorem natAbs_toInt (n : Numeral) : n.toInt.natAbs = ofDigits n.whole := by
  unfold toInt
  dsimp only
  split <;> omega

/-- An integral literal writes an integer. -/
theorem magnitude_of_isIntegral (h : n.isIntegral = true) : n.magnitude = n.toInt.natAbs := by
  rw [isIntegral, Bool.and_eq_true, Option.isNone_iff_eq_none, Option.isNone_iff_eq_none] at h
  rw [natAbs_toInt, magnitude, digits, places, h.1, h.2]
  simp [writtenPower]

theorem value_of_isIntegral (h : n.isIntegral = true) : n.value = n.toInt := by
  rw [value, magnitude_of_isIntegral h, natAbs_toInt, toInt, Binary64.signed]
  cases n.negative <;> simp

/-- **An integer of 32 bits is its own double.** -/
theorem toRat_toBinary64 (h : n.isIntegral = true) (hwithin : Convert.Within32 n.toInt) :
    n.toBinary64.isFinite = true ∧ n.toBinary64.toRat = n.toInt := by
  obtain ⟨hlow, hhigh⟩ := hwithin
  have hfinite : n.toBinary64.isFinite = true := by
    have hbound : 2 ^ 31 < Binary64.overflowBound := by decide +kernel
    rw [← Bool.not_eq_false, (shortPower_of_isIntegral h).isFinite_eq_false_iff,
      magnitude_of_isIntegral h, Nat.cast_le]
    omega
  have hrounds := (shortPower_of_isIntegral h).roundsTo
  rw [hfinite, if_pos rfl] at hrounds
  cases hrounds with
  | value _ hnearest _ =>
    refine ⟨hfinite, ?_⟩
    rw [value_of_isIntegral h] at hnearest
    refine hnearest.toRat_eq (Binary64.representable_int ?_)
    rw [abs_lt]
    omega

end Numeral

namespace Simplified

/-- The doubles of a simplified view. -/
def reals? : Simplified → Option (List (Option Binary64))
  | .real values => some values
  | _ => none

theorem eq_real_of_reals? {s : Simplified} {values : List (Option Binary64)}
    (h : s.reals? = some values) : s = .real values := by
  cases s with
  | real _ => exact congrArg real (Option.some.inj h)
  | _ => cases h

end Simplified

namespace View

variable {α : Type} {target : Convert.Target α} {convert : Kind → List Char → Outcome α}
  {v : View} {k : Kind} {s : Simplified} {views : List View} {i : Nat}

/-! ## No row is invalid -/

/-- No row is invalid if the values of its kind convert. -/
theorem invalidRows_eq_nil (hv : v.Sound) (hlawful : target.Lawful) (hfinds : target.Finds convert)
    (hkind : v.kind ≤ k) (hfit : ∀ row m, v.Stores row → v.valueOf row = some m → m.OfKind k →
      v.outcome convert row ≠ .invalid) : (v.coerce convert).invalidRows = [] := by
  rw [invalidRows_eq_nil_iff]
  intro row hrow
  have hstores := hv.stores row hrow
  rcases row_cases hv hkind hrow with hvalue | ⟨span, hvalue⟩ | ⟨m, hvalue, hm⟩
  · rw [outcome_of_absent hlawful hfinds hstores hvalue]
    exact nofun
  · rw [outcome_of_null hlawful hfinds hstores hvalue]
    exact nofun
  · exact hfit row m hstores hvalue hm

theorem invalidRows_toBoolean (hv : v.Sound) (hkind : v.kind ≤ .boolean) :
    v.toBoolean.invalidRows = [] := by
  refine invalidRows_eq_nil hv Convert.lawful_booleans Convert.finds_boolean hkind ?_
  rintro row m hstores hvalue ⟨span, b, rfl⟩
  rw [outcome_boolean_of_boolean hstores hvalue]
  exact nofun

theorem invalidRows_toInteger (hv : v.Sound) (hkind : v.kind ≤ .integer) :
    v.toInteger.invalidRows = [] := by
  refine invalidRows_eq_nil hv Convert.lawful_integers Convert.finds_integer hkind ?_
  rintro row m hstores hvalue ⟨span, n, rfl, hintegral⟩
  rw [outcome_integer_of_integral hstores hvalue hintegral]
  split <;> exact nofun

theorem invalidRows_toReal (hv : v.Sound) (hkind : v.kind ≤ .real) :
    v.toReal.invalidRows = [] := by
  refine invalidRows_eq_nil hv Convert.lawful_reals Convert.finds_real hkind ?_
  rintro row m hstores hvalue ⟨span, n, rfl⟩
  rw [outcome_real_of_number hstores hvalue]
  split <;> exact nofun

/-! ## Integers -/

/-- The value is not there or is null. -/
def Vacant (value : Option Node) : Prop := value = none ∨ ∃ span, value = some (.null span)

/-- The value is a number at the bound of the range of doubles or beyond it. -/
def Beyond (value : Option Node) : Prop :=
  ∃ span n, value = some (.number span n) ∧ (Binary64.overflowBound : Rat) ≤ n.magnitude

theorem not_vacant_number {span : Span} {n : Numeral} : ¬ Vacant (some (.number span n)) := by
  rintro (h | ⟨_, h⟩) <;> cases h

theorem beyond_number_iff {span : Span} {n : Numeral} :
    Beyond (some (.number span n)) ↔ (Binary64.overflowBound : Rat) ≤ n.magnitude := by
  constructor
  · rintro ⟨_, _, heq, h⟩
    cases heq
    exact h
  · intro h
    exact ⟨span, n, rfl, h⟩

/-- What all values are is known of the value of each cell. -/
theorem every_forall₂ {β : Type} {P : Node → Prop} {R : Option Node → β → Prop}
    {values : List (Option Node)} {cells : List β} (h : Node.Every P values)
    (hcells : List.Forall₂ R values cells) : List.Forall₂ (fun value cell =>
      (Vacant value ∨ ∃ m, value = some m ∧ P m) ∧ R value cell) values cells := by
  refine (List.forall₂_and_left _ _).mpr ⟨fun value hvalue => ?_, hcells⟩
  cases value with
  | none => exact .inl (.inl rfl)
  | some m =>
    rcases h m hvalue with ⟨span, rfl⟩ | hm
    · exact .inl (.inr ⟨span, rfl⟩)
    · exact .inr ⟨m, rfl, hm⟩

/-- The cell of an integer view that is not widened: it is empty where there is no integer. -/
def IntegerCell (value : Option Node) (cell : Option Int) : Prop :=
  Convert.Cell Node.HoldsInteger value cell ∧ (cell = none ↔ Vacant value)

/-- The cell of an integer view that is widened: it is empty where there is no integer or one beyond
the range of doubles, and an integer of 32 bits is its own double. -/
def WidenedCell (value : Option Node) (cell : Option Binary64) : Prop :=
  Convert.Cell Node.HoldsReal value cell ∧ (cell = none ↔ Vacant value ∨ Beyond value) ∧
    ∀ m i, value = some m → m.HoldsInteger i → ∃ x, cell = some x ∧ x.toRat = i

/-- A cell is empty where there is no value. -/
theorem cell_of_vacant {β : Type} {Holds : Node → β → Prop} {value : Option Node} {cell : Option β}
    (hnull : ∀ span b, ¬ Holds (.null span) b) (hcell : Convert.Cell Holds value cell)
    (h : Vacant value) : cell = none := by
  rcases h with rfl | ⟨span, rfl⟩
  · cases hcell
    rfl
  · cases hcell with
    | null => rfl
    | value hholds => exact absurd hholds (hnull span _)
    | gap => rfl

/-- The cell of a number is its double, if that is finite. -/
theorem cell_of_number {span : Span} {n : Numeral} {cell : Option Binary64}
    (hcell : Convert.Cell Node.HoldsReal (some (.number span n)) cell) :
    cell = if n.toBinary64.isFinite then some n.toBinary64 else none := by
  cases hcell with
  | value hholds =>
    obtain ⟨_, _, heq, rfl, hfinite⟩ := hholds
    cases heq
    exact (if_pos hfinite).symm
  | gap _ hnone => exact (if_neg fun hfinite => hnone _ ⟨span, n, rfl, rfl, hfinite⟩).symm

/-- **Integers of 32 bits are missing where there is none.** -/
theorem integerCells (hv : v.Sound) (h : Node.Every Node.IsInteger32 v.values) :
    List.Forall₂ IntegerCell v.values v.toInteger.values := by
  refine (every_forall₂ h (cells_toInteger hv)).imp fun value cell hcell => ?_
  obtain ⟨hvalue, hcell⟩ := hcell
  refine ⟨hcell, fun hempty => ?_, cell_of_vacant (fun _ _ => nofun) hcell⟩
  rcases hvalue with hvacant | ⟨m, rfl, i, hholds⟩
  · exact hvacant
  · subst hempty
    cases hcell with
    | null => exact .inr ⟨_, rfl⟩
    | gap _ hnone => exact absurd hholds (hnone i)

/-- **Widening loses no integer of 32 bits.** -/
theorem widenedCells (hv : v.Sound) (h : v.kind ≤ .integer) :
    List.Forall₂ WidenedCell v.values v.toReal.values := by
  refine (every_forall₂ ((kind_le_iff hv).mp h) (cells_toReal hv)).imp fun value cell hcell => ?_
  obtain ⟨hvalue, hcell⟩ := hcell
  refine ⟨hcell, ?_⟩
  rcases hvalue with hvacant | ⟨m, rfl, span, n, rfl, hintegral⟩
  · have hempty : cell = none := cell_of_vacant (fun _ _ => nofun) hcell hvacant
    refine ⟨iff_of_true hempty (.inl hvacant), ?_⟩
    rintro m i rfl ⟨_, _, rfl, -⟩
    exact absurd hvacant not_vacant_number
  · rw [cell_of_number hcell]
    constructor
    · rw [or_iff_right not_vacant_number, beyond_number_iff,
        ← (Numeral.shortPower_of_isIntegral hintegral).isFinite_eq_false_iff]
      cases n.toBinary64.isFinite <;> simp
    · rintro m i heq ⟨_, _, rfl, -, rfl, hwithin⟩
      cases heq
      obtain ⟨hfinite, hexact⟩ := Numeral.toRat_toBinary64 hintegral hwithin
      exact ⟨_, if_pos hfinite, hexact⟩

/-! ## Items -/

/-- All items of a row have its number. -/
theorem rowNumbers_itemsOf {c : Cell} {row : Nat} {w : View} (h : v.Stores c)
    (hw : v.itemsOf c row = .ok w) : w.rowNumbers = List.replicate c.elements.length row := by
  have hregathered := (h.regathers_items row).regathered hw
  have hcount : w.rowCount = c.elements.length := hregathered.rowCount_eq
  rw [List.eq_replicate_iff, rowNumbers, List.length_map, List.length_range, List.forall_mem_map]
  refine ⟨hcount, fun k hk => ?_⟩
  rw [List.mem_range, hcount] at hk
  rw [rowNumber, hregathered.provenance_eq]
  simp [Provenance.withRows, Provenance.rowNumber, hk]

/-- The items of the value of a row, none if there is none or it is no array. -/
def itemsAt (v : View) (i : Nat) : List Node := ((v.valueAt i).map Node.items).getD []

/-- **The view of a row's items** holds the items of its value, each with the number of the row. -/
theorem items_row (hv : v.Sound) (h : v.elements = .ok views) (hi : v.HasRow i) :
    ∃ w, views[i - 1]? = some w ∧ w.values = (v.itemsAt i).map some ∧
      w.rowNumbers = List.replicate (v.itemsAt i).length (v.rowNumber (i - 1)) := by
  obtain ⟨w, hget, hw⟩ := elements_row h hi
  have hstores := hv.stores_rowAt i
  have hlength : (v.itemsAt i).length = (v.rowAt i).elements.length := by
    rw [← List.length_map some, itemsAt, valueAt, ← hstores.map_valueOf_elements, List.length_map]
  refine ⟨w, hget, values_itemsOf hstores hw, ?_⟩
  rw [hlength]
  exact rowNumbers_itemsOf hstores hw

/-! ## Simplifying -/

/-- The form that a view takes by its kind. -/
inductive Takes (v : View) : Simplified → Prop where
  | boolean : v.kind = .null ∨ v.kind = .boolean → Takes v (.boolean v.toBoolean.values)
  | integer : v.kind = .integer → v.widens = false → Takes v (.integer v.toInteger.values)
  | widened : v.kind = .integer → v.widens = true → Takes v (.real v.toReal.values)
  | real : v.kind = .real → Takes v (.real v.toReal.values)
  | text : v.kind = .text → Takes v (.text v.toText.values)
  | list {views : List View} : v.kind = .array → v.elements = .ok views → Takes v (.list views)
  | dataset : v.kind = .record ∨ v.kind = .any → Takes v (.dataset v)

theorem simplify_of_takes (h : v.Takes s) : v.simplify = .ok s := by
  cases h with
  | boolean hkind => rcases hkind with hkind | hkind <;> rw [simplify, hkind]
  | integer hkind hwidens => simp only [simplify, hkind, hwidens, Bool.false_eq_true, if_false]
  | widened hkind hwidens => simp only [simplify, hkind, hwidens, if_true]
  | real hkind => rw [simplify, hkind]
  | text hkind => rw [simplify, hkind]
  | list hkind hviews => simp only [simplify, hkind, hviews]
  | dataset hkind => rcases hkind with hkind | hkind <;> rw [simplify, hkind]

/-- **A view is simplified to the form of its kind.** -/
theorem simplify_eq_ok_iff : v.simplify = .ok s ↔ v.Takes s := by
  refine ⟨fun h => ?_, simplify_of_takes⟩
  have htakes : ∀ {s'}, v.Takes s' → v.Takes s := fun h' => by
    rwa [Except.ok.inj (h.symm.trans (simplify_of_takes h'))]
  cases hkind : v.kind with
  | null => exact htakes (.boolean (.inl hkind))
  | boolean => exact htakes (.boolean (.inr hkind))
  | integer =>
    cases hwidens : v.widens with
    | false => exact htakes (.integer hkind hwidens)
    | true => exact htakes (.widened hkind hwidens)
  | real => exact htakes (.real hkind)
  | text => exact htakes (.text hkind)
  | array =>
    cases hviews : v.elements with
    | error e => simp [simplify, hkind, hviews] at h
    | ok views => exact htakes (.list hkind hviews)
  | record => exact htakes (.dataset (.inl hkind))
  | any => exact htakes (.dataset (.inr hkind))

theorem Takes.length_eq (h : v.Takes s) : s.length = v.rowCount := by
  cases h with
  | list _ hviews => exact length_elements hviews
  | dataset => rfl
  | _ => exact length_coerce v _

/-- What the simplified form of a view keeps of it. -/
structure SimplifiesTo (v : View) (s : Simplified) : Prop where
  length_eq : s.length = v.rowCount
  /-- Simplified again it stays the same. -/
  idempotent : s.simplify = .ok s
  booleans : v.kind = .null ∨ v.kind = .boolean →
    s = .boolean v.toBoolean.values ∧ v.toBoolean.invalidRows = []
  /-- Integers stay integers when all of them have 32 bits. -/
  integers : v.kind = .integer → Node.Every Node.IsInteger32 v.values →
    s = .integer v.toInteger.values ∧ v.toInteger.invalidRows = [] ∧
      List.Forall₂ IntegerCell v.values v.toInteger.values
  /-- Otherwise they become doubles. -/
  widened : v.kind = .integer → ¬ Node.Every Node.IsInteger32 v.values →
    s = .real v.toReal.values ∧ v.toReal.invalidRows = [] ∧
      List.Forall₂ WidenedCell v.values v.toReal.values
  reals : v.kind = .real → s = .real v.toReal.values ∧ v.toReal.invalidRows = []
  items : v.kind = .array → ∃ views, s = .list views ∧ ∀ i, v.HasRow i → ∃ w,
    views[i - 1]? = some w ∧ w.values = (v.itemsAt i).map some ∧
      w.rowNumbers = List.replicate (v.itemsAt i).length (v.rowNumber (i - 1))

/-- **Simplifying keeps the rows and loses no integer**, over every chain of views. -/
theorem simplifies_to {root : View} {source : ByteSource} {config : Config}
    (hroot : load source config = .ok root) (hchain : root.Chain v) (h : v.simplify = .ok s) :
    v.SimplifiesTo s := by
  have hv := sound_chain hroot hchain
  have htakes := simplify_eq_ok_iff.mp h
  have hform : ∀ {s'}, v.Takes s' → s = s' := fun h' =>
    Except.ok.inj (h.symm.trans (simplify_of_takes h'))
  refine ⟨htakes.length_eq, ?_, fun hkind => ?_, fun hkind hall => ?_, fun hkind hall => ?_,
    fun hkind => ?_, fun hkind => ?_⟩
  · cases htakes with
    | dataset => exact h
    | _ => rfl
  · have hle : v.kind ≤ .boolean := by rcases hkind with hkind | hkind <;> rw [hkind] <;> decide
    exact ⟨hform (.boolean hkind), invalidRows_toBoolean hv hle⟩
  · have hwidens := (widens_eq_false_iff hv hkind).mpr hall
    have hle : v.kind ≤ .integer := .inl hkind
    exact ⟨hform (.integer hkind hwidens), invalidRows_toInteger hv hle, integerCells hv hall⟩
  · have hwidens : v.widens = true := by
      rw [← Bool.not_eq_false, widens_eq_false_iff hv hkind]
      exact hall
    have hle : v.kind ≤ .real := by rw [hkind]; decide
    exact ⟨hform (.widened hkind hwidens), invalidRows_toReal hv hle, widenedCells hv (.inl hkind)⟩
  · exact ⟨hform (.real hkind), invalidRows_toReal hv (.inl hkind)⟩
  · cases hviews : v.elements with
    | error e => simp [simplify, hkind, hviews] at h
    | ok views => exact ⟨views, hform (.list hkind hviews), fun i hi => items_row hv hviews hi⟩

/-- Three records: an integer of 32 bits, one of more, and a null. -/
def longIntegers : ByteSource := .ofString "-7\n2147483648\nnull\n"

/-- Simplified they are doubles. -/
theorem simplifies_to_longIntegers : ∃ root s, load longIntegers {} = .ok root ∧
    root.simplify = .ok s ∧
    s = .real [some ⟨true, 4619567317775286272⟩, some ⟨false, 4746794007248502784⟩, none] ∧
    root.SimplifiesTo s := by
  have hrun : ((load longIntegers {}).toOption.bind fun root =>
      root.simplify.toOption.bind Simplified.reals?) =
        some [some ⟨true, 4619567317775286272⟩, some ⟨false, 4746794007248502784⟩, none] := by
    decide +kernel
  obtain ⟨root, hload, hvalues⟩ := Option.bind_eq_some_iff.mp hrun
  obtain ⟨s, hsimplify, hreals⟩ := Option.bind_eq_some_iff.mp hvalues
  have hroot := eq_ok_of_toOption hload
  have hs := eq_ok_of_toOption hsimplify
  exact ⟨root, s, hroot, hs, Simplified.eq_real_of_reals? hreals,
    simplifies_to hroot .refl hs⟩

end View

end JsonLines
