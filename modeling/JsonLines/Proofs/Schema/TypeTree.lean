/-
JsonLines.Proofs.Schema.TypeTree — types without numbers, and the least type that covers two.

A type tree is what a type number stands for once every reference in it is followed. A record is a
pair of functions on names: which fields there are and whether values may lack them, and the type
of each. So two records of the same fields are the same tree, whatever their order.

`join` is the union of types said on trees. It is commutative, associative and idempotent, null is
its least element and any its greatest: trees form a `SemilatticeSup` with `⊥` and `⊤`, and
`a ≤ b` reads "`b` covers `a`". Further lemmas say what each kind of type is covered by and covers,
and what the parts of a join of many trees are.
-/
import Mathlib.Order.Lattice
import Mathlib.Order.BoundedOrder.Basic

namespace JsonLines

/-! ## Presence -/

/-- What a record type says of one name. -/
inductive Presence where
  | lacking
  | required
  | optional
deriving DecidableEq, Repr

namespace Presence

/-- The presence of a field in values of either of two types. -/
def join (p q : Presence) : Presence := if p = q then p else .optional

@[simp] theorem join_self (p : Presence) : p.join p = p := by simp [join]

theorem join_comm (p q : Presence) : p.join q = q.join p := by
  cases p <;> cases q <;> rfl

theorem join_assoc (p q r : Presence) : (p.join q).join r = p.join (q.join r) := by
  cases p <;> cases q <;> cases r <;> rfl

end Presence

/-! ## Trees and their join -/

/-- A type with all references followed; `N` is what names a field. A name that is lacking has type
null. -/
inductive TypeTree (N : Type) where
  | null
  | boolean
  | integer
  | real
  | text
  | any
  | array (element : TypeTree N)
  | record (presence : N → Presence) (types : N → TypeTree N)

namespace TypeTree

variable {N : Type}

/-- The least tree that covers two trees. -/
@[simp] def join : TypeTree N → TypeTree N → TypeTree N
  | .null, b => b
  | a, .null => a
  | .boolean, .boolean => .boolean
  | .integer, .integer => .integer
  | .integer, .real => .real
  | .real, .integer => .real
  | .real, .real => .real
  | .text, .text => .text
  | .array a, .array b => .array (join a b)
  | .record p a, .record q b =>
    .record (fun n => (p n).join (q n)) (fun n => join (a n) (b n))
  | _, _ => .any

theorem null_join (a : TypeTree N) : join .null a = a := rfl

theorem join_null (a : TypeTree N) : a.join .null = a := by cases a <;> rfl

theorem join_any (a : TypeTree N) : a.join .any = .any := by cases a <;> rfl

theorem join_self (a : TypeTree N) : a.join a = a := by
  induction a with
  | array a ih => simp [ih]
  | record p a ih => simp [ih]
  | _ => rfl

theorem join_comm (a b : TypeTree N) : a.join b = b.join a := by
  induction a generalizing b with
  | array a ih => cases b <;> simp [ih]
  | record p a ih => cases b <;> simp [ih, Presence.join_comm]
  | _ => cases b <;> rfl

theorem join_assoc (a b c : TypeTree N) : (a.join b).join c = a.join (b.join c) := by
  induction a generalizing b c with
  | array a ih => cases b <;> cases c <;> simp [ih]
  | record p a ih => cases b <;> cases c <;> simp [ih, Presence.join_assoc]
  | _ => cases b <;> cases c <;> rfl

instance : Max (TypeTree N) := ⟨join⟩

instance : SemilatticeSup (TypeTree N) := SemilatticeSup.mk' join_comm join_assoc join_self

theorem sup_def (a b : TypeTree N) : a ⊔ b = a.join b := rfl

theorem le_def {a b : TypeTree N} : a ≤ b ↔ a.join b = b := sup_eq_right.symm

instance : OrderBot (TypeTree N) where
  bot := .null
  bot_le a := le_def.mpr (null_join a)

instance : OrderTop (TypeTree N) where
  top := .any
  le_top a := le_def.mpr (join_any a)

/-! ## What covers a type of each kind -/

theorem null_le (t : TypeTree N) : .null ≤ t := bot_le

theorem le_any (t : TypeTree N) : t ≤ .any := le_top

theorem boolean_le_iff {t : TypeTree N} : .boolean ≤ t ↔ t = .boolean ∨ t = .any := by
  rw [le_def]
  cases t <;> simp

theorem integer_le_iff {t : TypeTree N} :
    .integer ≤ t ↔ t = .integer ∨ t = .real ∨ t = .any := by
  rw [le_def]
  cases t <;> simp

theorem real_le_iff {t : TypeTree N} : .real ≤ t ↔ t = .real ∨ t = .any := by
  rw [le_def]
  cases t <;> simp

theorem text_le_iff {t : TypeTree N} : .text ≤ t ↔ t = .text ∨ t = .any := by
  rw [le_def]
  cases t <;> simp

theorem array_le_iff {a t : TypeTree N} :
    .array a ≤ t ↔ (∃ b, t = .array b ∧ a ≤ b) ∨ t = .any := by
  rw [le_def]
  cases t <;> simp [le_def]

theorem record_le_iff {p : N → Presence} {a : N → TypeTree N} {t : TypeTree N} :
    .record p a ≤ t ↔
      (∃ q b, t = .record q b ∧ ∀ n, (p n).join (q n) = q n ∧ a n ≤ b n) ∨ t = .any := by
  rw [le_def]
  cases t with
  | record q b =>
    simp only [join, record.injEq, funext_iff, reduceCtorEq, or_false, ← le_def]
    constructor
    · rintro ⟨hp, ha⟩
      exact ⟨q, b, ⟨fun _ => rfl, fun _ => rfl⟩, fun n => ⟨hp n, ha n⟩⟩
    · rintro ⟨q', b', ⟨hq, hb⟩, h⟩
      exact ⟨fun n => by rw [hq]; exact (h n).1, fun n => by rw [hb]; exact (h n).2⟩
  | _ => simp

/-! ## What a type of each kind covers -/

theorem le_array_iff {a t : TypeTree N} :
    t ≤ .array a ↔ t = .null ∨ ∃ b, t = .array b ∧ b ≤ a := by
  rw [le_def]
  cases t <;> simp [le_def]

theorem le_record_iff {p : N → Presence} {a : N → TypeTree N} {t : TypeTree N} :
    t ≤ .record p a ↔ t = .null ∨
      ∃ q b, t = .record q b ∧ ∀ n, (q n).join (p n) = p n ∧ b n ≤ a n := by
  cases t with
  | null => exact iff_of_true (null_le _) (.inl rfl)
  | record q b =>
    rw [record_le_iff]
    constructor
    · rintro (⟨p', a', heq, h⟩ | heq)
      · cases heq
        exact .inr ⟨q, b, rfl, h⟩
      · cases heq
    · rintro (heq | ⟨q', b', heq, h⟩)
      · cases heq
      · cases heq
        exact .inl ⟨p, a, rfl, h⟩
  | _ =>
    rw [le_def]
    simp

/-! ## The join of many -/

/-- The least tree that covers some trees, null for none. -/
def joinAll (trees : List (TypeTree N)) : TypeTree N := trees.foldr (· ⊔ ·) .null

variable {trees : List (TypeTree N)} {p : N → Presence} {a : N → TypeTree N} {n : N}
  {t u : TypeTree N}

theorem joinAll_le_iff : joinAll trees ≤ u ↔ ∀ t ∈ trees, t ≤ u := by
  induction trees with
  | nil => simp [joinAll, null_le]
  | cons t trees ih =>
    rw [List.forall_mem_cons, ← ih]
    exact sup_le_iff

theorem le_joinAll (h : t ∈ trees) : t ≤ joinAll trees := joinAll_le_iff.mp (le_refl _) t h

theorem eq_joinAll_iff : t = joinAll trees ↔ ∀ u, t ≤ u ↔ ∀ t' ∈ trees, t' ≤ u := by
  simp only [← joinAll_le_iff]
  exact ⟨fun h u => h ▸ Iff.rfl, eq_of_forall_ge_iff⟩

/-! ## The parts of a join -/

/-- The element type of an array type, null for any other type. -/
def elementType : TypeTree N → TypeTree N
  | .array a => a
  | _ => .null

/-- The type of a field of a record type, null for any other type. -/
def fieldType (n : N) : TypeTree N → TypeTree N
  | .record _ a => a n
  | _ => .null

/-- **An array type that is a join joins element types.** -/
theorem elementType_joinAll (h : joinAll trees = .array t) :
    t = joinAll (trees.map elementType) := by
  refine eq_joinAll_iff.mpr fun u => ?_
  have hbound : t ≤ u ↔ joinAll trees ≤ .array u := by
    rw [h, le_array_iff]
    simp
  rw [hbound, joinAll_le_iff, List.forall_mem_map]
  refine forall₂_congr fun v hv => ?_
  rcases le_array_iff.mp (h ▸ le_joinAll hv) with rfl | ⟨b, rfl, -⟩
  · exact iff_of_true (null_le _) (null_le _)
  · rw [le_array_iff]
    simp [elementType]

/-- The record with another type for one field. -/
theorem le_record_update_iff [DecidableEq N] (h : t ≤ .record p a) :
    t ≤ .record p (Function.update a n u) ↔ t.fieldType n ≤ u := by
  rcases le_record_iff.mp h with rfl | ⟨q, b, rfl, hle⟩
  · exact iff_of_true (null_le _) (null_le _)
  · rw [le_record_iff, fieldType]
    constructor
    · rintro (heq | ⟨q', b', heq, h'⟩)
      · cases heq
      · cases heq
        have := (h' n).2
        rwa [Function.update_self] at this
    · intro hu
      refine .inr ⟨q, b, rfl, fun m => ⟨(hle m).1, ?_⟩⟩
      by_cases hm : m = n
      · subst hm
        rwa [Function.update_self]
      · rw [Function.update_of_ne hm]
        exact (hle m).2

/-- **A record type that is a join joins the types of each field.** -/
theorem fieldType_joinAll (h : joinAll trees = .record p a) (n : N) :
    a n = joinAll (trees.map (fieldType n)) := by
  classical
  refine eq_joinAll_iff.mpr fun u => ?_
  have hself : (TypeTree.record p a).fieldType n ≤ u ↔
      joinAll trees ≤ .record p (Function.update a n u) := by
    rw [h, le_record_update_iff (le_refl _)]
  rw [fieldType] at hself
  rw [hself, joinAll_le_iff, List.forall_mem_map]
  exact forall₂_congr fun v hv => le_record_update_iff (h ▸ le_joinAll hv)

/-- What a join of records says of a name no record may say less of. -/
theorem presence_joinAll_le [DecidableEq N] {r : Presence} (h : joinAll trees = .record p a)
    (hr : ∀ q b, .record q b ∈ trees → (q n).join r = r) : (p n).join r = r := by
  have hbound : joinAll trees ≤ .record (Function.update p n r) a := by
    refine joinAll_le_iff.mpr fun v hv => ?_
    rcases le_record_iff.mp (h ▸ le_joinAll hv) with rfl | ⟨q, b, rfl, hle⟩
    · exact null_le _
    · refine le_record_iff.mpr (.inr ⟨q, b, rfl, fun m => ⟨?_, (hle m).2⟩⟩)
      by_cases hm : m = n
      · subst hm
        rw [Function.update_self]
        exact hr q b hv
      · rw [Function.update_of_ne hm]
        exact (hle m).1
  rw [h] at hbound
  rcases le_record_iff.mp hbound with heq | ⟨q, b, heq, hle⟩
  · cases heq
  · cases heq
    have := (hle n).1
    rwa [Function.update_self] at this

/-- A field of a join is a field of one of the records. -/
theorem exists_present_of_joinAll (h : joinAll trees = .record p a) (hn : p n ≠ .lacking) :
    ∃ q b, .record q b ∈ trees ∧ q n ≠ .lacking := by
  classical
  by_contra hnone
  refine hn ?_
  have hle := presence_joinAll_le (n := n) (r := .lacking) h fun q b hq => by
    have : q n = .lacking := by
      by_contra hlacking
      exact hnone ⟨q, b, hq, hlacking⟩
    rw [this]
    rfl
  cases hp : p n <;> simp_all [Presence.join]

/-- **A field of a join of values' types is optional when a record lacks it.** -/
theorem optional_iff_of_joinAll (h : joinAll trees = .record p a) (hn : p n ≠ .lacking)
    (hvalues : ∀ q b, .record q b ∈ trees → q n ≠ .optional) :
    p n = .optional ↔ ∃ q b, .record q b ∈ trees ∧ q n = .lacking := by
  classical
  constructor
  · intro hoptional
    by_contra hnone
    have hle := presence_joinAll_le (n := n) (r := .required) h fun q b hq => by
      have hrequired : q n = .required := by
        cases hqn : q n with
        | lacking => exact absurd ⟨q, b, hq, hqn⟩ hnone
        | required => rfl
        | optional => exact absurd hqn (hvalues q b hq)
      rw [hrequired]
      rfl
    rw [hoptional] at hle
    cases hle
  · rintro ⟨q, b, hq, hlacking⟩
    rcases le_record_iff.mp (h ▸ le_joinAll hq) with heq | ⟨q', b', heq, hle⟩
    · cases heq
    · cases heq
      have hjoin := (hle n).1
      rw [hlacking] at hjoin
      cases hp : p n with
      | lacking => exact absurd hp hn
      | required =>
        rw [hp] at hjoin
        cases hjoin
      | optional => rfl

end TypeTree

end JsonLines
