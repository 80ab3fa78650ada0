/-
JsonLines.Proofs.Dataset.RowStore — when a row store takes a row.

A store never holds more rows than it has slots, nor has more slots than its limit, and the limit
stays below the largest word (`Sound`). From this it follows that the limit alone decides whether a
push succeeds: however the floating-point product that proposes the next number of slots is rounded,
there is room for one row more as long as the limit is not reached.

So the product is a parameter here. `attempt` is a push in place, with the store that it leaves also
if it fails, and `Attempted` says all that it does. With the product of doubles it is `push`
(`attempt_roundedProduct`).
-/
import JsonLines.Dataset.RowStore

namespace JsonLines.RowStore

variable {α : Type} {product : Nat → Nat} {store next : RowStore α} {row : α} {e : Error}
  {result : Except Error (RowStore α)}

/-- What every push keeps. -/
structure Sound (store : RowStore α) : Prop where
  size_le : store.size ≤ store.capacity
  capacity_le : store.capacity ≤ store.limit
  limit_lt : store.limit < wordLimit

theorem addressable_lt (width : Nat) : addressable width < wordLimit := by
  unfold addressable wordLimit
  have := Nat.div_le_self (Word.half - 1) (max width 1)
  have : Word.half - 1 < Word.modulus - 1 := by decide
  omega

theorem limit_withLimit (width : Nat) (limit : Option Nat) :
    (withLimit width limit : RowStore α).limit ≤ addressable width := by
  cases limit with
  | none => exact Nat.le_refl _
  | some limit => exact Nat.min_le_right _ _

/-- An empty store is sound. -/
theorem sound_withLimit (width : Nat) (limit : Option Nat) :
    (withLimit width limit : RowStore α).Sound where
  size_le := by cases limit <;> exact Nat.zero_le _
  capacity_le := by cases limit <;> exact Nat.zero_le _
  limit_lt := Nat.lt_of_le_of_lt (limit_withLimit width limit) (addressable_lt width)

/-- The number of slots that follows `size` if the product of `size` with the growth factor comes out
as `product size`, rounded in whatever way. -/
def slotsAfter (product : Nat → Nat) (size : Nat) : Nat :=
  if size = 0 then 1
  else if wordLimit < product size then wordLimit
  else max (product size) (min (size + 1) wordLimit)

/-- The product with the growth factor as doubles have it, rounded up. -/
def roundedProduct (size : Nat) : Nat :=
  Binary64.ceilCode (Binary64.mulCode (Binary64.nearest size 1) growthFactor)

theorem slotsAfter_roundedProduct : slotsAfter roundedProduct = nextCapacity := rfl

/-- Growing makes room for one row at least, whatever the product is rounded to. -/
theorem lt_slotsAfter (product : Nat → Nat) {size : Nat} (h : size < wordLimit) :
    size < slotsAfter product size := by
  unfold slotsAfter
  split
  · omega
  · split <;> omega

/-! ## Pushes in place -/

/-- The slots that a full store asks for. -/
def target (product : Nat → Nat) (store : RowStore α) : Nat :=
  min (slotsAfter product store.capacity) store.limit

/-- A full store gets more slots, if its limit allows. -/
def growInPlace (product : Nat → Nat) (store : RowStore α) : Except Error Unit × RowStore α :=
  if store.limit ≤ store.size then
    (.error (.capacityExceeded (store.size + 1) store.limit), store)
  else (.ok (), { store with capacity := store.size + (store.target product - store.size) })

/-- How a push ends, and the store that it leaves. -/
def attempt (product : Nat → Nat) (store : RowStore α) (row : α) :
    Except Error Unit × RowStore α :=
  let (outcome, store) :=
    if store.size = store.capacity then store.growInPlace product else (.ok (), store)
  match outcome with
  | .error e => (.error e, store)
  | .ok () => (.ok (), store.append row)

/-- An outcome, and the store that a caller has then: the one before, if it is an error. -/
def settled (store : RowStore α) : Except Error (RowStore α) → Except Error Unit × RowStore α
  | .error e => (.error e, store)
  | .ok next => (.ok (), next)

theorem settled_eq_ok_iff : store.settled result = (.ok (), next) ↔ result = .ok next := by
  cases result <;> simp [settled]

theorem settled_eq_error_iff : store.settled result = (.error e, store) ↔ result = .error e := by
  cases result <;> simp [settled]

/-- With the product of doubles an attempt is a push. -/
theorem attempt_roundedProduct (store : RowStore α) (row : α) :
    store.attempt roundedProduct row = store.settled (store.push row) := by
  unfold attempt growInPlace push makeRoom grow
  by_cases hfull : store.size = store.capacity
  · by_cases hle : store.limit ≤ store.size
    · simp only [if_pos hfull, if_pos hle, settled]
    · simp only [if_pos hfull, if_neg hle, settled]
      rfl
  · simp only [if_neg hfull, settled]

/-- What an attempt does to the store. -/
structure Attempted (product : Nat → Nat) (store : RowStore α) (row : α) : Prop where
  /-- At the limit the push fails, says by how much, and leaves everything as it was. -/
  refused : store.limit ≤ store.size → store.attempt product row =
    (.error (.capacityExceeded (store.limit + 1) store.limit), store)
  /-- A free slot takes the row, and there are as many slots as before. -/
  free : store.size < store.capacity → store.attempt product row =
    (.ok (), { store with rows := store.rows.push row })
  /-- A full store below its limit gets exactly the slots that it asks for, which are no less than
  its rows and more than its slots. -/
  full : store.size = store.capacity → store.size < store.limit →
    store.size ≤ store.target product ∧ store.capacity < store.target product ∧
      store.attempt product row = (.ok (),
        { store with rows := store.rows.push row, capacity := store.target product })

/-- A store with no room below its limit is at its limit. -/
theorem Sound.size_eq_limit (h : store.Sound) (hle : store.limit ≤ store.size) :
    store.size = store.limit :=
  Nat.le_antisymm (Nat.le_trans h.size_le h.capacity_le) hle

/-- There is room for one more row among the slots that a full store asks for, whatever the product
is rounded to. -/
theorem Sound.lt_target (h : store.Sound) (hfull : store.size = store.capacity)
    (hlt : store.size < store.limit) (product : Nat → Nat) :
    store.size < store.target product := by
  have hnext := lt_slotsAfter product (Nat.lt_trans hlt h.limit_lt)
  rw [target, ← hfull]
  exact Nat.lt_min.mpr ⟨hnext, hlt⟩

theorem Sound.attempted (h : store.Sound) (product : Nat → Nat) (row : α) :
    Attempted product store row where
  refused hle := by
    have hfull := Nat.le_antisymm h.size_le (Nat.le_trans h.capacity_le hle)
    rw [attempt, if_pos hfull, growInPlace, if_pos hle, h.size_eq_limit hle]
  free hfree := by
    rw [attempt, if_neg (Nat.ne_of_lt hfree)]
    rfl
  full hfull hlt := by
    have htarget := h.lt_target hfull hlt product
    refine ⟨Nat.le_of_lt htarget, hfull ▸ htarget, ?_⟩
    rw [attempt, if_pos hfull, growInPlace, if_neg (Nat.not_le.mpr hlt),
      Nat.add_sub_cancel' (Nat.le_of_lt htarget)]
    rfl

/-- Below the limit an attempt succeeds. -/
theorem Sound.attempt_of_lt (h : store.Sound) (hlt : store.size < store.limit)
    (product : Nat → Nat) (row : α) : ∃ next, store.attempt product row = (.ok (), next) ∧
      next.Sound ∧ next.rows = store.rows.push row ∧ next.limit = store.limit := by
  have hdone := h.attempted product row
  by_cases hfull : store.size = store.capacity
  · obtain ⟨-, -, hattempt⟩ := hdone.full hfull hlt
    refine ⟨_, hattempt, ⟨?_, Nat.min_le_right .., h.limit_lt⟩, rfl, rfl⟩
    rw [size, Array.size_push]
    exact h.lt_target hfull hlt product
  · have hfree := Nat.lt_of_le_of_ne h.size_le hfull
    refine ⟨_, hdone.free hfree, ⟨?_, h.capacity_le, h.limit_lt⟩, rfl, rfl⟩
    rw [size, Array.size_push]
    exact hfree

/-! ## Pushes -/

/-- A push below the limit appends the row. -/
theorem push_of_lt (h : store.Sound) (hlt : store.size < store.limit) (row : α) :
    ∃ next, store.push row = .ok next ∧ next.Sound ∧ next.rows = store.rows.push row ∧
      next.limit = store.limit := by
  obtain ⟨next, hattempt, hnext⟩ := h.attempt_of_lt hlt roundedProduct row
  rw [attempt_roundedProduct] at hattempt
  exact ⟨next, settled_eq_ok_iff.mp hattempt, hnext⟩

/-- A push at the limit fails and says by how much. -/
theorem push_of_le (h : store.Sound) (hle : store.limit ≤ store.size) (row : α) :
    store.push row = .error (.capacityExceeded (store.size + 1) store.limit) := by
  have hrefused := (h.attempted roundedProduct row).refused hle
  rw [attempt_roundedProduct] at hrefused
  rw [h.size_eq_limit hle]
  exact settled_eq_error_iff.mp hrefused

/-- What a successful push says. -/
theorem lt_of_push (h : store.Sound) (hpush : store.push row = .ok next) :
    store.size < store.limit ∧ next.Sound ∧ next.rows = store.rows.push row ∧
      next.limit = store.limit := by
  by_cases hlt : store.size < store.limit
  · obtain ⟨next', hpush', hnext⟩ := push_of_lt h hlt row
    rw [hpush] at hpush'
    cases hpush'
    exact ⟨hlt, hnext⟩
  · rw [push_of_le h (by omega)] at hpush
    cases hpush

end JsonLines.RowStore
