/-
JsonLines.Proofs.Dataset.RowStoreRuns — runs of pushes into one row store.

A caller whose push failed still has a store and may push again. `Ran` says what is true after any
number of attempts: which of them succeeded, what the store holds, and what the next attempt will
do. One more attempt keeps it (`Ran.snoc`), so a store is filled up to its limit, row by row, and
never past it, whatever the product that proposes its slots is rounded to.
-/
import JsonLines.Proofs.Dataset.RowStore
import Mathlib.Data.List.Induction

namespace JsonLines.RowStore

variable {α : Type} {product : Nat → Nat} {store : RowStore α} {rows : List α} {bound : Nat}
  {r : List (Except Error Unit) × RowStore α}

/-! ## Attempts one after the other -/

/-- How the pushes of some rows end, each made whatever became of those before it, and the store
that they leave. -/
def attempts (product : Nat → Nat) (store : RowStore α) :
    List α → List (Except Error Unit) × RowStore α
  | [] => ([], store)
  | row :: rows =>
    let (outcome, store) := store.attempt product row
    let (outcomes, store) := store.attempts product rows
    (outcome :: outcomes, store)

/-- The rows whose pushes succeeded. -/
def taken (outcomes : List (Except Error Unit)) (rows : List α) : List α :=
  ((outcomes.zip rows).filter (·.1.isOk)).map (·.2)

/-- The run of one row more is the run, and then one attempt. -/
theorem attempts_snoc (product : Nat → Nat) (store : RowStore α) (rows : List α) (row : α) :
    store.attempts product (rows ++ [row]) =
      ((store.attempts product rows).1 ++ [((store.attempts product rows).2.attempt product row).1],
        ((store.attempts product rows).2.attempt product row).2) := by
  induction rows generalizing store with
  | nil => rfl
  | cons first rows ih =>
    simp only [List.cons_append, attempts, ih]

theorem taken_snoc {outcomes : List (Except Error Unit)} (h : outcomes.length = rows.length)
    (outcome : Except Error Unit) (row : α) : taken (outcomes ++ [outcome]) (rows ++ [row]) =
      taken outcomes rows ++ if outcome.isOk then [row] else [] := by
  rw [taken, List.zip_append h, List.filter_append, List.map_append, taken]
  cases outcome <;> rfl

/-! ## What a run leaves -/

/-- How `n` pushes into an empty store end: up to its limit they succeed, and from there on they
fail. -/
def expected (bound n : Nat) : List (Except Error Unit) :=
  List.replicate (min bound n) (.ok ()) ++
    List.replicate (n - bound) (.error (.capacityExceeded (bound + 1) bound))

theorem length_expected (bound n : Nat) : (expected bound n).length = n := by
  rw [expected, List.length_append, List.length_replicate, List.length_replicate]
  omega

theorem expected_succ_of_lt {n : Nat} (h : n < bound) :
    expected bound (n + 1) = expected bound n ++ [.ok ()] := by
  simp [expected, Nat.min_eq_right (Nat.le_of_lt h), Nat.min_eq_right (Nat.succ_le_of_lt h),
    Nat.sub_eq_zero_of_le (Nat.le_of_lt h), Nat.sub_eq_zero_of_le (Nat.succ_le_of_lt h),
    List.replicate_succ']

theorem expected_succ_of_le {n : Nat} (h : bound ≤ n) : expected bound (n + 1) =
    expected bound n ++ [.error (.capacityExceeded (bound + 1) bound)] := by
  simp [expected, Nat.min_eq_left h, Nat.min_eq_left (Nat.le_succ_of_le h), Nat.succ_sub h,
    List.replicate_succ']

/-- What is true of the pushes of some rows into a store that was empty: how they ended, and what
the store is like that they left. Every part of a run from its start is such a run, so this is true
at every moment. -/
structure Ran (product : Nat → Nat) (bound : Nat) (rows : List α)
    (r : List (Except Error Unit) × RowStore α) : Prop where
  /-- The first pushes succeed, as many as the limit allows, and every later one fails. -/
  outcomes_eq : r.1 = expected bound rows.length
  /-- The store gives back the rows whose pushes succeeded, in their order. -/
  finish_eq : r.2.finish.toList = taken r.1 rows
  /-- These are the first ones. -/
  finish_eq_take : r.2.finish.toList = rows.take bound
  limit_eq : r.2.limit = bound
  /-- There are no more rows than slots, and no more slots than the limit. -/
  sound : r.2.Sound
  /-- What the next attempt does. -/
  next : ∀ row, Attempted product r.2 row

theorem Ran.size_eq (h : Ran product bound rows r) : r.2.size = min bound rows.length := by
  rw [size, ← Array.length_toList, ← List.length_take, ← h.finish_eq_take]
  rfl

theorem ran_nil (product : Nat → Nat) (h : store.Sound) (hempty : store.rows = #[]) :
    Ran product store.limit [] (store.attempts product []) where
  outcomes_eq := by simp [attempts, expected]
  finish_eq := by simp [attempts, finish, hempty, taken]
  finish_eq_take := by simp [attempts, finish, hempty]
  limit_eq := rfl
  sound := h
  next := h.attempted product

/-- **One attempt more** keeps what is true of a run. -/
theorem Ran.snoc (h : Ran product bound rows r) (row : α) :
    Ran product bound (rows ++ [row])
      (r.1 ++ [(r.2.attempt product row).1], (r.2.attempt product row).2) := by
  have hsize := h.size_eq
  have hlength : r.1.length = rows.length := by rw [h.outcomes_eq, length_expected]
  by_cases hlt : rows.length < bound
  · obtain ⟨store, hattempt, hsound, hrows, hlimit⟩ :=
      h.sound.attempt_of_lt (by rw [h.limit_eq]; omega) product row
    have hfinish : store.finish.toList = r.2.finish.toList ++ [row] := by
      rw [finish, hrows, Array.toList_push, finish]
    rw [hattempt]
    refine ⟨?_, ?_, ?_, hlimit.trans h.limit_eq, hsound, hsound.attempted product⟩
    · rw [h.outcomes_eq, List.length_append, List.length_singleton, expected_succ_of_lt hlt]
    · rw [taken_snoc hlength, ← h.finish_eq]
      exact hfinish
    · rw [hfinish, h.finish_eq_take, List.take_of_length_le (Nat.le_of_lt hlt),
        List.take_of_length_le (by simpa using Nat.succ_le_of_lt hlt)]
  · have hle : bound ≤ rows.length := Nat.not_lt.mp hlt
    rw [(h.next row).refused (by rw [h.limit_eq]; omega), h.limit_eq]
    refine ⟨?_, ?_, ?_, h.limit_eq, h.sound, h.next⟩
    · rw [h.outcomes_eq, List.length_append, List.length_singleton, expected_succ_of_le hle]
    · rw [taken_snoc hlength, ← h.finish_eq]
      exact (List.append_nil _).symm
    · rw [List.take_append_of_le_length hle]
      exact h.finish_eq_take

/-- What is true of every run of pushes into a sound empty store. -/
theorem ran_attempts (product : Nat → Nat) (h : store.Sound) (hempty : store.rows = #[])
    (rows : List α) : Ran product store.limit rows (store.attempts product rows) := by
  induction rows using List.reverseRecOn with
  | nil => exact ran_nil product h hempty
  | append_singleton rows row ih =>
    rw [attempts_snoc]
    exact ih.snoc row

/-- The most rows of `width` bytes that a store with a limit of its own or none can hold. -/
def maximum (width : Nat) (limit : Option Nat) : Nat :=
  min (limit.getD (addressable width)) (addressable width)

theorem limit_withLimit_eq (width : Nat) (limit : Option Nat) :
    (withLimit width limit : RowStore α).limit = maximum width limit := by
  cases limit with
  | none => exact (Nat.min_self _).symm
  | some limit => rfl

theorem rows_withLimit (width : Nat) (limit : Option Nat) :
    (withLimit width limit : RowStore α).rows = #[] := by
  cases limit <;> rfl

/-- **A store is filled up to its limit and never past it**, by any run of pushes, failed ones
included, and however the product that proposes its slots is rounded. With the product of doubles
the slots are those of `nextCapacity` and the attempts are those of `push`. -/
theorem fills_to_limit :
    (∀ size, slotsAfter roundedProduct size = nextCapacity size) ∧
    (∀ (store : RowStore α) (row : α),
      store.attempt roundedProduct row = store.settled (store.push row)) ∧
    ∀ (product : Nat → Nat) (width : Nat) (limit : Option Nat) (rows : List α),
      Ran product (maximum width limit) rows ((withLimit width limit).attempts product rows) := by
  refine ⟨congrFun slotsAfter_roundedProduct, attempt_roundedProduct, ?_⟩
  intro product width limit rows
  rw [← limit_withLimit_eq (α := α)]
  exact ran_attempts product (sound_withLimit width limit) (rows_withLimit width limit) rows

/-- A store for 64-bit numbers with no limit of its own. -/
example : maximum 8 none = (2 ^ 63 - 1) / 8 := by decide

/-- Three pushes where there is room for two, with a product that always comes out as nothing. -/
example : ((withLimit 8 (some 2)).attempts (fun _ => 0) ["a", "b", "c"]).1 =
    [.ok (), .ok (), .error (.capacityExceeded 3 2)] := rfl

end JsonLines.RowStore
