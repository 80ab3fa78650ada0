/-
JsonLines.Proofs.Collecting — lists that are made one thing after the other.

Several functions make a list from another one this way and end at the first failure, each by a
recursion of its own. `Collects` says what they have in common. From it follows when there is a list
at all, what it holds, and which failure there is otherwise. What it holds is related to what it is
made from entry by entry, and so are other lists: a few facts about such lists stand first.
-/
import Mathlib.Data.List.Forall2

namespace JsonLines

/-! ## Lists related entry by entry -/

section

variable {α β γ : Type} {as : List α} {bs : List β} {R : α → β → Prop}

/-- What stands in the second list is related to something in the first one. -/
theorem exists_of_forall₂ {b : β} (h : List.Forall₂ R as bs) (hb : b ∈ bs) :
    ∃ a ∈ as, R a b := by
  obtain ⟨i, hi, rfl⟩ := List.getElem_of_mem hb
  exact ⟨as.get ⟨i, h.length_eq ▸ hi⟩, List.get_mem _ _, h.get _ hi⟩

/-- There is a list of related things when there is one for each. -/
theorem exists_forall₂_iff : (∃ bs, List.Forall₂ R as bs) ↔ ∀ a ∈ as, ∃ b, R a b := by
  induction as with
  | nil => simp
  | cons a as ih =>
    rw [List.forall_mem_cons, ← ih]
    simp only [List.forall₂_cons_left_iff]
    constructor
    · rintro ⟨_, b, bs, hhead, htail, -⟩
      exact ⟨⟨b, hhead⟩, bs, htail⟩
    · rintro ⟨⟨b, hhead⟩, bs, htail⟩
      exact ⟨_, b, bs, hhead, htail, rfl⟩

/-- Two relations that agree on the entries of the first list relate it to the same lists. -/
theorem forall₂_congr_of_mem {S : α → β → Prop} (h : ∀ a ∈ as, ∀ b, R a b ↔ S a b) :
    List.Forall₂ R as bs ↔ List.Forall₂ S as bs := by
  induction as generalizing bs with
  | nil => simp
  | cons a as ih =>
    obtain ⟨hhead, htail⟩ := List.forall_mem_cons.mp h
    simp only [List.forall₂_cons_left_iff, hhead, ih htail]

/-- Related things of which the same is made. -/
theorem map_eq_map_of_forall₂ {f : α → γ} {g : β → γ}
    (h : List.Forall₂ R as bs) (hfg : ∀ a b, R a b → f a = g b) : as.map f = bs.map g := by
  induction h with
  | nil => rfl
  | cons hhead _ ih => rw [List.map_cons, List.map_cons, hfg _ _ hhead, ih]

/-- What is related to the same entries is related. -/
theorem forall₂_of_shared {S : α → γ → Prop} {T : β → γ → Prop}
    {cs : List γ} (h : List.Forall₂ R as bs) (h' : List.Forall₂ S as cs)
    (himp : ∀ a b c, R a b → S a c → T b c) : List.Forall₂ T bs cs := by
  induction h generalizing cs with
  | nil =>
    cases h'
    exact .nil
  | cons hhead _ ih =>
    cases h' with
    | cons hhead' htail => exact .cons (himp _ _ _ hhead hhead') (ih htail)

end

/-! ## Collecting -/

variable {α β ε : Type} {collect : List α → Except ε (List β)} {make : α → Except ε β}
  {as : List α} {bs : List β} {e : ε}

/-- The first function makes one thing after the other with the second one, and ends at the first
failure. -/
structure Collects (collect : List α → Except ε (List β)) (make : α → Except ε β) : Prop where
  nil : collect [] = .ok []
  cons : ∀ a as, collect (a :: as) = match make a with
    | .error e => .error e
    | .ok b => match collect as with
      | .error e => .error e
      | .ok bs => .ok (b :: bs)

namespace Collects

/-- What is collected is what is made of each. -/
theorem eq_ok_iff (h : Collects collect make) :
    collect as = .ok bs ↔ List.Forall₂ (fun a b => make a = .ok b) as bs := by
  induction as generalizing bs with
  | nil => simp [h.nil, eq_comm]
  | cons a as ih =>
    rw [h.cons, List.forall₂_cons_left_iff]
    simp only [← ih]
    cases make a with
    | error e => simp
    | ok b => cases collect as <;> simp [eq_comm]

/-- **A list is collected** when each thing can be made. -/
theorem exists_iff (h : Collects collect make) :
    (∃ bs, collect as = .ok bs) ↔ ∀ a ∈ as, ∃ b, make a = .ok b := by
  simp only [h.eq_ok_iff, exists_forall₂_iff]

/-- Collecting fails as the making of one thing does. -/
theorem exists_of_eq_error (h : Collects collect make) (herror : collect as = .error e) :
    ∃ a ∈ as, make a = .error e := by
  induction as with
  | nil => cases h.nil.symm.trans herror
  | cons a as ih =>
    rw [h.cons] at herror
    rw [List.exists_mem_cons_iff]
    cases hmake : make a with
    | error e' =>
      simp only [hmake] at herror
      cases herror
      exact .inl rfl
    | ok b =>
      refine .inr (ih ?_)
      cases hcollect : collect as with
      | error e' => simpa only [hmake, hcollect] using herror
      | ok bs => simp [hmake, hcollect] at herror

end Collects

end JsonLines
