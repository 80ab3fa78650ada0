/-
JsonLines.Proofs.Schema.Reachable — the schemas that come about.

A schema starts empty and grows by interning names, registering types over known ones, joining and
scanning. `Schema.Later s t` says that `t` comes about from `s` by any number of such operations,
failed scans included. Every schema that comes about is well formed, and a later schema extends an
earlier one: no operation takes back or moves what is known.
-/
import JsonLines.Proofs.Scan.Scanned
import Mathlib.Logic.Relation

namespace JsonLines.Schema

variable {s t u : Schema} {a b : TypeId}

/-- One operation on a schema. -/
inductive Step : Schema → Schema → Prop where
  | intern (s : Schema) (name : String) : Step s (s.intern name).2
  | array {s : Schema} {element : TypeId} : s.Knows element → Step s (s.array element).2
  | record {s : Schema} {fields : List Field} : (∀ f ∈ fields, s.Knows f.type) →
    (fields.map (·.name)).Nodup → Step s (s.record fields).2
  | union (s : Schema) (a b : TypeId) : Step s (s.union a b).2
  | scan (s : Schema) (scanner : Scanner) (source : ByteSource) (span : Span) :
    Step s (scanner.scan source s span).2

/-- The second schema comes about from the first one by some operations. -/
def Later : Schema → Schema → Prop := Relation.ReflTransGen Step

/-- The schema comes about from the empty one. -/
def Reachable (s : Schema) : Prop := Later empty s

theorem admits_record {fields : List Field} (hk : ∀ f ∈ fields, s.Knows f.type)
    (hnd : (fields.map (·.name)).Nodup) : s.Admits (.record fields) where
  parts part hpart := by
    obtain ⟨f, hf, rfl⟩ := List.mem_map.mp hpart
    exact hk f hf
  names := hnd

/-- A union of numbers that the schema does not both know registers nothing. -/
theorem union_of_not_knows (h : ¬ (s.Knows a ∧ s.Knows b)) : (s.union a b).2 = s := by
  rcases s.union_cases a b with hrun | hany
  · obtain ⟨depth, hdepth⟩ : ∃ depth, s.size = depth + 1 :=
      Nat.exists_eq_add_one.mpr (by simp only [size, TypeId.primitives]; omega)
    rw [hdepth] at hrun
    cases s.unionStep a b with
    | settled c _ hstep =>
      rw [← Option.some.inj ((hstep depth s rfl rfl).symm.trans hrun)]
    | arrays p q hA hB => exact absurd ⟨knows_of_get? hA, knows_of_get? hB⟩ h
    | records fs gs hA hB => exact absurd ⟨knows_of_get? hA, knows_of_get? hB⟩ h
  · rw [hany]

/-- One operation leaves a well-formed extension. -/
theorem Step.extends (h : Step s t) (hs : s.WellFormed) : t.WellFormed ∧ s.Extends t := by
  cases h with
  | intern name =>
    have h := interns_intern hs name
    exact ⟨h.wellFormed, h.extended⟩
  | array he =>
    have h := registers_register hs (admits_array he)
    exact ⟨h.wellFormed, h.extended⟩
  | record hf hnd =>
    have h := registers_register hs (admits_record hf hnd)
    exact ⟨h.wellFormed, h.extended⟩
  | union a b =>
    by_cases hk : s.Knows a ∧ s.Knows b
    · have h := joins_union hs hk.1 hk.2
      exact ⟨h.wellFormed, h.extended⟩
    · rw [union_of_not_knows hk]
      exact ⟨hs, .refl s⟩
  | scan scanner source span => exact wellFormed_scan hs

/-- Any number of operations leaves a well-formed extension. -/
theorem Later.extends (h : Later s t) (hs : s.WellFormed) : t.WellFormed ∧ s.Extends t := by
  induction h with
  | refl => exact ⟨hs, .refl s⟩
  | tail _ hstep ih =>
    obtain ⟨hwf, hext⟩ := hstep.extends ih.1
    exact ⟨hwf, ih.2.trans hext⟩

theorem Reachable.wellFormed (h : s.Reachable) : s.WellFormed :=
  (Later.extends h wellFormed_empty).1

end JsonLines.Schema
