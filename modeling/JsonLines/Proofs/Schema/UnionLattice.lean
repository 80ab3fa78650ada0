/-
JsonLines.Proofs.Schema.UnionLattice — union is a join-semilattice on the numbers of a growing
schema.

`union_semilattice` states the laws as they can be observed: by comparing the numbers that calls
return while the schema grows between and during the calls. `IsUnion` says, in the schema as it is
after the call or at any later time, what the returned number stands for; the unions of the parts of
two types that it mentions are themselves numbers of that schema.
-/
import JsonLines.Proofs.Schema.Reachable

namespace JsonLines.Schema

variable {s t u : Schema} {a b c : TypeId}

/-! ## What the union of two types is -/

/-- The field of a name in the union of two records, from the fields of that name in both. -/
def joinField (t : Schema) : Option Field → Option Field → Option Field
  | none, none => none
  | some f, none => some { f with optional := true }
  | none, some g => some { g with optional := true }
  | some f, some g => some ⟨f.name, (t.union f.type g.type).1, f.optional || g.optional⟩

/-- In the schema `t`, `c` is the union of `a` and `b`. -/
def IsUnion (t : Schema) (a b c : TypeId) : Prop :=
  if a = b then c = a
  else match t.get? a, t.get? b with
  | some .null, _ => c = b
  | _, some .null => c = a
  | some .integer, some .real => c = .real
  | some .real, some .integer => c = .real
  | some (.composite (.array p)), some (.composite (.array q)) =>
    t.get? c = some (.composite (.array (t.union p q).1))
  | some (.composite (.record fs)), some (.composite (.record gs)) =>
    ∃ hs, t.get? c = some (.composite (.record hs)) ∧ (hs.map (·.name)).Nodup ∧
      ∀ n, Field.named? hs n = joinField t (Field.named? fs n) (Field.named? gs n)
  | _, _ => c = .any

/-- A known number with the tree that a union has is what the union gives. -/
theorem union_eq_of_tree_eq (ht : t.WellFormed) (ha : t.Knows a) (hb : t.Knows b) (hc : t.Knows c)
    (h : t.tree c = t.tree a ⊔ t.tree b) : (t.union a b).1 = c := by
  have hj := joins_union ht ha hb
  refine tree_injective hj.wellFormed hj.knows (hj.extended.knows hc) ?_
  rw [hj.tree_eq, tree_of_extends ht hj.wellFormed hj.extended hc, h]

/-- The union gives its second type back when that covers the first one. -/
theorem union_eq_right_iff (ht : t.WellFormed) (ha : t.Knows a) (hb : t.Knows b) :
    (t.union a b).1 = b ↔ t.tree a ≤ t.tree b := by
  constructor
  · intro h
    have hj := joins_union ht ha hb
    have htree := hj.tree_eq
    rw [h, tree_of_extends ht hj.wellFormed hj.extended hb] at htree
    exact sup_eq_right.mp htree.symm
  · intro h
    exact union_eq_of_tree_eq ht ha hb hb (sup_eq_right.mpr h).symm

theorem ofField?_joinField (f? g? : Option Field) :
    Presence.ofField? (joinField t f? g?) =
      (Presence.ofField? f?).join (Presence.ofField? g?) := by
  cases f? with
  | none =>
    cases g? with
    | none => rfl
    | some g => cases ho : g.optional <;> simp [joinField, Presence.ofField?, Presence.join, ho]
  | some f =>
    cases g? with
    | none => cases ho : f.optional <;> simp [joinField, Presence.ofField?, Presence.join, ho]
    | some g =>
      cases ho : f.optional <;> cases ho' : g.optional <;>
        simp [joinField, Presence.ofField?, Presence.join, ho, ho']

/-- Records whose trees join have fields that join. -/
theorem named?_of_recordTree_eq {fs gs hs : List Field} (ht : t.WellFormed)
    (hf : ∀ f ∈ fs, t.Knows f.type) (hg : ∀ g ∈ gs, t.Knows g.type)
    (hh : ∀ h ∈ hs, t.Knows h.type) (heq : t.recordTree hs = t.recordTree fs ⊔ t.recordTree gs)
    (n : NameId) :
    Field.named? hs n = joinField t (Field.named? fs n) (Field.named? gs n) := by
  rw [TypeTree.sup_def] at heq
  simp only [recordTree, TypeTree.join, TypeTree.record.injEq] at heq
  have htree := congrFun heq.2 n
  refine Field.option_ext ?_ ?_ ?_
  · rw [ofField?_joinField]
    exact congrFun heq.1 n
  · intro h hh' j hj
    rw [Field.name_of_named? hh']
    cases hF : Field.named? fs n with
    | none =>
      cases hG : Field.named? gs n with
      | none => simp [hF, hG, joinField] at hj
      | some g =>
        simp only [hF, hG, joinField, Option.mem_def, Option.some.injEq] at hj
        exact hj ▸ (Field.name_of_named? hG).symm
    | some f =>
      cases hG : Field.named? gs n <;>
        simp only [hF, hG, joinField, Option.mem_def, Option.some.injEq] at hj <;>
        exact hj ▸ (Field.name_of_named? hF).symm
  · intro h hh' j hj
    have hkh := hh h (Field.mem_of_named? hh')
    rw [hh'] at htree
    cases hF : Field.named? fs n with
    | none =>
      cases hG : Field.named? gs n with
      | none => simp [hF, hG, joinField] at hj
      | some g =>
        simp only [hF, hG, joinField, Option.mem_def, Option.some.injEq] at hj
        rw [hF, hG] at htree
        subst hj
        exact tree_injective ht hkh (hg g (Field.mem_of_named? hG)) htree
    | some f =>
      have hkf := hf f (Field.mem_of_named? hF)
      cases hG : Field.named? gs n with
      | none =>
        simp only [hF, hG, joinField, Option.mem_def, Option.some.injEq] at hj
        rw [hF, hG] at htree
        subst hj
        exact tree_injective ht hkh hkf (htree.trans (TypeTree.join_null _))
      | some g =>
        simp only [hF, hG, joinField, Option.mem_def, Option.some.injEq] at hj
        rw [hF, hG] at htree
        subst hj
        exact (union_eq_of_tree_eq ht hkf (hg g (Field.mem_of_named? hG)) hkh htree).symm

theorem exists_array_of_tree_eq {e : TypeTree NameId} (ht : t.WellFormed) (hc : t.Knows c)
    (h : t.tree c = .array e) :
    ∃ element, t.get? c = some (.composite (.array element)) ∧ t.tree element = e := by
  obtain ⟨type, htype⟩ := exists_get? hc
  rw [tree_eq_typeTree ht htype] at h
  cases type with
  | composite c =>
    cases c with
    | array element => exact ⟨element, htype, by simpa [typeTree, compositeTree] using h⟩
    | record fields => simp [typeTree, compositeTree, recordTree] at h
  | _ => simp [typeTree] at h

theorem exists_record_of_tree_eq {p : NameId → Presence} {e : NameId → TypeTree NameId}
    (ht : t.WellFormed) (hc : t.Knows c) (h : t.tree c = .record p e) :
    ∃ fields, t.get? c = some (.composite (.record fields)) ∧
      t.recordTree fields = .record p e := by
  obtain ⟨type, htype⟩ := exists_get? hc
  rw [tree_eq_typeTree ht htype] at h
  cases type with
  | composite c =>
    cases c with
    | array element => simp [typeTree, compositeTree] at h
    | record fields => exact ⟨fields, htype, h⟩
  | _ => simp [typeTree] at h

/-- **Denotation**: a known number whose tree is the join of two trees is the union of their
numbers. -/
theorem isUnion_of_tree_eq (ht : t.WellFormed) (ha : t.Knows a) (hb : t.Knows b) (hc : t.Knows c)
    (h : t.tree c = t.tree a ⊔ t.tree b) : t.IsUnion a b c := by
  rw [TypeTree.sup_def] at h
  unfold IsUnion
  split
  · rename_i hab
    rw [← hab, TypeTree.join_self] at h
    exact tree_injective ht hc ha h
  rename_i hab
  obtain ⟨typeA, hA⟩ := exists_get? ha
  obtain ⟨typeB, hB⟩ := exists_get? hb
  obtain ⟨-, -, -, hreal, -, hany⟩ := tree_eq_primitive_iff ht hc
  have hcA : t.tree c = t.typeTree typeA → c = a := fun h =>
    tree_injective ht hc ha (h.trans (tree_eq_typeTree ht hA).symm)
  have hcB : t.tree c = t.typeTree typeB → c = b := fun h =>
    tree_injective ht hc hb (h.trans (tree_eq_typeTree ht hB).symm)
  have hsame : typeA = typeB → a = b := fun heq => tree_injective ht ha hb
    ((tree_eq_typeTree ht hA).trans (heq ▸ (tree_eq_typeTree ht hB).symm))
  rw [tree_eq_typeTree ht hA, tree_eq_typeTree ht hB] at h
  rw [hA, hB]
  cases typeA with
  | composite C =>
    cases typeB with
    | composite D =>
      cases C with
      | array p =>
        cases D with
        | array q =>
          obtain ⟨e, hget, he⟩ := exists_array_of_tree_eq ht hc h
          rw [← union_eq_of_tree_eq ht (ht.knows_element hA) (ht.knows_element hB)
            (ht.knows_element hget) he] at hget
          exact hget
        | record gs => exact hany.mp h
      | record fs =>
        cases D with
        | array q => exact hany.mp h
        | record gs =>
          obtain ⟨hs, hget, hfields⟩ := exists_record_of_tree_eq ht hc h
          refine ⟨hs, hget, ht.names_nodup hget, ?_⟩
          exact named?_of_recordTree_eq ht (ht.knows_field hA) (ht.knows_field hB)
            (ht.knows_field hget) hfields
    | null => exact hcA (h.trans (TypeTree.join_null _))
    | _ => cases C <;> exact hany.mp h
  | null => exact hcB (h.trans (TypeTree.null_join _))
  | _ =>
    cases typeB with
    | composite D => cases D <;> exact hany.mp h
    | null => exact hcA (h.trans (TypeTree.join_null _))
    | _ =>
      -- Different kinds, an integer with a real, or one primitive type twice.
      first
      | exact hany.mp h
      | exact hreal.mp h
      | exact absurd (hsame rfl) hab

/-! ## The laws -/

theorem union_eq_of_unionWithin {r : TypeId × Schema} (h : ∀ depth, unionWithin (depth + 1) s a b =
    some r) : s.union a b = r := by
  have hsize : s.size = s.composites.size + 5 + 1 := by
    simp only [size, TypeId.primitives]
    omega
  rw [union, hsize, h, Option.getD_some]

theorem union_self (s : Schema) (a : TypeId) : s.union a a = (a, s) :=
  union_eq_of_unionWithin fun depth => by rw [unionWithin, if_pos rfl]

theorem null_union (s : Schema) (a : TypeId) : s.union .null a = (a, s) := by
  refine union_eq_of_unionWithin fun depth => ?_
  rw [unionWithin, if_pos rfl]
  split
  · rename_i h
    rw [h]
  · rfl

theorem union_null (s : Schema) (a : TypeId) : s.union a .null = (a, s) := by
  refine union_eq_of_unionWithin fun depth => ?_
  rw [unionWithin]
  split
  · rfl
  · rw [if_pos rfl]

theorem any_union (s : Schema) (a : TypeId) : s.union .any a = (.any, s) := by
  refine union_eq_of_unionWithin fun depth => ?_
  rw [unionWithin]
  split
  · rfl
  · rw [if_neg (by decide), if_pos (Or.inl rfl)]
    split <;> rfl

theorem union_any (s : Schema) (a : TypeId) : s.union a .any = (.any, s) := by
  refine union_eq_of_unionWithin fun depth => ?_
  rw [unionWithin]
  split
  · rename_i h
    rw [h]
  · rw [if_neg (show TypeId.any ≠ .null by decide), if_pos (Or.inr rfl)]
    split <;> rfl

/-- What holds of the unions of three numbers as calls follow each other. The schemas `t`, `u` and
`v` are those in which the later calls are made: whatever else happened before them. -/
structure UnionLaws (s : Schema) (a b c : TypeId) : Prop where
  /-- The recursion ends: whatever the bound, from the number of types on, there is a result, and it
  is the union. -/
  ends : ∀ depth, s.size ≤ depth → unionWithin depth s a b = some (s.union a b)
  returns : (s.union a b).2.Knows (s.union a b).1
  self : s.union a a = (a, s)
  null_left : s.union .null a = (a, s)
  null_right : s.union a .null = (a, s)
  any_left : s.union .any a = (.any, s)
  any_right : s.union a .any = (.any, s)
  comm : ∀ t, Later (s.union a b).2 t → (t.union b a).1 = (s.union a b).1
  assoc : ∀ t, Later (s.union a b).2 t → ∀ u, Later (t.union (s.union a b).1 c).2 u →
    ∀ v, Later (u.union b c).2 v →
      (v.union a (u.union b c).1).1 = (t.union (s.union a b).1 c).1
  denotes : ∀ t, Later (s.union a b).2 t → t.IsUnion a b (s.union a b).1

/-- The number that a union returned, in a later schema. -/
theorem Joins.later {r : TypeId × Schema} (hs : s.WellFormed) (ha : s.Knows a) (hb : s.Knows b)
    (h : s.Joins a b r) (hl : Later r.2 t) :
    t.WellFormed ∧ s.Extends t ∧ t.Knows r.1 ∧ t.tree r.1 = t.tree a ⊔ t.tree b := by
  obtain ⟨ht, hext⟩ := hl.extends h.wellFormed
  have hst := h.extended.trans hext
  refine ⟨ht, hst, hext.knows h.knows, ?_⟩
  rw [tree_of_extends h.wellFormed ht hext h.knows, h.tree_eq, tree_of_extends hs ht hst ha,
    tree_of_extends hs ht hst hb]

/-- **Union is a join-semilattice**: in every schema that comes about, for all the types it
knows. -/
theorem union_semilattice (hs : s.Reachable) (ha : s.Knows a) (hb : s.Knows b) (hc : s.Knows c) :
    s.UnionLaws a b c := by
  have hwf := hs.wellFormed
  have hj := joins_union hwf ha hb
  refine ⟨fun depth => unionWithin_eq_union hwf ha hb, hj.knows, union_self s a, null_union s a,
    union_null s a, any_union s a, union_any s a, ?_, ?_, ?_⟩
  · intro t ht
    obtain ⟨hwft, hst, hk, htree⟩ := hj.later hwf ha hb ht
    exact union_eq_of_tree_eq hwft (hst.knows hb) (hst.knows ha) hk (by rw [htree, sup_comm])
  · intro t ht u hu v hv
    obtain ⟨hwft, hst, hk, htree⟩ := hj.later hwf ha hb ht
    have hleft := joins_union hwft hk (hst.knows hc)
    obtain ⟨hwfu, htu, hkl, htreel⟩ := hleft.later hwft hk (hst.knows hc) hu
    have hsu := hst.trans htu
    have hbc := joins_union hwfu (hsu.knows hb) (hsu.knows hc)
    obtain ⟨hwfv, huv, hkr, htreer⟩ := hbc.later hwfu (hsu.knows hb) (hsu.knows hc) hv
    have hsv := hsu.trans huv
    have hab : v.tree (s.union a b).1 = v.tree a ⊔ v.tree b := by
      rw [tree_of_extends hwft hwfv (htu.trans huv) hk, htree,
        tree_of_extends hwft hwfv (htu.trans huv) (hst.knows ha),
        tree_of_extends hwft hwfv (htu.trans huv) (hst.knows hb)]
    refine union_eq_of_tree_eq hwfv (hsv.knows ha) hkr (huv.knows hkl) ?_
    calc v.tree (t.union (s.union a b).1 c).1
        = u.tree (s.union a b).1 ⊔ u.tree c := by
          rw [tree_of_extends hwfu hwfv huv hkl, htreel]
      _ = v.tree (s.union a b).1 ⊔ v.tree c := by
          rw [tree_of_extends hwfu hwfv huv (htu.knows hk),
            tree_of_extends hwfu hwfv huv (hsu.knows hc)]
      _ = v.tree a ⊔ v.tree (u.union b c).1 := by rw [hab, htreer, sup_assoc]
  · intro t ht
    obtain ⟨hwft, hst, hk, htree⟩ := hj.later hwf ha hb ht
    exact isUnion_of_tree_eq hwft (hst.knows ha) (hst.knows hb) hk htree

/-- The schema of three records, two of which hold arrays. -/
def threeRecords : Schema :=
  (Scanner.scan {} (.ofString
    "[\x7b\"a\":1,\"b\":[]\x7d,\x7b\"a\":0.5,\"b\":[2]\x7d,\x7b\"c\":\"x\"\x7d]")
    .empty ⟨0, 44⟩).2

theorem union_semilattice_threeRecords :
    threeRecords.Reachable ∧ threeRecords.Knows ⟨7⟩ ∧ threeRecords.Knows ⟨9⟩ ∧
      threeRecords.Knows ⟨10⟩ ∧ threeRecords.UnionLaws ⟨7⟩ ⟨9⟩ ⟨10⟩ := by
  have hs : threeRecords.Reachable := Relation.ReflTransGen.single (.scan _ _ _ _)
  have ha : threeRecords.Knows ⟨7⟩ := by decide +kernel
  have hb : threeRecords.Knows ⟨9⟩ := by decide +kernel
  have hc : threeRecords.Knows ⟨10⟩ := by decide +kernel
  exact ⟨hs, ha, hb, hc, union_semilattice hs ha hb hc⟩

end JsonLines.Schema
