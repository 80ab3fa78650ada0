/-
JsonLines.Proofs.Schema.UnionTheorems — the union of two numbers stands for the join of their trees.

`joins_union` is the one statement that the rest of the development uses: in a well-formed schema
the union of two known types is a known type of a well-formed extension, and its tree is the join
of their trees. The recursion ends, because every call goes to parts of its first argument, which
have smaller numbers: within any bound above that number there is a result (`joins_unionWithin`), and
it is the union (`unionWithin_eq_union`). What else is true of every union is proved along
`unionStep`, which says what one level of the recursion can do, and along `JoinedInTurn` for the
fields of records.
-/
import JsonLines.Schema.Union
import JsonLines.Proofs.Schema.Unfolding

namespace JsonLines.Schema

variable {s t : Schema} {a b id : TypeId} {c : Composite} {fields others : List Field}

/-! ## Trees of registered types -/

theorem compositeTree_of_extends (hs : s.WellFormed) (ht : t.WellFormed) (hst : s.Extends t)
    (hparts : ∀ part ∈ c.parts, s.Knows part) : t.compositeTree c = s.compositeTree c := by
  cases c with
  | array element =>
    have := tree_of_extends hs ht hst (hparts element (by simp [Composite.parts]))
    simp [compositeTree, this]
  | record fields =>
    have hf : ∀ f ∈ fields, t.tree f.type = s.tree f.type := fun f hf =>
      tree_of_extends hs ht hst (hparts f.type (List.mem_map_of_mem hf))
    simp [compositeTree, recordTree, treeOf?_congr hf]

/-- A registered type has the tree of the composite type that was asked for. -/
theorem Registers.tree_eq {r : TypeId × Schema} (hs : s.WellFormed) (hc : s.Admits c)
    (h : s.Registers c r) : r.2.tree r.1 = s.compositeTree c := by
  obtain ⟨d, hd, hsame⟩ := h.found
  rw [tree_composite h.wellFormed hd, ← compositeTree_of_same hc.names hsame,
    compositeTree_of_extends hs h.wellFormed h.extended hc.parts]

/-! ## What a union gives -/

/-- A known type of a well-formed extension, with the join of two trees. -/
structure Joins (s : Schema) (a b : TypeId) (r : TypeId × Schema) : Prop where
  wellFormed : r.2.WellFormed
  extended : s.Extends r.2
  knows : r.2.Knows r.1
  tree_eq : r.2.tree r.1 = s.tree a ⊔ s.tree b

/-- Known fields of a well-formed extension: those of a list, each joined with what another list
says of its name. -/
structure JoinsFields (s : Schema) (fields others : List Field) (r : List Field × Schema) :
    Prop where
  wellFormed : r.2.WellFormed
  extended : s.Extends r.2
  knows : ∀ f ∈ r.1, r.2.Knows f.type
  names : r.1.map (·.name) = fields.map (·.name)
  presence : ∀ n f, Field.named? fields n = some f →
    Presence.ofField? (Field.named? r.1 n) =
      (Presence.ofField? (some f)).join (.ofField? (Field.named? others n))
  tree_eq : ∀ n f, Field.named? fields n = some f →
    r.2.treeOf? (Field.named? r.1 n) = s.tree f.type ⊔ s.treeOf? (Field.named? others n)

theorem treeOf?_of_extends (hs : s.WellFormed) (ht : t.WellFormed) (hst : s.Extends t)
    (hk : ∀ f ∈ fields, s.Knows f.type) (n : NameId) :
    t.treeOf? (Field.named? fields n) = s.treeOf? (Field.named? fields n) :=
  treeOf?_congr (fun f hf => tree_of_extends hs ht hst (hk f hf)) n

theorem joinsFields_nil (hs : s.WellFormed) : s.JoinsFields [] others ([], s) where
  wellFormed := hs
  extended := .refl s
  knows := by simp
  names := rfl
  presence := by simp [Field.named?]
  tree_eq := by simp [Field.named?]

/-- One more field in front, given what becomes of it. -/
theorem JoinsFields.cons {f g : Field} {r : List Field × Schema} (hs : s.WellFormed)
    (ht : t.WellFormed) (hst : s.Extends t) (hf : ∀ h ∈ fields, s.Knows h.type)
    (ho : ∀ h ∈ others, s.Knows h.type) (hg : t.Knows g.type) (hname : g.name = f.name)
    (hpres : Presence.ofField? (some g) =
      (Presence.ofField? (some f)).join (.ofField? (Field.named? others f.name)))
    (htree : t.tree g.type = s.tree f.type ⊔ s.treeOf? (Field.named? others f.name))
    (hr : t.JoinsFields fields others r) : s.JoinsFields (f :: fields) others (g :: r.1, r.2) where
  wellFormed := hr.wellFormed
  extended := hst.trans hr.extended
  knows := by
    rintro h (_ | ⟨_, hmem⟩)
    · exact hr.extended.knows hg
    · exact hr.knows h hmem
  names := by simp [hname, hr.names]
  presence n h hn := by
    by_cases heq : f.name = n
    · simp [Field.named?, heq] at hn
      subst hn heq
      simpa [Field.named?, hname] using hpres
    · have hn' : Field.named? fields n = some h := by simpa [Field.named?, heq] using hn
      have := hr.presence n h hn'
      simpa [Field.named?, hname, heq] using this
  tree_eq n h hn := by
    by_cases heq : f.name = n
    · simp [Field.named?, heq] at hn
      subst hn heq
      have hkeep := tree_of_extends ht hr.wellFormed hr.extended hg
      simpa [Field.named?, hname, treeOf?, hkeep] using htree
    · have hn' : Field.named? fields n = some h := by simpa [Field.named?, heq] using hn
      have hrest := hr.tree_eq n h hn'
      rw [tree_of_extends hs ht hst (hf h (Field.mem_of_named? hn')),
        treeOf?_of_extends hs ht hst ho] at hrest
      simpa [Field.named?, hname, heq] using hrest

/-- How fields are joined: one after the other, each in the schema that the fields before it left
behind. The types join by `R`. -/
inductive JoinedInTurn (R : Schema → TypeId → TypeId → TypeId × Schema → Prop)
    (others : List Field) : Schema → List Field → List Field × Schema → Prop where
  | nil (s : Schema) : JoinedInTurn R others s [] ([], s)
  | lacking {s : Schema} {f : Field} {fields : List Field} {r : List Field × Schema} :
    Field.named? others f.name = none → JoinedInTurn R others s fields r →
      JoinedInTurn R others s (f :: fields) ({ f with optional := true } :: r.1, r.2)
  | shared {s : Schema} {f g : Field} {fields : List Field} {joined : TypeId × Schema}
    {r : List Field × Schema} : Field.named? others f.name = some g →
      R s f.type g.type joined → JoinedInTurn R others joined.2 fields r →
      JoinedInTurn R others s (f :: fields)
        ({ f with type := joined.1, optional := f.optional || g.optional } :: r.1, r.2)

theorem joinFields_eq_some_iff {join : Schema → TypeId → TypeId → Option (TypeId × Schema)}
    {r : List Field × Schema} : joinFields join others s fields = some r ↔
      JoinedInTurn (fun s a b r => join s a b = some r) others s fields r := by
  induction fields generalizing s r with
  | nil =>
    constructor
    · intro h
      cases h
      exact .nil s
    · rintro ⟨⟩
      rfl
  | cons f fields ih =>
    rw [joinFields]
    constructor
    · intro h
      cases hother : others.find? (·.name = f.name) with
      | none =>
        rw [hother] at h
        obtain ⟨rest, hrest, hr⟩ := Option.bind_eq_some_iff.mp h
        cases hr
        exact .lacking hother (ih.mp hrest)
      | some g =>
        rw [hother] at h
        obtain ⟨joined, hjoined, h⟩ := Option.bind_eq_some_iff.mp h
        obtain ⟨rest, hrest, hr⟩ := Option.bind_eq_some_iff.mp h
        cases hr
        exact .shared hother hjoined (ih.mp hrest)
    · intro h
      cases h with
      | lacking hother hrest =>
        rw [Field.named?] at hother
        rw [hother, ih.mpr hrest]
        rfl
      | shared hother hjoined hrest =>
        rw [Field.named?] at hother
        simp only [hother, hjoined, ih.mpr hrest, Option.bind_eq_bind, Option.bind_some,
          Option.pure_def]

/-- Joining fields, given that the types of both lists join. -/
theorem JoinedInTurn.joinsFields {R : Schema → TypeId → TypeId → TypeId × Schema → Prop}
    {r : List Field × Schema} (h : JoinedInTurn R others s fields r)
    (hjoin : ∀ {s : Schema} {f g : Field} {r : TypeId × Schema}, s.WellFormed → f ∈ fields →
      s.Knows f.type → s.Knows g.type → R s f.type g.type r → s.Joins f.type g.type r)
    (hs : s.WellFormed) (hf : ∀ f ∈ fields, s.Knows f.type)
    (ho : ∀ g ∈ others, s.Knows g.type) : s.JoinsFields fields others r := by
  induction h with
  | nil => exact joinsFields_nil hs
  | @lacking s f fields r hlack _ ih =>
    obtain ⟨hhead, hrest⟩ := List.forall_mem_cons.mp hf
    refine JoinsFields.cons (g := { f with optional := true }) hs hs (.refl s) hrest ho hhead rfl
      ?_ ?_ (ih (fun hs hf => hjoin hs (List.mem_cons_of_mem _ hf)) hs hrest ho)
    · rw [hlack]
      cases ho : f.optional <;> simp [Presence.ofField?, Presence.join, ho]
    · rw [hlack, TypeTree.sup_def]
      exact (TypeTree.join_null _).symm
  | @shared s f g fields joined r hfound hjoined _ ih =>
    obtain ⟨hhead, hrest⟩ := List.forall_mem_cons.mp hf
    have hg : g ∈ others := Field.mem_of_named? hfound
    have hj := hjoin hs List.mem_cons_self hhead (ho g hg) hjoined
    refine JoinsFields.cons (t := joined.2)
      (g := { f with type := joined.1, optional := f.optional || g.optional })
      hs hj.wellFormed hj.extended hrest ho hj.knows rfl ?_ ?_
      (ih (fun hs hf => hjoin hs (List.mem_cons_of_mem _ hf)) hj.wellFormed
        (fun h hh => hj.extended.knows (hrest h hh)) fun h hh => hj.extended.knows (ho h hh))
    · rw [hfound]
      cases ho : f.optional <;> cases ho' : g.optional <;>
        simp [Presence.ofField?, Presence.join, ho, ho']
    · rw [hfound]
      exact hj.tree_eq

/-- Fields have a joined list if all their types have a join. -/
theorem exists_joinedInTurn {R : Schema → TypeId → TypeId → TypeId × Schema → Prop}
    (hjoin : ∀ {s : Schema} {f g : Field}, s.WellFormed → f ∈ fields → s.Knows f.type →
      s.Knows g.type → ∃ r, R s f.type g.type r ∧ s.Joins f.type g.type r)
    (hs : s.WellFormed) (hf : ∀ f ∈ fields, s.Knows f.type)
    (ho : ∀ g ∈ others, s.Knows g.type) : ∃ r, JoinedInTurn R others s fields r := by
  induction fields generalizing s with
  | nil => exact ⟨_, .nil s⟩
  | cons f fields ih =>
    obtain ⟨hhead, hrest⟩ := List.forall_mem_cons.mp hf
    have ih' := fun s => @ih s fun hs hf => hjoin hs (List.mem_cons_of_mem _ hf)
    cases hother : Field.named? others f.name with
    | none =>
      obtain ⟨r, hr⟩ := ih' s hs hrest ho
      exact ⟨_, .lacking hother hr⟩
    | some g =>
      obtain ⟨joined, hjoined, hj⟩ :=
        hjoin hs List.mem_cons_self hhead (ho g (Field.mem_of_named? hother))
      obtain ⟨r, hr⟩ := ih' joined.2 hj.wellFormed (fun h hh => hj.extended.knows (hrest h hh))
        fun h hh => hj.extended.knows (ho h hh)
      exact ⟨_, .shared hother hjoined hr⟩

theorem named?_onlyIn (n : NameId) :
    Field.named? (onlyIn others fields) n =
      if (Field.named? fields n).isSome then none
      else (Field.named? others n).map fun f => { f with optional := true } := by
  unfold onlyIn Field.named?
  rw [List.find?_map, List.find?_filter]
  split
  · rename_i hsome
    simp only [Option.map_eq_none_iff, List.find?_eq_none]
    intro g hg hboth
    obtain ⟨f, hf⟩ := Option.isSome_iff_exists.mp hsome
    have hmem := List.mem_of_find?_eq_some hf
    have hname := List.find?_some hf
    simp only [Function.comp, Bool.not_eq_true', List.any_eq_false,
      decide_eq_true_eq] at hboth hname
    exact hboth.1 f hmem (hname.trans hboth.2.symm)
  · rename_i hnone
    simp only [Bool.not_eq_true, Option.isSome_eq_false_iff, Option.isNone_iff_eq_none,
      List.find?_eq_none, decide_eq_true_eq] at hnone
    congr 2
    funext g
    by_cases hgn : g.name = n
    · subst hgn
      simpa using hnone
    · simp [hgn]

theorem names_onlyIn : (onlyIn others fields).map (·.name) =
    (others.map (·.name)).filter fun n => !fields.any (·.name = n) := by
  simp [onlyIn, List.filter_map, Function.comp_def]

/-- Joined fields followed by those that only the second record has: the join of two records. -/
theorem JoinsFields.recordTree_eq {r : List Field × Schema} (hs : s.WellFormed)
    (ho : ∀ g ∈ others, s.Knows g.type) (h : s.JoinsFields fields others r) :
    r.2.recordTree (r.1 ++ onlyIn others fields) = s.recordTree fields ⊔ s.recordTree others := by
  have happend : ∀ n, Field.named? (r.1 ++ onlyIn others fields) n =
      (Field.named? r.1 n).or (Field.named? (onlyIn others fields) n) := by
    intro n
    simp [Field.named?]
  have hnone : ∀ n, Field.named? r.1 n = none ↔ Field.named? fields n = none := by
    intro n
    rw [Field.named?_eq_none_iff, Field.named?_eq_none_iff, h.names]
  rw [TypeTree.sup_def]
  simp only [recordTree, TypeTree.join, TypeTree.record.injEq]
  constructor <;> funext n <;> rw [happend, named?_onlyIn] <;> cases hf : Field.named? fields n
  · rw [(hnone n).mpr hf]
    cases Field.named? others n with
    | none => rfl
    | some g => cases hg : g.optional <;> simp [Presence.ofField?, Presence.join, hg]
  · rename_i f
    obtain ⟨g, hg⟩ := Option.ne_none_iff_exists'.mp (mt (hnone n).mp (by simp [hf]))
    have hp := h.presence n f hf
    rw [hg] at hp ⊢
    exact hp
  · rw [(hnone n).mpr hf]
    have hkeep := treeOf?_of_extends hs h.wellFormed h.extended ho n
    cases hg : Field.named? others n with
    | none => rfl
    | some g =>
      rw [hg] at hkeep
      simpa [treeOf?, TypeTree.null_join] using hkeep
  · rename_i f
    obtain ⟨g, hg⟩ := Option.ne_none_iff_exists'.mp (mt (hnone n).mp (by simp [hf]))
    have ht := h.tree_eq n f hf
    rw [hg] at ht ⊢
    exact ht

/-! ## The union -/

theorem admits_array (h : s.Knows a) : s.Admits (.array a) := ⟨by simpa [Composite.parts], .nil⟩

/-- The fields of the union of two records make a type that may be registered. -/
theorem JoinsFields.admits {r : List Field × Schema} (h : s.JoinsFields fields others r)
    (hf : (fields.map (·.name)).Nodup) (ho : (others.map (·.name)).Nodup)
    (hk : ∀ g ∈ others, s.Knows g.type) : r.2.Admits (.record (r.1 ++ onlyIn others fields)) where
  parts part hpart := by
    simp only [Composite.parts, List.map_append, List.mem_append, List.mem_map] at hpart
    rcases hpart with ⟨f, hmem, rfl⟩ | ⟨f, hmem, rfl⟩
    · exact h.knows f hmem
    · simp only [onlyIn, List.mem_map, List.mem_filter] at hmem
      obtain ⟨g, ⟨hg, -⟩, rfl⟩ := hmem
      exact h.extended.knows (hk g hg)
  names := by
    simp only [Composite.names, List.map_append, names_onlyIn, h.names]
    refine hf.append (ho.filter _) fun n hn hn' => ?_
    obtain ⟨f, hmem, rfl⟩ := List.mem_map.mp hn
    have hnone := (List.mem_filter.mp hn').2
    simp only [Bool.not_eq_true', List.any_eq_false, decide_eq_true_eq] at hnone
    exact hnone f hmem rfl

theorem joins_of_tree_eq (hs : s.WellFormed) (hid : s.Knows id)
    (h : s.tree id = (s.tree a).join (s.tree b)) : s.Joins a b (id, s) := ⟨hs, .refl s, hid, h⟩

theorem Joins.array {element : TypeId × Schema} {p q : TypeId} (hs : s.WellFormed)
    (ha : s.get? a = some (.composite (.array p))) (hb : s.get? b = some (.composite (.array q)))
    (h : s.Joins p q element) : s.Joins a b (element.2.array element.1) := by
  have hc := admits_array h.knows
  have hr : element.2.Registers _ (element.2.array element.1) :=
    registers_register h.wellFormed hc
  refine ⟨hr.wellFormed, h.extended.trans hr.extended, hr.knows, ?_⟩
  rw [hr.tree_eq h.wellFormed hc, tree_array hs ha, tree_array hs hb, compositeTree, h.tree_eq]
  rfl

theorem JoinsFields.record {r : List Field × Schema} (hs : s.WellFormed)
    (ha : s.get? a = some (.composite (.record fields)))
    (hb : s.get? b = some (.composite (.record others))) (h : s.JoinsFields fields others r) :
    s.Joins a b (r.2.record (r.1 ++ onlyIn others fields)) := by
  have hk := hs.knows_field hb
  have hc := h.admits (hs.names_nodup ha) (hs.names_nodup hb) hk
  have hr : r.2.Registers _ (r.2.record (r.1 ++ onlyIn others fields)) :=
    registers_register h.wellFormed hc
  refine ⟨hr.wellFormed, h.extended.trans hr.extended, hr.knows, ?_⟩
  rw [hr.tree_eq h.wellFormed hc, tree_record hs ha, tree_record hs hb]
  exact h.recordTree_eq hs hk

/-- The join of two types is any if neither is null, they are different, and they are not an integer
and a real, two arrays or two records. -/
theorem joins_any (hs : s.WellFormed) (ha : s.Knows a) (hb : s.Knows b) (hne : a ≠ b)
    (hna : a ≠ .null) (hnb : b ≠ .null)
    (hir : s.get? a = some .integer → s.get? b = some .real → False)
    (hri : s.get? a = some .real → s.get? b = some .integer → False)
    (haa : ∀ p q, s.get? a = some (.composite (.array p)) →
      s.get? b = some (.composite (.array q)) → False)
    (hrr : ∀ fs gs, s.get? a = some (.composite (.record fs)) →
      s.get? b = some (.composite (.record gs)) → False) : s.Joins a b (.any, s) := by
  refine joins_of_tree_eq hs (knows_of_get? get?_any) ?_
  obtain ⟨typeA, hA⟩ := exists_get? ha
  obtain ⟨typeB, hB⟩ := exists_get? hb
  have hsame : typeA ≠ typeB := fun heq => hne (tree_injective hs ha hb
    ((tree_eq_typeTree hs hA).trans (heq ▸ (tree_eq_typeTree hs hB).symm)))
  have hnull : typeA ≠ .null := fun heq => hna ((get?_primitive_iff s a).1.mp (heq ▸ hA))
  have hnull' : typeB ≠ .null := fun heq => hnb ((get?_primitive_iff s b).1.mp (heq ▸ hB))
  rw [tree_eq_typeTree hs hA, tree_eq_typeTree hs hB, tree_any]
  cases typeA with
  | null => exact absurd rfl hnull
  | composite c =>
    cases typeB with
    | null => exact absurd rfl hnull'
    | composite d =>
      cases c with
      | array p =>
        cases d with
        | array q => exact (haa p q hA hB).elim
        | record gs => rfl
      | record fs =>
        cases d with
        | array q => rfl
        | record gs => exact (hrr fs gs hA hB).elim
    | _ => cases c <;> rfl
  | _ =>
    cases typeB with
    | null => exact absurd rfl hnull'
    | composite d => cases d <;> rfl
    | _ =>
      first
      | rfl
      | exact absurd rfl hsame
      | exact (hir hA hB).elim
      | exact (hri hA hB).elim

/-- **The union has a result** that stands for the join. The recursion goes to parts of the first
type, so it ends within any bound above its number. -/
theorem joins_unionWithin {depth : Nat} (hs : s.WellFormed) (ha : s.Knows a) (hb : s.Knows b)
    (hdepth : a.index < depth) : ∃ r, unionWithin depth s a b = some r ∧ s.Joins a b r := by
  induction depth generalizing s a b with
  | zero => omega
  | succ depth ih =>
    have hreal : s.Knows .real := knows_of_get? get?_real
    unfold unionWithin
    split
    · rename_i h
      subst h
      exact ⟨_, rfl, joins_of_tree_eq hs ha (TypeTree.join_self _).symm⟩
    split
    · rename_i h
      subst h
      exact ⟨_, rfl, joins_of_tree_eq hs hb (by rw [tree_null, TypeTree.null_join])⟩
    split
    · rename_i h
      subst h
      exact ⟨_, rfl, joins_of_tree_eq hs ha (by rw [tree_null, TypeTree.join_null])⟩
    split
    · rename_i h
      refine ⟨_, rfl, joins_of_tree_eq hs (knows_of_get? get?_any) ?_⟩
      rcases h with rfl | rfl
      · rw [tree_any, TypeTree.join_comm, TypeTree.join_any]
      · rw [tree_any, TypeTree.join_any]
    rename_i hne hna hnb hnn
    split
    · rename_i hA hB
      refine ⟨_, rfl, joins_of_tree_eq hs hreal ?_⟩
      rw [tree_eq_typeTree hs hA, tree_eq_typeTree hs hB, tree_real]
      rfl
    · rename_i hA hB
      refine ⟨_, rfl, joins_of_tree_eq hs hreal ?_⟩
      rw [tree_eq_typeTree hs hA, tree_eq_typeTree hs hB, tree_real]
      rfl
    · rename_i p q hA hB
      have hlt := hs.element_lt hA
      obtain ⟨element, helement, hj⟩ :=
        ih hs (hs.knows_element hA) (hs.knows_element hB) (by omega)
      exact ⟨_, by rw [helement]; rfl, Joins.array hs hA hB hj⟩
    · rename_i fs gs hA hB
      have hlt := hs.field_lt hA
      have hjoin : ∀ {s : Schema} {f g : Field}, s.WellFormed → f ∈ fs → s.Knows f.type →
          s.Knows g.type → ∃ r, unionWithin depth s f.type g.type = some r ∧
            s.Joins f.type g.type r :=
        fun hs' hf hkf hkg => ih hs' hkf hkg (by have := hlt _ hf; omega)
      obtain ⟨joined, hjoined⟩ := exists_joinedInTurn
        (R := fun s a b r => unionWithin depth s a b = some r) hjoin hs (hs.knows_field hA)
        (hs.knows_field hB)
      have hj := hjoined.joinsFields (fun hs' hf hkf hkg hr => by
        obtain ⟨r, hr', hj⟩ := hjoin hs' hf hkf hkg
        cases hr'.symm.trans hr
        exact hj) hs (hs.knows_field hA) (hs.knows_field hB)
      exact ⟨_, by rw [joinFields_eq_some_iff.mpr hjoined]; rfl, JoinsFields.record hs hA hB hj⟩
    · rename_i hir hri haa hrr
      exact ⟨_, rfl, joins_any hs ha hb hne hna hnb hir hri haa hrr⟩

/-- **The union is what any high enough bound gives.** -/
theorem unionWithin_size (hs : s.WellFormed) (ha : s.Knows a) (hb : s.Knows b) :
    unionWithin s.size s a b = some (s.union a b) := by
  obtain ⟨r, hr, -⟩ := joins_unionWithin hs ha hb ha
  rw [union, hr, Option.getD_some]

theorem joins_of_unionWithin {depth : Nat} {r : TypeId × Schema}
    (h : unionWithin depth s a b = some r) (hs : s.WellFormed) (ha : s.Knows a) (hb : s.Knows b)
    (hdepth : a.index < depth) : s.Joins a b r := by
  obtain ⟨r', hr', hj⟩ := joins_unionWithin hs ha hb hdepth
  cases hr'.symm.trans h
  exact hj

/-- **The union stands for the join.** -/
theorem joins_union (hs : s.WellFormed) (ha : s.Knows a) (hb : s.Knows b) :
    s.Joins a b (s.union a b) := joins_of_unionWithin (unionWithin_size hs ha hb) hs ha hb ha

/-! ## The union of many -/

/-- What the union of many types gives: a known type of a well-formed extension, the least one that
covers `type` and all of them. -/
structure JoinsAll (s : Schema) (type : TypeId) (ids : List TypeId) (r : TypeId × Schema) :
    Prop where
  wellFormed : r.2.WellFormed
  extended : s.Extends r.2
  knows : r.2.Knows r.1
  le_iff : ∀ u, r.2.tree r.1 ≤ u ↔ s.tree type ≤ u ∧ ∀ id ∈ ids, s.tree id ≤ u

theorem joinsAll_foldl {ids : List TypeId} {type : TypeId} (hs : s.WellFormed)
    (htype : s.Knows type) (hids : ∀ id ∈ ids, s.Knows id) :
    s.JoinsAll type ids (ids.foldl (fun (type, s) id => s.union type id) (type, s)) := by
  induction ids generalizing s type with
  | nil => exact ⟨hs, .refl s, htype, by simp⟩
  | cons id ids ih =>
    obtain ⟨hid, hids⟩ := List.forall_mem_cons.mp hids
    have hj := joins_union hs htype hid
    have hrest := ih hj.wellFormed hj.knows fun id hmem => hj.extended.knows (hids id hmem)
    refine ⟨hrest.wellFormed, hj.extended.trans hrest.extended, hrest.knows, ?_⟩
    intro u
    have hkeep : ∀ other ∈ ids, (s.union type id).2.tree other = s.tree other := fun other hmem =>
      tree_of_extends hs hj.wellFormed hj.extended (hids other hmem)
    rw [List.foldl_cons, hrest.le_iff, hj.tree_eq, sup_le_iff, List.forall_mem_cons, and_assoc]
    refine and_congr_right' (and_congr_right' (forall₂_congr fun other hmem => ?_))
    rw [hkeep other hmem]

/-- The union of some types is the least type that covers them. -/
theorem joinsAll_unionAll {ids : List TypeId} (hs : s.WellFormed)
    (hids : ∀ id ∈ ids, s.Knows id) : s.JoinsAll .null ids (s.unionAll ids) :=
  joinsAll_foldl hs knows_null hids

/-! ## One level of a union -/

/-- What one level of a union does, whatever the bound on its recursion and in any schema that has
the same two types: it comes to one of these types or to one that every schema has, and registers
nothing; or it joins the parts of two arrays or of two records and registers what they make. -/
inductive UnionStep (s : Schema) (a b : TypeId) : Prop where
  | settled (c : TypeId) : c = a ∨ c = b ∨ c.isPrimitive → (∀ (depth : Nat) (t : Schema),
      t.get? a = s.get? a → t.get? b = s.get? b → unionWithin (depth + 1) t a b = some (c, t)) →
      UnionStep s a b
  | arrays (p q : TypeId) : s.get? a = some (.composite (.array p)) →
      s.get? b = some (.composite (.array q)) → (∀ (depth : Nat) (t : Schema),
        t.get? a = s.get? a → t.get? b = s.get? b → unionWithin (depth + 1) t a b =
          (unionWithin depth t p q).map fun r => r.2.array r.1) → UnionStep s a b
  | records (fs gs : List Field) : s.get? a = some (.composite (.record fs)) →
      s.get? b = some (.composite (.record gs)) → (∀ (depth : Nat) (t : Schema),
        t.get? a = s.get? a → t.get? b = s.get? b → unionWithin (depth + 1) t a b =
          (joinFields (unionWithin depth) gs t fs).map fun r => r.2.record (r.1 ++ onlyIn gs fs)) →
      UnionStep s a b

theorem unionStep (s : Schema) (a b : TypeId) : s.UnionStep a b := by
  by_cases hab : a = b
  · exact .settled a (.inl rfl) fun depth t _ _ => by rw [unionWithin, if_pos hab]
  by_cases hna : a = .null
  · exact .settled b (.inr (.inl rfl)) fun depth t _ _ => by
      rw [unionWithin, if_neg hab, if_pos hna]
  by_cases hnb : b = .null
  · exact .settled a (.inl rfl) fun depth t _ _ => by
      rw [unionWithin, if_neg hab, if_neg hna, if_pos hnb]
  by_cases hany : a = .any ∨ b = .any
  · exact .settled .any (.inr (.inr rfl)) fun depth t _ _ => by
      rw [unionWithin, if_neg hab, if_neg hna, if_neg hnb, if_pos hany]
  by_cases harrays : ∃ p q, s.get? a = some (.composite (.array p)) ∧
      s.get? b = some (.composite (.array q))
  · obtain ⟨p, q, hA, hB⟩ := harrays
    refine .arrays p q hA hB fun depth t ha hb => ?_
    simp only [unionWithin, if_neg hab, if_neg hna, if_neg hnb, if_neg hany, ha, hb, hA, hB]
    rw [Option.map_eq_bind]
    rfl
  by_cases hrecords : ∃ fs gs, s.get? a = some (.composite (.record fs)) ∧
      s.get? b = some (.composite (.record gs))
  · obtain ⟨fs, gs, hA, hB⟩ := hrecords
    refine .records fs gs hA hB fun depth t ha hb => ?_
    simp only [unionWithin, if_neg hab, if_neg hna, if_neg hnb, if_neg hany, ha, hb, hA, hB]
    rw [Option.map_eq_bind]
    rfl
  -- No parts to join: the answer is real or any, whatever the schema holds besides.
  by_cases hreal : s.get? a = some .integer ∧ s.get? b = some .real ∨
      s.get? a = some .real ∧ s.get? b = some .integer
  · refine .settled .real (.inr (.inr rfl)) fun depth t ha hb => ?_
    rw [unionWithin, if_neg hab, if_neg hna, if_neg hnb, if_neg hany, ha, hb]
    rcases hreal with ⟨hA, hB⟩ | ⟨hA, hB⟩ <;> rw [hA, hB]
  · refine .settled .any (.inr (.inr rfl)) fun depth t ha hb => ?_
    rw [unionWithin, if_neg hab, if_neg hna, if_neg hnb, if_neg hany, ha, hb]
    split
    · rename_i hA hB
      exact absurd (.inl ⟨hA, hB⟩) hreal
    · rename_i hA hB
      exact absurd (.inr ⟨hA, hB⟩) hreal
    · rename_i p q hA hB
      exact absurd ⟨p, q, hA, hB⟩ harrays
    · rename_i fs gs hA hB
      exact absurd ⟨fs, gs, hA, hB⟩ hrecords
    · rfl

/-! ## The bound on the recursion -/

theorem JoinedInTurn.imp {R R' : Schema → TypeId → TypeId → TypeId × Schema → Prop}
    {r : List Field × Schema} (h : JoinedInTurn R others s fields r)
    (himp : ∀ s a b r, R s a b r → R' s a b r) : JoinedInTurn R' others s fields r := by
  induction h with
  | nil s => exact .nil s
  | lacking hlack _ ih => exact .lacking hlack ih
  | shared hfound hjoined _ ih => exact .shared hfound (himp _ _ _ _ hjoined) ih

/-- A result stays what it is when the bound is raised. -/
theorem unionWithin_mono {depth depth' : Nat} {r : TypeId × Schema} (hle : depth ≤ depth')
    (h : unionWithin depth s a b = some r) : unionWithin depth' s a b = some r := by
  induction depth generalizing depth' s a b r with
  | zero => cases h
  | succ depth ih =>
    obtain ⟨depth', rfl⟩ : ∃ d, depth' = d + 1 := Nat.exists_eq_add_one.mpr (by omega)
    have hle' : depth ≤ depth' := by omega
    cases s.unionStep a b with
    | settled c _ hstep => rw [hstep depth' s rfl rfl, ← hstep depth s rfl rfl, h]
    | arrays p q _ _ hstep =>
      rw [hstep depth s rfl rfl] at h
      obtain ⟨element, helement, hr⟩ := Option.map_eq_some_iff.mp h
      rw [hstep depth' s rfl rfl, ih hle' helement, Option.map_some, hr]
    | records fs gs _ _ hstep =>
      rw [hstep depth s rfl rfl] at h
      obtain ⟨joined, hjoined, hr⟩ := Option.map_eq_some_iff.mp h
      have hturn := (joinFields_eq_some_iff.mp hjoined).imp fun _ _ _ _ => ih hle'
      rw [hstep depth' s rfl rfl, joinFields_eq_some_iff.mpr hturn, Option.map_some, hr]

/-- **The recursion ends by itself**: whatever the bound, from the number of types on, there is a
result, and always the same one. -/
theorem unionWithin_eq_union {depth : Nat} (hs : s.WellFormed) (ha : s.Knows a) (hb : s.Knows b)
    (hd : s.size ≤ depth) : unionWithin depth s a b = some (s.union a b) :=
  unionWithin_mono hd (unionWithin_size hs ha hb)

/-- A union is the result within some bound, or no recursion ended and the answer is any. -/
theorem union_cases (s : Schema) (a b : TypeId) :
    unionWithin s.size s a b = some (s.union a b) ∨ s.union a b = (.any, s) := by
  unfold union
  cases unionWithin s.size s a b with
  | none => exact .inr rfl
  | some r => exact .inl rfl

/-! ## Names -/

/-- Joined fields have the names of those that are joined. -/
theorem JoinedInTurn.map_name_eq {R : Schema → TypeId → TypeId → TypeId × Schema → Prop}
    {r : List Field × Schema} (h : JoinedInTurn R others s fields r) :
    r.1.map (·.name) = fields.map (·.name) := by
  induction h with
  | nil => rfl
  | lacking _ _ ih => simp [ih]
  | shared _ _ _ ih => simp [ih]

theorem JoinedInTurn.names_eq {R : Schema → TypeId → TypeId → TypeId × Schema → Prop}
    {r : List Field × Schema} (h : JoinedInTurn R others s fields r)
    (hR : ∀ {s a b r}, R s a b r → r.2.names = s.names) : r.2.names = s.names := by
  induction h with
  | nil => rfl
  | lacking _ _ ih => exact ih
  | shared _ hjoined _ ih => exact ih.trans (hR hjoined)

/-- A union interns nothing. -/
theorem names_unionWithin {depth : Nat} {r : TypeId × Schema}
    (h : unionWithin depth s a b = some r) : r.2.names = s.names := by
  induction depth generalizing s a b r with
  | zero => cases h
  | succ depth ih =>
    cases s.unionStep a b with
    | settled c _ hstep =>
      rw [hstep depth s rfl rfl] at h
      cases h
      rfl
    | arrays p q _ _ hstep =>
      rw [hstep depth s rfl rfl] at h
      obtain ⟨element, helement, rfl⟩ := Option.map_eq_some_iff.mp h
      exact (names_register _ _).trans (ih helement)
    | records fs gs _ _ hstep =>
      rw [hstep depth s rfl rfl] at h
      obtain ⟨joined, hjoined, rfl⟩ := Option.map_eq_some_iff.mp h
      exact (names_register _ _).trans ((joinFields_eq_some_iff.mp hjoined).names_eq ih)

theorem names_union (s : Schema) (a b : TypeId) : (s.union a b).2.names = s.names := by
  rcases s.union_cases a b with h | h
  · exact names_unionWithin h
  · rw [h]

theorem remembers_union (s : Schema) (a b : TypeId) : s.Remembers (s.union a b).2 :=
  remembers_of_names_eq (names_union s a b)

end JsonLines.Schema
