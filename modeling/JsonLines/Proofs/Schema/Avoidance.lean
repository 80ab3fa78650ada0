/-
JsonLines.Proofs.Schema.Avoidance — types that avoid a name, and what holds of all record types.

A union registers record types that no value has shown. They are made of those that it joins
(`Merges`), so a property of records may pass to all of them (`EveryRecord`). Where a name occurs in
no record of two types, at any depth, it occurs in none of their union either, and then only records
without the name have been registered on the way (`union_avoids`). Two records that have the name
themselves, but not in the types of their fields, register one record more (`union_records`).
-/
import JsonLines.Proofs.Schema.UnionLattice
import JsonLines.Proofs.Schema.UnionOrder

namespace JsonLines.Schema

variable {s t : Schema} {a b id : TypeId} {c : Composite} {n : NameId} {fields others : List Field}
  {P : List Field → Prop} {r : TypeId × Schema}

/-! ## All record types of a schema -/

/-- The fields of every record type that is registered have the property. -/
def EveryRecord (P : List Field → Prop) (s : Schema) : Prop :=
  ∀ id fields, s.fields? id = some fields → P fields

theorem everyRecord_empty : empty.EveryRecord P := by
  intro id fields h
  have hget := fields?_eq_some_iff.mp h
  simp [get?_composite_iff, empty] at hget

theorem EveryRecord.register (h : s.EveryRecord P)
    (hc : ∀ fields, c = .record fields → P fields) : (s.register c).2.EveryRecord P := by
  cases hfind : s.find? c with
  | some id =>
    rw [register_of_find?_eq_some hfind]
    exact h
  | none =>
    rw [register_of_find?_eq_none hfind]
    intro id fields hfields
    have hget := fields?_eq_some_iff.mp hfields
    rw [get?_addType] at hget
    split at hget
    · exact hc fields (DataType.composite.inj (Option.some.inj hget))
    · exact h id fields (fields?_eq_some_iff.mpr hget)

theorem EveryRecord.intern (h : s.EveryRecord P) (name : String) :
    (s.intern name).2.EveryRecord P := by
  cases hfind : s.nameId? name with
  | some m =>
    rw [intern_of_nameId?_eq_some hfind]
    exact h
  | none =>
    rw [intern_of_nameId?_eq_none hfind]
    exact h

/-! ## Types without a name -/

/-- The name occurs in no record of the type, be it the type itself or one that it refers to. -/
inductive Avoids (s : Schema) (n : NameId) : TypeId → Prop where
  | primitive {id : TypeId} : id.isPrimitive → Avoids s n id
  | array {id element : TypeId} : s.get? id = some (.composite (.array element)) →
    Avoids s n element → Avoids s n id
  | record {id : TypeId} {fields : List Field} : s.get? id = some (.composite (.record fields)) →
    n ∉ fields.map (·.name) → (∀ f ∈ fields, Avoids s n f.type) → Avoids s n id

theorem Avoids.of_extends (h : s.Avoids n id) (hst : s.Extends t) : t.Avoids n id := by
  induction h with
  | primitive hid => exact .primitive hid
  | array hget _ ih => exact .array (hst.types _ _ hget) ih
  | record hget hn _ ih => exact .record (hst.types _ _ hget) hn ih

theorem not_isPrimitive (h : s.get? id = some (.composite c)) : ¬ id.isPrimitive := by
  have hle := (get?_composite_iff.mp h).1
  rw [TypeId.isPrimitive, decide_eq_true_eq]
  omega

theorem Avoids.knows (h : s.Avoids n id) : s.Knows id := by
  cases h with
  | primitive hid =>
    rw [TypeId.isPrimitive, decide_eq_true_eq] at hid
    exact Nat.lt_of_lt_of_le hid (Nat.le_add_right _ _)
  | array hget _ => exact knows_of_get? hget
  | record hget _ _ => exact knows_of_get? hget

theorem Avoids.of_array {element : TypeId} (h : s.Avoids n id)
    (hget : s.get? id = some (.composite (.array element))) : s.Avoids n element := by
  cases h with
  | primitive hid => exact absurd hid (not_isPrimitive hget)
  | array hget' helement =>
    cases hget.symm.trans hget'
    exact helement
  | record hget' _ _ => cases hget.symm.trans hget'

theorem Avoids.of_record (h : s.Avoids n id)
    (hget : s.get? id = some (.composite (.record fields))) :
    n ∉ fields.map (·.name) ∧ ∀ f ∈ fields, s.Avoids n f.type := by
  cases h with
  | primitive hid => exact absurd hid (not_isPrimitive hget)
  | array hget' _ => cases hget.symm.trans hget'
  | record hget' hn hfields =>
    cases hget.symm.trans hget'
    exact ⟨hn, hfields⟩

/-- A registered type avoids a name as its parts do. -/
theorem Registers.avoids (h : s.Registers c r) (hparts : ∀ part ∈ c.parts, s.Avoids n part)
    (hn : n ∉ c.names) : r.2.Avoids n r.1 := by
  obtain ⟨d, hd, hsame⟩ := h.found
  have hparts' : ∀ part ∈ d.parts, r.2.Avoids n part := fun part hpart =>
    (hparts part (parts_subset_of_same (Composite.same_symm hsame) part hpart)).of_extends
      h.extended
  cases c with
  | array element =>
    rw [Composite.same_array_iff.mp hsame] at hd hparts'
    exact .array hd (hparts' _ List.mem_cons_self)
  | record fields =>
    obtain ⟨gs, rfl, hperm⟩ := Composite.same_record_iff.mp hsame
    exact .record hd (fun hmem => hn ((hperm.map (·.name)).mem_iff.mpr hmem))
      fun f hf => hparts' _ (List.mem_map_of_mem hf)

/-! ## Unions of records -/

/-- The last fields are those of a union of two records: the fields of the first one, then those
that only the second one has. They are all required only if there are none of the second sort and
the first record requires all of its own. -/
structure Merges (fields others merged : List Field) : Prop where
  names : merged.map (·.name) = fields.map (·.name) ++ (onlyIn others fields).map (·.name)
  required : (∀ h ∈ merged, h.optional = false) →
    onlyIn others fields = [] ∧ ∀ f ∈ fields, f.optional = false

theorem onlyIn_self (fields : List Field) : onlyIn fields fields = [] := by
  rw [← List.map_eq_nil_iff (f := (·.name)), names_onlyIn_eq, removeAll_self]

theorem merges_self (fields : List Field) : Merges fields fields fields where
  names := by rw [onlyIn_self, List.map_nil, List.append_nil]
  required hrequired := ⟨onlyIn_self fields, hrequired⟩

theorem JoinedInTurn.required {R : Schema → TypeId → TypeId → TypeId × Schema → Prop}
    {joined : List Field × Schema} (h : JoinedInTurn R others s fields joined)
    (hrequired : ∀ h ∈ joined.1, h.optional = false) : ∀ f ∈ fields, f.optional = false := by
  induction h with
  | nil => simp
  | lacking _ _ _ => cases (List.forall_mem_cons.mp hrequired).1
  | shared _ _ _ ih =>
    obtain ⟨hhead, hrest⟩ := List.forall_mem_cons.mp hrequired
    exact List.forall_mem_cons.mpr ⟨(Bool.or_eq_false_iff.mp hhead).1, ih hrest⟩

theorem JoinedInTurn.merges {R : Schema → TypeId → TypeId → TypeId × Schema → Prop}
    {joined : List Field × Schema} (h : JoinedInTurn R others s fields joined) :
    Merges fields others (joined.1 ++ onlyIn others fields) where
  names := by rw [List.map_append, h.map_name_eq]
  required hrequired := by
    obtain ⟨hjoined, honly⟩ := List.forall_mem_append.mp hrequired
    refine ⟨?_, h.required hjoined⟩
    rw [List.eq_nil_iff_forall_not_mem]
    intro g hg
    have hoptional : g.optional = true := by
      obtain ⟨_, -, rfl⟩ := List.mem_map.mp hg
      rfl
    cases hoptional.symm.trans (honly g hg)

/-- Joining the types of fields that avoid a name. -/
theorem JoinedInTurn.avoids {R : Schema → TypeId → TypeId → TypeId × Schema → Prop}
    {joined : List Field × Schema} (h : JoinedInTurn R others s fields joined)
    (hjoin : ∀ {s : Schema} {f g : Field} {r : TypeId × Schema}, s.WellFormed →
      s.EveryRecord P → f ∈ fields → s.Avoids n f.type → s.Avoids n g.type →
        R s f.type g.type r → s.Joins f.type g.type r ∧ r.2.EveryRecord P ∧ r.2.Avoids n r.1)
    (hs : s.WellFormed) (hP : s.EveryRecord P) (hf : ∀ f ∈ fields, s.Avoids n f.type)
    (ho : ∀ g ∈ others, s.Avoids n g.type) : joined.2.WellFormed ∧ s.Extends joined.2 ∧
      joined.2.EveryRecord P ∧ ∀ f ∈ joined.1, joined.2.Avoids n f.type := by
  induction h with
  | nil s => exact ⟨hs, .refl s, hP, by simp⟩
  | lacking _ _ ih =>
    obtain ⟨hhead, hrest⟩ := List.forall_mem_cons.mp hf
    obtain ⟨hwf, hext, hP', hall⟩ :=
      ih (fun hs hP hf => hjoin hs hP (List.mem_cons_of_mem _ hf)) hs hP hrest ho
    exact ⟨hwf, hext, hP', List.forall_mem_cons.mpr ⟨hhead.of_extends hext, hall⟩⟩
  | shared hfound hjoined _ ih =>
    obtain ⟨hhead, hrest⟩ := List.forall_mem_cons.mp hf
    obtain ⟨hj, hP₁, hhead'⟩ :=
      hjoin hs hP List.mem_cons_self hhead (ho _ (Field.mem_of_named? hfound)) hjoined
    obtain ⟨hwf, hext, hP', hall⟩ :=
      ih (fun hs hP hf => hjoin hs hP (List.mem_cons_of_mem _ hf)) hj.wellFormed hP₁
        (fun f hf => (hrest f hf).of_extends hj.extended)
        (fun g hg => (ho g hg).of_extends hj.extended)
    exact ⟨hwf, hj.extended.trans hext, hP', List.forall_mem_cons.mpr
      ⟨hhead'.of_extends hext, hall⟩⟩

/-- The types of the fields that only the second record has are among its own. -/
theorem exists_of_mem_onlyIn {f : Field} (h : f ∈ onlyIn others fields) :
    ∃ g ∈ others, g.name = f.name ∧ g.type = f.type := by
  obtain ⟨g, hg, rfl⟩ := List.mem_map.mp h
  exact ⟨g, List.mem_of_mem_filter hg, rfl, rfl⟩

/-- The record of two joined records, if the types of all fields avoid a name. -/
theorem JoinedInTurn.registers {depth : Nat} {joined : List Field × Schema}
    (h : JoinedInTurn (fun s a b r => unionWithin depth s a b = some r) others s fields joined)
    (hjoin : ∀ {s : Schema} {a b : TypeId} {r : TypeId × Schema}, s.WellFormed →
      s.EveryRecord P → s.Avoids n a → s.Avoids n b → a.index < depth →
        unionWithin depth s a b = some r → r.2.EveryRecord P ∧ r.2.Avoids n r.1)
    (hs : s.WellFormed) (hP : s.EveryRecord P) (hA : s.get? a = some (.composite (.record fields)))
    (hB : s.get? b = some (.composite (.record others))) (hdepth : a.index < depth + 1)
    (hf : ∀ f ∈ fields, s.Avoids n f.type) (ho : ∀ g ∈ others, s.Avoids n g.type) :
    let merged := joined.1 ++ onlyIn others fields
    joined.2.Registers (.record merged) (joined.2.record merged) ∧ joined.2.EveryRecord P ∧
      ∀ f ∈ merged, joined.2.Avoids n f.type := by
  have hlt := hs.field_lt hA
  have hj := h.joinsFields (joins_fieldTypes hs hA hdepth) hs (hs.knows_field hA)
    (hs.knows_field hB)
  obtain ⟨-, -, hP', hall⟩ := h.avoids (fun hs' hP hf hkf hkg hr =>
    ⟨joins_fieldTypes hs hA hdepth hs' hf hkf.knows hkg.knows hr,
      hjoin hs' hP hkf hkg (by have := hlt _ hf; omega) hr⟩) hs hP hf ho
  refine ⟨registers_register hj.wellFormed (hj.admits (hs.names_nodup hA) (hs.names_nodup hB)
    (hs.knows_field hB)), hP', fun f hmem => ?_⟩
  rcases List.mem_append.mp hmem with hmem | hmem
  · exact hall f hmem
  · obtain ⟨g, hg, -, htype⟩ := exists_of_mem_onlyIn hmem
    exact htype ▸ (ho g hg).of_extends hj.extended

theorem Merges.not_mem {merged : List Field} (h : Merges fields others merged)
    (hf : n ∉ fields.map (·.name)) (ho : n ∉ others.map (·.name)) :
    n ∉ merged.map (·.name) := by
  rw [h.names, List.mem_append, not_or]
  refine ⟨hf, fun hmem => ho ?_⟩
  obtain ⟨f, honly, rfl⟩ := List.mem_map.mp hmem
  obtain ⟨g, hg, hname, -⟩ := exists_of_mem_onlyIn honly
  exact List.mem_map.mpr ⟨g, hg, hname⟩

section

variable (hmerge : ∀ fields others merged, P fields → P others → Merges fields others merged →
  n ∉ merged.map (·.name) → P merged)

include hmerge

/-- A union within a bound of types that avoid a name. -/
theorem unionWithin_avoids {depth : Nat} (hs : s.WellFormed) (hP : s.EveryRecord P)
    (ha : s.Avoids n a) (hb : s.Avoids n b) (hdepth : a.index < depth)
    (h : unionWithin depth s a b = some r) : r.2.EveryRecord P ∧ r.2.Avoids n r.1 := by
  induction depth generalizing s a b r with
  | zero => omega
  | succ depth ih =>
    cases s.unionStep a b with
    | settled c hc hstep =>
      rw [hstep depth s rfl rfl] at h
      cases h
      rcases hc with rfl | rfl | hc
      · exact ⟨hP, ha⟩
      · exact ⟨hP, hb⟩
      · exact ⟨hP, .primitive hc⟩
    | arrays p q hA hB hstep =>
      have hlt := hs.element_lt hA
      rw [hstep depth s rfl rfl] at h
      obtain ⟨element, helement, rfl⟩ := Option.map_eq_some_iff.mp h
      obtain ⟨hP', havoids⟩ := ih hs hP (ha.of_array hA) (hb.of_array hB) (by omega) helement
      have hj : s.Joins p q element := joins_of_unionWithin helement hs (hs.knows_element hA)
        (hs.knows_element hB) (by omega)
      have hr : element.2.Registers (.array element.1) (element.2.array element.1) :=
        registers_register hj.wellFormed (admits_array hj.knows)
      exact ⟨hP'.register (by simp), hr.avoids (by simpa [Composite.parts]) (by
        simp [Composite.names])⟩
    | records fs gs hA hB hstep =>
      obtain ⟨hnA, hfA⟩ := ha.of_record hA
      obtain ⟨hnB, hfB⟩ := hb.of_record hB
      rw [hstep depth s rfl rfl] at h
      obtain ⟨joined, hjoined, rfl⟩ := Option.map_eq_some_iff.mp h
      have hturn := joinFields_eq_some_iff.mp hjoined
      obtain ⟨hr, hP', hall⟩ := hturn.registers ih hs hP hA hB hdepth hfA hfB
      have hn := hturn.merges.not_mem hnA hnB
      refine ⟨hP'.register fun _ heq => ?_, hr.avoids (List.forall_mem_map.mpr hall) hn⟩
      cases heq
      exact hmerge fs gs _ (hP _ _ (fields?_eq_some_iff.mpr hA))
        (hP _ _ (fields?_eq_some_iff.mpr hB)) hturn.merges hn

/-- **A union of types that avoid a name** avoids it, and so do all records that are registered on
the way. -/
theorem union_avoids (hs : s.WellFormed) (hP : s.EveryRecord P) (ha : s.Avoids n a)
    (hb : s.Avoids n b) :
    (s.union a b).2.EveryRecord P ∧ (s.union a b).2.Avoids n (s.union a b).1 :=
  unionWithin_avoids hmerge hs hP ha hb ha.knows (unionWithin_size hs ha.knows hb.knows)

/-- **A union of two records** whose fields avoid a name in their types registers a record of the
fields of both, if it is new, and no other record that has the name. -/
theorem union_records (hs : s.WellFormed) (hP : s.EveryRecord P)
    (hA : s.get? a = some (.composite (.record fields)))
    (hB : s.get? b = some (.composite (.record others)))
    (hf : ∀ f ∈ fields, s.Avoids n f.type) (ho : ∀ g ∈ others, s.Avoids n g.type) :
    ∃ merged found, Merges fields others merged ∧ merged.Perm found ∧
      (s.union a b).2.get? (s.union a b).1 = some (.composite (.record found)) ∧
        (∀ f ∈ found, (s.union a b).2.Avoids n f.type) ∧
          (P merged → (s.union a b).2.EveryRecord P) := by
  have hrun := unionWithin_size hs (knows_of_get? hA) (knows_of_get? hB)
  obtain ⟨depth, hdepth⟩ : ∃ depth, s.size = depth + 1 :=
    Nat.exists_eq_add_one.mpr (Nat.lt_of_le_of_lt (Nat.zero_le _) (knows_of_get? hA))
  have hlt : a.index < depth + 1 := hdepth ▸ knows_of_get? hA
  by_cases hab : a = b
  · subst hab
    cases hA.symm.trans hB
    rw [union_self]
    exact ⟨fields, fields, merges_self fields, .refl _, hA, hf, fun _ => hP⟩
  · have hnull : ∀ {id fs}, s.get? id = some (.composite (.record fs)) →
        id ≠ .null ∧ id ≠ .any := by
      rintro id fs hget
      constructor <;> rintro rfl <;> cases hget
    rw [hdepth, unionWithin, if_neg hab, if_neg (hnull hA).1, if_neg (hnull hB).1,
      if_neg (not_or.mpr ⟨(hnull hA).2, (hnull hB).2⟩), hA, hB] at hrun
    obtain ⟨joined, hjoined, hr⟩ := Option.bind_eq_some_iff.mp hrun
    have hturn := joinFields_eq_some_iff.mp hjoined
    obtain ⟨hregisters, hP', hall⟩ := hturn.registers
      (fun hs hP ha hb hdepth h => unionWithin_avoids hmerge hs hP ha hb hdepth h) hs hP hA hB hlt
      hf ho
    rw [← Option.some.inj hr]
    obtain ⟨d, hd, hsame⟩ := hregisters.found
    obtain ⟨found, rfl, hperm⟩ := Composite.same_record_iff.mp hsame
    refine ⟨_, found, hturn.merges, hperm, hd, fun f hmem => ?_, fun hmerged => ?_⟩
    · exact (hall f (hperm.mem_iff.mpr hmem)).of_extends hregisters.extended
    · refine hP'.register fun _ heq => ?_
      cases heq
      exact hmerged

end

end JsonLines.Schema
