/-
JsonLines.Proofs.Schema.UnionOrder — the order of the fields of a union.

A union keeps the fields of the first record where they are and puts those that only the second one
has behind them (`ListsUnion`). That is so when the record type is new. If it is registered already,
it is found with its fields in the order of that time, whatever order the two records have. A union
registers the parts of its type before the type itself, so a type that is found was there before the
union began (`register_cases`).
-/
import JsonLines.Proofs.Schema.Rendering

namespace JsonLines

/-! ## Lists without some of their entries -/

section

variable {α β : Type} [BEq α] [LawfulBEq α] [BEq β] [LawfulBEq β]

theorem removeAll_self (l : List α) : l.removeAll l = [] := by
  simp [List.removeAll]

theorem removeAll_perm {as as' bs bs' : List α} (has : as.Perm as') (hbs : bs.Perm bs') :
    (bs.removeAll as).Perm (bs'.removeAll as') := by
  have heq : bs'.removeAll as' = bs'.removeAll as := by
    refine List.filter_congr fun b _ => congrArg _ ?_
    rw [Bool.eq_iff_iff, List.elem_iff, List.elem_iff, has.mem_iff]
  rw [heq]
  exact hbs.filter _

theorem map_removeAll {f : α → β} {as bs : List α}
    (h : ∀ b ∈ bs, ∀ a ∈ as, f a = f b → a = b) :
    (bs.removeAll as).map f = (bs.map f).removeAll (as.map f) := by
  rw [List.removeAll, List.removeAll, List.filter_map]
  refine congrArg _ (List.filter_congr fun b hb => congrArg _ ?_)
  rw [Bool.eq_iff_iff, List.elem_iff, List.elem_iff, List.mem_map]
  constructor
  · exact fun hmem => ⟨b, hmem, rfl⟩
  · rintro ⟨a, ha, heq⟩
    exact h b hb a ha heq ▸ ha

end

namespace Schema

variable {s t u : Schema} {a b id : TypeId} {c : Composite} {fields others : List Field}

/-! ## Fields in their order -/

/-- The names of the fields of a record type, in the order of the fields. Other types have none. -/
def fieldIds (s : Schema) (id : TypeId) : List NameId := ((s.fields? id).getD []).map (·.name)

theorem fieldIds_of_fields? (h : s.fields? id = some fields) :
    s.fieldIds id = fields.map (·.name) := by
  rw [fieldIds, h, Option.getD_some]

@[simp] theorem fields?_null : s.fields? .null = none := rfl

@[simp] theorem fieldIds_null : s.fieldIds .null = [] := rfl

/-- The type is a record or null: all that a union can make a record of. -/
def Listed (s : Schema) (id : TypeId) : Prop := id = .null ∨ ∃ fields, s.fields? id = some fields

theorem listed_of_fields? (h : s.fields? id = some fields) : s.Listed id := .inr ⟨fields, h⟩

theorem not_listed {type : DataType} (hget : s.get? id = some type) (hnull : type ≠ .null)
    (hrecord : ∀ fields, type ≠ .composite (.record fields)) : ¬ s.Listed id := by
  rintro (rfl | ⟨fields, hfields⟩)
  · exact hnull (Option.some.inj (hget.symm.trans get?_null))
  · exact hrecord fields (Option.some.inj (hget.symm.trans (fields?_eq_some_iff.mp hfields)))

theorem not_listed_array {element : TypeId} (h : s.get? id = some (.composite (.array element))) :
    ¬ s.Listed id :=
  not_listed h (by simp) (by simp)

/-! ## What is registered last -/

/-- All that the second schema has more than the first one stands at one of the types or before. -/
def EndsAt (s t : Schema) (ids : List TypeId) : Prop :=
  t.size ≤ s.size ∨ ∃ id ∈ ids, t.size ≤ id.index + 1

theorem size_addType (hnew : s.find? c = none) : (s.addType c hnew).size = s.size + 1 := by
  simp only [size, addType, Array.size_push]
  omega

theorem parts_subset_of_same {d : Composite} (h : c.same d) : ∀ part ∈ c.parts, part ∈ d.parts := by
  cases c with
  | array element =>
    rw [Composite.same_array_iff.mp h]
    exact fun _ hpart => hpart
  | record fields =>
    obtain ⟨gs, rfl, hperm⟩ := Composite.same_record_iff.mp h
    exact fun part hpart => (hperm.map (·.type)).mem_iff.mp hpart

/-- A type whose parts were registered last was there before them, or it is new. -/
theorem register_cases (ht : t.WellFormed) (hparts : s.EndsAt t c.parts) :
    t.size ≤ s.size ∧ s.Knows (t.register c).1 ∧ (t.register c).2 = t ∨
      (t.register c).2.get? (t.register c).1 = some (.composite c) ∧
        (t.register c).2.size = (t.register c).1.index + 1 := by
  cases hfind : t.find? c with
  | none =>
    rw [register_of_find?_eq_none hfind]
    refine .inr ⟨?_, size_addType hfind⟩
    rw [get?_addType, if_pos rfl]
  | some id =>
    rw [register_of_find?_eq_some hfind]
    obtain ⟨d, hd, hsame⟩ := find?_eq_some_iff.mp hfind
    have hknown : id.index < t.size := knows_of_get? hd
    rcases hparts with hle | ⟨part, hpart, hle⟩
    · exact .inl ⟨hle, Nat.lt_of_lt_of_le hknown hle, rfl⟩
    · -- Its parts stand before it, so no part of it can be the last type.
      have hlt := ht.parts_lt hd part (parts_subset_of_same hsame part hpart)
      omega

theorem endsAt_register (ht : t.WellFormed) (hparts : s.EndsAt t c.parts) :
    s.EndsAt (t.register c).2 [(t.register c).1] := by
  rcases register_cases ht hparts with ⟨hle, -, heq⟩ | ⟨-, hsize⟩
  · rw [heq]
    exact .inl hle
  · exact .inr ⟨_, List.mem_cons_self, hsize.le⟩

theorem JoinedInTurn.endsAt {R : Schema → TypeId → TypeId → TypeId × Schema → Prop}
    {r : List Field × Schema} (h : JoinedInTurn R others s fields r)
    (hjoin : ∀ {s : Schema} {f g : Field} {r : TypeId × Schema}, s.WellFormed → f ∈ fields →
      s.Knows f.type → s.Knows g.type → R s f.type g.type r →
        s.Joins f.type g.type r ∧ s.EndsAt r.2 [r.1])
    (hs : s.WellFormed) (hf : ∀ f ∈ fields, s.Knows f.type)
    (ho : ∀ g ∈ others, s.Knows g.type) : s.EndsAt r.2 (r.1.map (·.type)) := by
  induction h with
  | nil => exact .inl le_rfl
  | lacking _ _ ih =>
    obtain ⟨-, hrest⟩ := List.forall_mem_cons.mp hf
    rcases ih (fun hs hf => hjoin hs (List.mem_cons_of_mem _ hf)) hs hrest ho with
      hle | ⟨id, hid, hle⟩
    · exact .inl hle
    · exact .inr ⟨id, List.mem_cons_of_mem _ hid, hle⟩
  | shared hfound hjoined _ ih =>
    obtain ⟨hhead, hrest⟩ := List.forall_mem_cons.mp hf
    obtain ⟨hj, hends⟩ :=
      hjoin hs List.mem_cons_self hhead (ho _ (Field.mem_of_named? hfound)) hjoined
    rcases ih (fun hs hf => hjoin hs (List.mem_cons_of_mem _ hf)) hj.wellFormed
      (fun h hh => hj.extended.knows (hrest h hh)) (fun h hh => hj.extended.knows (ho h hh)) with
      hle | ⟨id, hid, hle⟩
    · -- The fields after the first one registered nothing.
      rcases hends with hle' | ⟨id, hid, hle'⟩
      · exact .inl (hle.trans hle')
      · rw [List.mem_singleton.mp hid] at hle'
        exact .inr ⟨_, List.mem_cons_self, hle.trans hle'⟩
    · exact .inr ⟨id, List.mem_cons_of_mem _ hid, hle⟩

/-- Joining the fields of two records registers the types of the joined fields and their parts. -/
theorem endsAt_recordFields {joined : List Field × Schema}
    (h : s.EndsAt joined.2 (joined.1.map (·.type))) :
    s.EndsAt joined.2 (Composite.record (joined.1 ++ onlyIn others fields)).parts := by
  refine h.imp_right ?_
  rintro ⟨id, hid, hle⟩
  exact ⟨id, by simpa [Composite.parts] using .inl (by simpa using hid), hle⟩

/-- The types of a record's fields join to others in any schema. -/
theorem joins_fieldTypes {depth : Nat} (hs : s.WellFormed)
    (ha : s.get? a = some (.composite (.record fields))) (hdepth : a.index < depth + 1)
    {t : Schema} {f g : Field} {r : TypeId × Schema} (ht : t.WellFormed) (hf : f ∈ fields)
    (hkf : t.Knows f.type) (hkg : t.Knows g.type)
    (h : unionWithin depth t f.type g.type = some r) : t.Joins f.type g.type r :=
  joins_of_unionWithin h ht hkf hkg (by have := hs.field_lt ha f hf; omega)

/-- A union is the last type that it registers, if it registers any. -/
theorem endsAt_unionWithin {depth : Nat} {r : TypeId × Schema} (hs : s.WellFormed)
    (ha : s.Knows a) (hb : s.Knows b) (hdepth : a.index < depth)
    (h : unionWithin depth s a b = some r) : s.EndsAt r.2 [r.1] := by
  induction depth generalizing s a b r with
  | zero => omega
  | succ depth ih =>
    cases s.unionStep a b with
    | settled c _ hstep =>
      rw [hstep depth s rfl rfl] at h
      cases h
      exact .inl le_rfl
    | arrays p q hA hB hstep =>
      have hlt := hs.element_lt hA
      have hp := hs.knows_element hA
      have hq := hs.knows_element hB
      rw [hstep depth s rfl rfl] at h
      obtain ⟨element, helement, rfl⟩ := Option.map_eq_some_iff.mp h
      exact endsAt_register (joins_of_unionWithin helement hs hp hq (by omega)).wellFormed
        (ih hs hp hq (by omega) helement)
    | records fs gs hA hB hstep =>
      have hlt := hs.field_lt hA
      rw [hstep depth s rfl rfl] at h
      obtain ⟨joined, hjoined, rfl⟩ := Option.map_eq_some_iff.mp h
      have hturn := joinFields_eq_some_iff.mp hjoined
      have hj := hturn.joinsFields (joins_fieldTypes hs hA hdepth) hs (hs.knows_field hA)
        (hs.knows_field hB)
      have hends := hturn.endsAt (fun hs' hf hkf hkg hr =>
        ⟨joins_fieldTypes hs hA hdepth hs' hf hkf hkg hr,
          ih hs' hkf hkg (by have := hlt _ hf; omega) hr⟩) hs (hs.knows_field hA)
        (hs.knows_field hB)
      exact endsAt_register hj.wellFormed (endsAt_recordFields hends)

/-! ## The fields of a union -/

/-- How a union that is a record or null lists its fields. -/
structure ListsUnion (s : Schema) (a b : TypeId) (r : TypeId × Schema) : Prop where
  left : s.Listed a
  right : s.Listed b
  perm : (r.2.fieldIds r.1).Perm (s.fieldIds a ++ (s.fieldIds b).removeAll (s.fieldIds a))
  /-- If the record type is new, the new fields of the second type follow those of the first. -/
  new : s.fields? r.1 = none →
    r.2.fieldIds r.1 = s.fieldIds a ++ (s.fieldIds b).removeAll (s.fieldIds a)

theorem names_onlyIn_eq : (onlyIn others fields).map (·.name) =
    (others.map (·.name)).removeAll (fields.map (·.name)) := by
  rw [names_onlyIn, List.removeAll]
  refine List.filter_congr fun n _ => congrArg _ ?_
  rw [Bool.eq_iff_iff]
  simp

/-- A union that is one of the two types lists the fields of the first one and no more. -/
theorem listsUnion_of_eq (ha : s.Listed a) (hb : s.Listed b)
    (h : s.fieldIds id = s.fieldIds a ++ (s.fieldIds b).removeAll (s.fieldIds a)) :
    s.ListsUnion a b (id, s) :=
  ⟨ha, hb, .of_eq h, fun _ => h⟩

/-- The union of two records. -/
theorem listsUnion_record {joined : List Field × Schema} (hs : s.WellFormed)
    (ha : s.get? a = some (.composite (.record fields)))
    (hb : s.get? b = some (.composite (.record others)))
    (hjoined : s.JoinsFields fields others joined)
    (hends : s.EndsAt joined.2 (joined.1.map (·.type))) :
    s.ListsUnion a b (joined.2.record (joined.1 ++ onlyIn others fields)) := by
  have hfieldsA := fields?_eq_some_iff.mpr ha
  have hfieldsB := fields?_eq_some_iff.mpr hb
  have hc := hjoined.admits (hs.names_nodup ha) (hs.names_nodup hb) (hs.knows_field hb)
  have hr : joined.2.Registers _ (joined.2.record (joined.1 ++ onlyIn others fields)) :=
    registers_register hjoined.wellFormed hc
  have hnames : (joined.1 ++ onlyIn others fields).map (·.name) =
      s.fieldIds a ++ (s.fieldIds b).removeAll (s.fieldIds a) := by
    rw [fieldIds_of_fields? hfieldsA, fieldIds_of_fields? hfieldsB, List.map_append, hjoined.names,
      names_onlyIn_eq]
  refine ⟨listed_of_fields? hfieldsA, listed_of_fields? hfieldsB, ?_, fun hnew => ?_⟩
  · obtain ⟨d, hd, hsame⟩ := hr.found
    obtain ⟨gs, rfl, hperm⟩ := Composite.same_record_iff.mp hsame
    rw [fieldIds_of_fields? (fields?_eq_some_iff.mpr hd), ← hnames]
    exact (hperm.map (·.name)).symm
  · rcases register_cases hjoined.wellFormed (endsAt_recordFields hends) with
      ⟨-, hknown, -⟩ | ⟨hget, -⟩
    · -- A type that was there before the union is a record, and would have been found as one.
      obtain ⟨type, htype⟩ := exists_get? hknown
      obtain ⟨d, hd, hsame⟩ := hr.found
      obtain ⟨gs, rfl, -⟩ := Composite.same_record_iff.mp hsame
      cases ((hjoined.extended.trans hr.extended).types _ _ htype).symm.trans hd
      cases (fields?_eq_some_iff.mpr htype).symm.trans hnew
    · rw [← hnames]
      exact fieldIds_of_fields? (fields?_eq_some_iff.mpr hget)

/-- **The order of the fields of a union**: those of the first type, then those that only the second
one has, unless the record type was there before. -/
theorem listsUnion (hs : s.WellFormed) (ha : s.Knows a) (hb : s.Knows b)
    (h : (s.union a b).2.Listed (s.union a b).1) : s.ListsUnion a b (s.union a b) := by
  obtain ⟨depth, hdepth⟩ : ∃ depth, s.size = depth + 1 :=
    Nat.exists_eq_add_one.mpr (Nat.lt_of_le_of_lt (Nat.zero_le _) ha)
  have hlt : a.index < depth + 1 := hdepth ▸ ha
  have hrun : unionWithin (depth + 1) s a b = some (s.union a b) :=
    hdepth ▸ unionWithin_size hs ha hb
  revert h
  generalize s.union a b = r at hrun
  intro h
  rw [unionWithin] at hrun
  split at hrun
  · rename_i hab
    cases hrun
    exact listsUnion_of_eq h (hab ▸ h) (by rw [hab, removeAll_self, List.append_nil])
  split at hrun
  · rename_i hnull
    cases hrun
    rw [hnull]
    exact listsUnion_of_eq (.inl rfl) h (by simp)
  split at hrun
  · rename_i hnull
    cases hrun
    rw [hnull]
    exact listsUnion_of_eq h (.inl rfl) (by simp)
  split at hrun
  · cases hrun
    exact absurd h (not_listed get?_any (by simp) (by simp))
  split at hrun
  · cases hrun
    exact absurd h (not_listed get?_real (by simp) (by simp))
  · cases hrun
    exact absurd h (not_listed get?_real (by simp) (by simp))
  · rename_i p q hA hB
    obtain ⟨element, helement, hr⟩ := Option.bind_eq_some_iff.mp hrun
    cases hr
    have hj : s.Joins p q element := joins_of_unionWithin helement hs (hs.knows_element hA)
      (hs.knows_element hB) (by have := hs.element_lt hA; omega)
    have hr := registers_register hj.wellFormed (admits_array hj.knows)
    obtain ⟨d, hd, hsame⟩ := hr.found
    rw [Composite.same_array_iff.mp hsame] at hd
    exact absurd h (not_listed_array hd)
  · rename_i fs gs hA hB
    obtain ⟨joined, hjoined, hr⟩ := Option.bind_eq_some_iff.mp hrun
    cases hr
    have hfields := hs.field_lt hA
    have hturn := joinFields_eq_some_iff.mp hjoined
    have hj := hturn.joinsFields (joins_fieldTypes hs hA hlt) hs (hs.knows_field hA)
      (hs.knows_field hB)
    have hends := hturn.endsAt (fun hs' hf hkf hkg hr =>
      ⟨joins_fieldTypes hs hA hlt hs' hf hkf hkg hr,
        endsAt_unionWithin hs' hkf hkg (by have := hfields _ hf; omega) hr⟩) hs
      (hs.knows_field hA) (hs.knows_field hB)
    exact listsUnion_record hs hA hB hj hends
  · cases hrun
    exact absurd h (not_listed get?_any (by simp) (by simp))

/-! ## The texts of names -/

/-- The names of the fields of a record type as texts, in the order of the fields. -/
def fieldNames (s : Schema) (id : TypeId) : List String := (s.fieldIds id).map s.name

@[simp] theorem fieldNames_null : s.fieldNames .null = [] := rfl

theorem fieldNames_eq_nil (h : s.fields? id = none) : s.fieldNames id = [] := by
  rw [fieldNames, fieldIds, h]
  rfl

/-- The fields of all types have names that are known. -/
theorem FieldsNamed.isSome_name? (hn : s.FieldsNamed) :
    ∀ n ∈ s.fieldIds id, (s.name? n).isSome := by
  unfold fieldIds
  cases hfields : s.fields? id with
  | none => simp
  | some fields => exact hn id _ (fields?_eq_some_iff.mp hfields)

theorem WellFormed.nodup_fieldIds (hs : s.WellFormed) : (s.fieldIds id).Nodup := by
  unfold fieldIds
  cases hfields : s.fields? id with
  | none => exact .nil
  | some fields => exact hs.names_nodup (fields?_eq_some_iff.mp hfields)

/-- Names that are known are told apart by their texts. -/
theorem name_injective {m n : NameId} (hm : (s.name? m).isSome) (hn : (s.name? n).isSome)
    (h : s.name m = s.name n) : m = n := by
  obtain ⟨text, htext⟩ := Option.isSome_iff_exists.mp hm
  obtain ⟨text', htext'⟩ := Option.isSome_iff_exists.mp hn
  rw [name, name, htext, htext'] at h
  cases h
  exact name_inj htext htext'

theorem nodup_fieldNames (hs : s.WellFormed) (hn : s.FieldsNamed) : (s.fieldNames id).Nodup :=
  List.Nodup.map_on (fun _ hm _ hm' =>
    name_injective (hn.isSome_name? _ hm) (hn.isSome_name? _ hm')) hs.nodup_fieldIds

theorem Extends.name_eq {n : NameId} (h : s.Extends t) (hn : (s.name? n).isSome) :
    t.name n = s.name n := by
  obtain ⟨text, htext⟩ := Option.isSome_iff_exists.mp hn
  rw [name, name, htext, h.names n text htext]

/-- A known type lists the same names as the schema grows. -/
theorem Extends.fieldNames_eq (h : s.Extends t) (hn : s.FieldsNamed) (hid : s.Knows id) :
    t.fieldNames id = s.fieldNames id := by
  obtain ⟨type, htype⟩ := exists_get? hid
  have hids : t.fieldIds id = s.fieldIds id := by
    rw [fieldIds, fieldIds, fields?, fields?, htype, h.types _ _ htype]
  rw [fieldNames, fieldNames, hids]
  exact List.map_congr_left fun n hmem => h.name_eq (hn.isSome_name? n hmem)

/-- How a union that is a record or null lists the names of its fields. -/
structure NamesUnion (s : Schema) (a b : TypeId) (r : TypeId × Schema) : Prop where
  perm : (r.2.fieldNames r.1).Perm (s.fieldNames a ++ (s.fieldNames b).removeAll (s.fieldNames a))
  new : s.fields? r.1 = none →
    r.2.fieldNames r.1 = s.fieldNames a ++ (s.fieldNames b).removeAll (s.fieldNames a)

theorem ListsUnion.namesUnion {r : TypeId × Schema} (hn : s.FieldsNamed)
    (hext : s.Extends r.2) (h : s.ListsUnion a b r) : s.NamesUnion a b r := by
  have hmap : (s.fieldIds a ++ (s.fieldIds b).removeAll (s.fieldIds a)).map s.name =
      s.fieldNames a ++ (s.fieldNames b).removeAll (s.fieldNames a) := by
    rw [List.map_append, map_removeAll fun m hm n hn' =>
      name_injective (hn.isSome_name? n hn') (hn.isSome_name? m hm)]
    rfl
  have hnames : r.2.fieldNames r.1 = (r.2.fieldIds r.1).map s.name := by
    refine List.map_congr_left fun n hmem => hext.name_eq ?_
    rcases List.mem_append.mp (h.perm.mem_iff.mp hmem) with hmem | hmem
    · exact hn.isSome_name? n hmem
    · exact hn.isSome_name? n (List.mem_of_mem_filter hmem)
  refine ⟨?_, fun hnew => ?_⟩
  · rw [hnames, ← hmap]
    exact h.perm.map _
  · rw [hnames, h.new hnew, hmap]

end Schema

end JsonLines
