/-
JsonLines.Proofs.Schema.Registration — what registering a name or a type does to a schema.

The indexes of a schema are in step with its tables, so a search gives the one number where a type
or a name stands (`find?_eq_some_iff`, `nameId?_eq_some_iff`), and no two numbers stand for the same
one. A schema is well formed when moreover every composite type refers to types before it and no
record names a field twice. `register` and `intern` keep this, and what a schema knows it keeps at
its number (`Extends`). Nothing here looks at what a type means; that is the next module's matter.
-/
import JsonLines.Schema.Registry
import Mathlib.Data.List.Nodup
import Mathlib.Data.List.Sort

namespace JsonLines

/-! ## Sorted fields -/

namespace Field

variable {f g h : Field} {fs gs : List Field}

theorem le_total (f g : Field) : f.le g ∨ g.le f := by
  simp only [le, Bool.or_eq_true, Bool.and_eq_true, decide_eq_true_eq, Bool.not_eq_true']
  cases f.optional <;> cases g.optional <;> simp <;> omega

theorem le_trans (hfg : f.le g) (hgh : g.le h) : f.le h := by
  simp only [le, Bool.or_eq_true, Bool.and_eq_true, decide_eq_true_eq, Bool.not_eq_true'] at *
  cases hf : f.optional <;> cases hg : g.optional <;> cases hh : h.optional <;>
    simp [hf, hg, hh] at hfg hgh ⊢ <;> omega

theorem le_antisymm (hfg : f.le g) (hgf : g.le f) : f = g := by
  obtain ⟨⟨n⟩, ⟨a⟩, o⟩ := f
  obtain ⟨⟨m⟩, ⟨b⟩, p⟩ := g
  simp only [le, Bool.or_eq_true, Bool.and_eq_true, decide_eq_true_eq, Bool.not_eq_true'] at hfg hgf
  have hname : n = m := by omega
  have htype : a = b := by omega
  subst hname htype
  have hoptional : o = p := by
    cases o <;> cases p <;> simp_all
  rw [hoptional]

instance : Std.Total fun f g : Field => f.le g := ⟨le_total⟩

instance : IsTrans Field fun f g => f.le g := ⟨fun _ _ _ => le_trans⟩

theorem insertSorted_eq (f : Field) (fs : List Field) :
    f.insertSorted fs = fs.orderedInsert (fun f g => f.le g) f := by
  induction fs with
  | nil => rfl
  | cons g gs ih => rw [insertSorted, List.orderedInsert_cons, ih]

theorem sorted_eq (fs : List Field) : sorted fs = fs.insertionSort fun f g => f.le g := by
  induction fs with
  | nil => rfl
  | cons f fs ih => rw [sorted, List.foldr_cons, ← sorted, ih, insertSorted_eq,
      List.insertionSort_cons]

theorem perm_sorted (fs : List Field) : (sorted fs).Perm fs := by
  rw [sorted_eq]
  exact List.perm_insertionSort _ fs

theorem pairwise_sorted (fs : List Field) : (sorted fs).Pairwise fun f g => f.le g := by
  rw [sorted_eq]
  exact List.pairwise_insertionSort _ fs

/-- Sorting tells lists of fields apart unless they hold the same fields. -/
theorem sorted_eq_sorted_iff : sorted fs = sorted gs ↔ fs.Perm gs := by
  constructor
  · intro h
    exact (perm_sorted fs).symm.trans (h ▸ perm_sorted gs)
  · intro h
    have hperm : (sorted fs).Perm (sorted gs) :=
      (perm_sorted fs).trans (h.trans (perm_sorted gs).symm)
    exact hperm.eq_of_pairwise (fun _ _ _ _ => le_antisymm) (pairwise_sorted fs)
      (pairwise_sorted gs)

end Field

/-! ## Composite types -/

namespace Composite

/-- The types that a composite type refers to. -/
def parts : Composite → List TypeId
  | .array element => [element]
  | .record fields => fields.map (·.type)

/-- The names of a composite type. -/
def names : Composite → List NameId
  | .array _ => []
  | .record fields => fields.map (·.name)

/-- The same type: records are sets of fields, and their order does not tell them apart. -/
def same : Composite → Composite → Bool
  | .array a, .array b => a = b
  | .record fs, .record gs => fs.isPerm gs
  | _, _ => false

theorem same_array_iff {a : TypeId} {c : Composite} : same (.array a) c ↔ c = .array a := by
  cases c <;> simp [same, eq_comm]

theorem same_record_iff {fs : List Field} {c : Composite} :
    same (.record fs) c ↔ ∃ gs, c = .record gs ∧ fs.Perm gs := by
  cases c <;> simp [same, List.isPerm_iff]

/-- **Types have the same key when they are the same.** -/
theorem key_eq_key_iff {c d : Composite} : c.key = d.key ↔ c.same d := by
  cases c with
  | array a =>
    rw [same_array_iff]
    cases d <;> simp [key, eq_comm]
  | record fs =>
    rw [same_record_iff]
    cases d <;> simp [key, Field.sorted_eq_sorted_iff]

theorem same_self (c : Composite) : c.same c := key_eq_key_iff.mp rfl

theorem same_symm {c d : Composite} (h : c.same d) : d.same c :=
  key_eq_key_iff.mp (key_eq_key_iff.mpr h).symm

end Composite

namespace Schema

variable {s t u : Schema} {a b id : TypeId} {c d : Composite} {name : String} {n : NameId}

/-! ## What a schema knows -/

/-- The schema has a type of this number. -/
def Knows (s : Schema) (id : TypeId) : Prop := id.index < s.size

instance : Decidable (s.Knows id) := inferInstanceAs (Decidable (id.index < s.size))

theorem get?_composite_iff :
    s.get? id = some (.composite c) ↔
      TypeId.primitives ≤ id.index ∧ s.composites[id.index - TypeId.primitives]? = some c := by
  obtain ⟨n⟩ := id
  unfold get?
  rcases n with _ | _ | _ | _ | _ | _ | n <;> simp [TypeId.primitives]

theorem isSome_get? : (s.get? id).isSome ↔ s.Knows id := by
  obtain ⟨n⟩ := id
  unfold get? Knows size
  rcases n with _ | _ | _ | _ | _ | _ | n <;>
    simp only [TypeId.primitives, Option.isSome_some, Option.isSome_map, isSome_getElem?,
      true_iff] <;>
    omega

theorem knows_of_get? {type : DataType} (h : s.get? id = some type) : s.Knows id :=
  isSome_get?.mp (by simp [h])

theorem exists_get? (h : s.Knows id) : ∃ type, s.get? id = some type :=
  Option.isSome_iff_exists.mp (isSome_get?.mpr h)

/-- The primitive types stand at their numbers in every schema. -/
theorem get?_primitive_iff (s : Schema) (id : TypeId) :
    (s.get? id = some .null ↔ id = .null) ∧ (s.get? id = some .boolean ↔ id = .boolean) ∧
      (s.get? id = some .integer ↔ id = .integer) ∧ (s.get? id = some .real ↔ id = .real) ∧
      (s.get? id = some .text ↔ id = .text) ∧ (s.get? id = some .any ↔ id = .any) := by
  obtain ⟨n⟩ := id
  unfold get?
  rcases n with _ | _ | _ | _ | _ | _ | n <;>
    simp [TypeId.null, TypeId.boolean, TypeId.integer, TypeId.real, TypeId.text, TypeId.any]

@[simp] theorem get?_null : s.get? .null = some .null := rfl
@[simp] theorem get?_boolean : s.get? .boolean = some .boolean := rfl
@[simp] theorem get?_integer : s.get? .integer = some .integer := rfl
@[simp] theorem get?_real : s.get? .real = some .real := rfl
@[simp] theorem get?_text : s.get? .text = some .text := rfl
@[simp] theorem get?_any : s.get? .any = some .any := rfl

theorem knows_null : s.Knows .null := knows_of_get? get?_null

theorem fields?_eq_some_iff {fields : List Field} :
    s.fields? id = some fields ↔ s.get? id = some (.composite (.record fields)) := by
  unfold fields?
  cases s.get? id with
  | none => simp
  | some type =>
    rcases type with _ | _ | _ | _ | _ | _ | (element | fields) <;> simp [DataType.fields?]

theorem element?_eq_some_iff {element : TypeId} :
    s.element? id = some element ↔ s.get? id = some (.composite (.array element)) := by
  unfold element?
  cases s.get? id with
  | none => simp
  | some type =>
    rcases type with _ | _ | _ | _ | _ | _ | (element | fields) <;> simp [DataType.element?]

/-! ## Searching -/

theorem compositeAt?_eq_some_iff :
    compositeAt? s.composites id = some c ↔ s.get? id = some (.composite c) := by
  rw [get?_composite_iff, compositeAt?]
  by_cases h : id.index < TypeId.primitives
  · simp [TypeId.isPrimitive, h]
  · simp [TypeId.isPrimitive, h, Nat.le_of_not_lt h]

/-- **The index of the types has the key of each composite type, at the number of the type, and no
other key.** -/
theorem lookup_index_iff {key : TypeKey} : s.index.lookup key = some id ↔
    ∃ c, s.get? id = some (.composite c) ∧ c.key = key := by
  rw [s.index_inStep, Option.map_eq_some_iff]
  simp only [compositeAt?_eq_some_iff]

/-- **The search for a type** gives the number where the same type stands. -/
theorem find?_eq_some_iff :
    s.find? c = some id ↔ ∃ d, s.get? id = some (.composite d) ∧ c.same d := by
  rw [find?, lookup_index_iff]
  simp only [eq_comm (b := c.key), Composite.key_eq_key_iff]

/-- The same type stands at one number only. -/
theorem same_inj (ha : s.get? a = some (.composite c)) (hb : s.get? b = some (.composite d))
    (h : c.same d) : a = b :=
  Option.some.inj ((find?_eq_some_iff.mpr ⟨c, ha, c.same_self⟩).symm.trans
    (find?_eq_some_iff.mpr ⟨d, hb, h⟩))

/-- **The search for a name** gives the number where it stands. -/
theorem nameId?_eq_some_iff : s.nameId? name = some n ↔ s.name? n = some name :=
  s.nameIndex_inStep name n

theorem nameId?_eq_none (h : s.nameId? name = none) (n : NameId) : s.name? n ≠ some name := by
  intro hn
  rw [nameId?_eq_some_iff.mpr hn] at h
  cases h

/-- A name stands at one number only. -/
theorem name_inj {m : NameId} (hm : s.name? m = some name) (hn : s.name? n = some name) : m = n :=
  Option.some.inj ((nameId?_eq_some_iff.mpr hm).symm.trans (nameId?_eq_some_iff.mpr hn))

/-! ## Growing -/

/-- The second schema knows all that the first one knows, at the same numbers. -/
structure Extends (s t : Schema) : Prop where
  types : ∀ id type, s.get? id = some type → t.get? id = some type
  names : ∀ id name, s.name? id = some name → t.name? id = some name

theorem Extends.refl (s : Schema) : s.Extends s := ⟨fun _ _ h => h, fun _ _ h => h⟩

theorem Extends.trans (hst : s.Extends t) (htu : t.Extends u) : s.Extends u :=
  ⟨fun id type h => htu.types id type (hst.types id type h),
   fun id name h => htu.names id name (hst.names id name h)⟩

theorem Extends.knows (h : s.Extends t) (hid : s.Knows id) : t.Knows id := by
  obtain ⟨type, htype⟩ := exists_get? hid
  exact knows_of_get? (h.types id type htype)

/-- What is known stays what it is. -/
theorem Extends.get?_eq (h : s.Extends t) (hid : s.Knows id) : t.get? id = s.get? id := by
  obtain ⟨type, hget⟩ := exists_get? hid
  rw [hget, h.types _ _ hget]

/-- What every operation on schemas keeps, besides the indexes. -/
structure WellFormed (s : Schema) : Prop where
  /-- A type refers to types before it. -/
  parts_lt : ∀ {id c}, s.get? id = some (.composite c) → ∀ part ∈ c.parts, part.index < id.index
  /-- A record names each of its fields once. -/
  names_nodup : ∀ {id c}, s.get? id = some (.composite c) → c.names.Nodup

theorem wellFormed_empty : empty.WellFormed where
  parts_lt h := by simp [get?_composite_iff, empty] at h
  names_nodup h := by simp [get?_composite_iff, empty] at h

theorem WellFormed.knows_part (hs : s.WellFormed) (h : s.get? id = some (.composite c)) :
    ∀ part ∈ c.parts, s.Knows part := fun part hpart =>
  Nat.lt_trans (hs.parts_lt h part hpart) (knows_of_get? h)

theorem WellFormed.element_lt {e : TypeId} (hs : s.WellFormed)
    (h : s.get? id = some (.composite (.array e))) : e.index < id.index :=
  hs.parts_lt h e List.mem_cons_self

theorem WellFormed.knows_element {e : TypeId} (hs : s.WellFormed)
    (h : s.get? id = some (.composite (.array e))) : s.Knows e :=
  hs.knows_part h e List.mem_cons_self

theorem WellFormed.field_lt {fields : List Field} (hs : s.WellFormed)
    (h : s.get? id = some (.composite (.record fields))) :
    ∀ f ∈ fields, f.type.index < id.index := fun f hf =>
  hs.parts_lt h f.type (List.mem_map_of_mem hf)

theorem WellFormed.knows_field {fields : List Field} (hs : s.WellFormed)
    (h : s.get? id = some (.composite (.record fields))) : ∀ f ∈ fields, s.Knows f.type :=
  fun f hf => hs.knows_part h f.type (List.mem_map_of_mem hf)

/-! ## Registering a type -/

/-- A type that may be registered: its parts are known and its names are distinct. -/
structure Admits (s : Schema) (c : Composite) : Prop where
  parts : ∀ part ∈ c.parts, s.Knows part
  names : c.names.Nodup

/-- A schema with one more composite type at its end. -/
theorem get?_addType (hnew : s.find? c = none) : (s.addType c hnew).get? id =
    if id.index = s.size then some (.composite c) else s.get? id := by
  by_cases h : id.index = s.size
  · rw [if_pos h, get?_composite_iff]
    simp [h, size, addType]
  · rw [if_neg h]
    obtain ⟨n⟩ := id
    rcases n with _ | _ | _ | _ | _ | _ | n
    iterate 6 · rfl
    have hn : n ≠ s.composites.size := by
      simp only [size, TypeId.primitives] at h
      omega
    simp [get?, addType, Array.getElem?_push, hn]

theorem extends_addType (hnew : s.find? c = none) : s.Extends (s.addType c hnew) where
  types id type h := by
    have hlt : id.index < s.size := knows_of_get? h
    rw [get?_addType, if_neg (by omega), h]
  names _ _ h := h

theorem wellFormed_addType (hs : s.WellFormed) (hc : s.Admits c) (hnew : s.find? c = none) :
    (s.addType c hnew).WellFormed where
  parts_lt {id d} h part hpart := by
    rw [get?_addType] at h
    split at h
    · rename_i hid
      cases h
      exact hid ▸ hc.parts part hpart
    · exact hs.parts_lt h part hpart
  names_nodup {id d} h := by
    rw [get?_addType] at h
    split at h
    · cases h
      exact hc.names
    · exact hs.names_nodup h

theorem register_of_find?_eq_some (h : s.find? c = some id) : s.register c = (id, s) := by
  unfold register
  split <;> simp_all

theorem register_of_find?_eq_none (h : s.find? c = none) :
    s.register c = (⟨s.size⟩, s.addType c h) := by
  unfold register
  split <;> simp_all

/-- A type that was there before is found. -/
theorem register_of_knows (h : s.Knows (s.register c).1) : (s.register c).2 = s := by
  cases hfind : s.find? c with
  | some id => rw [register_of_find?_eq_some hfind]
  | none =>
    rw [register_of_find?_eq_none hfind] at h
    exact absurd h (Nat.lt_irrefl _)

/-- A type that was not there before is registered as it is. -/
theorem get?_register_of_not_knows (h : ¬ s.Knows (s.register c).1) :
    (s.register c).2.get? (s.register c).1 = some (.composite c) := by
  cases hfind : s.find? c with
  | some id =>
    obtain ⟨d, hd, -⟩ := find?_eq_some_iff.mp hfind
    rw [register_of_find?_eq_some hfind] at h
    exact absurd (knows_of_get? hd) h
  | none =>
    rw [register_of_find?_eq_none hfind, get?_addType]
    simp

/-- What registering a type gives: a well-formed extension, and a number where the same type
stands. -/
structure Registers (s : Schema) (c : Composite) (r : TypeId × Schema) : Prop where
  wellFormed : r.2.WellFormed
  extended : s.Extends r.2
  found : ∃ d, r.2.get? r.1 = some (.composite d) ∧ c.same d

theorem registers_register (hs : s.WellFormed) (hc : s.Admits c) :
    s.Registers c (s.register c) := by
  cases hfind : s.find? c with
  | some id =>
    rw [register_of_find?_eq_some hfind]
    exact ⟨hs, .refl s, find?_eq_some_iff.mp hfind⟩
  | none =>
    rw [register_of_find?_eq_none hfind]
    refine ⟨wellFormed_addType hs hc hfind, extends_addType hfind, c, ?_, Composite.same_self c⟩
    rw [get?_addType]
    simp

theorem Registers.knows {r : TypeId × Schema} (h : s.Registers c r) : r.2.Knows r.1 := by
  obtain ⟨d, hd, -⟩ := h.found
  exact knows_of_get? hd

/-! ## Interning a name -/

theorem name?_addName (hnew : s.nameId? name = none) :
    (s.addName name hnew).name? n = if n.index = s.names.size then some name else s.name? n := by
  simp [name?, addName, Array.getElem?_push]

theorem intern_of_nameId?_eq_some (h : s.nameId? name = some n) : s.intern name = (n, s) := by
  unfold intern
  split <;> simp_all

theorem intern_of_nameId?_eq_none (h : s.nameId? name = none) :
    s.intern name = (⟨s.names.size⟩, s.addName name h) := by
  unfold intern
  split <;> simp_all

/-- What interning a name gives: a well-formed extension that knows the name at the number. -/
structure Interns (s : Schema) (name : String) (r : NameId × Schema) : Prop where
  wellFormed : r.2.WellFormed
  extended : s.Extends r.2
  found : r.2.name? r.1 = some name

theorem interns_intern (hs : s.WellFormed) (name : String) :
    s.Interns name (s.intern name) := by
  cases hfind : s.nameId? name with
  | some id =>
    rw [intern_of_nameId?_eq_some hfind]
    exact ⟨hs, .refl s, nameId?_eq_some_iff.mp hfind⟩
  | none =>
    rw [intern_of_nameId?_eq_none hfind]
    refine ⟨⟨hs.parts_lt, hs.names_nodup⟩, ⟨fun _ _ h => h, ?_⟩, ?_⟩
    · intro n text h
      have hlt : n.index < s.names.size := (Array.getElem?_eq_some_iff.mp h).1
      rw [name?_addName, if_neg (by omega), h]
    · rw [name?_addName]
      simp

/-! ## Names, whatever else a schema holds -/

/-- The names of the first schema stand first among those of the second one. -/
def Remembers (s t : Schema) : Prop := ∃ more, t.names = s.names ++ more

theorem Remembers.refl (s : Schema) : s.Remembers s := ⟨#[], by simp⟩

theorem Remembers.trans (hst : s.Remembers t) (htu : t.Remembers u) : s.Remembers u := by
  obtain ⟨more, hmore⟩ := hst
  obtain ⟨more', hmore'⟩ := htu
  exact ⟨more ++ more', by rw [hmore', hmore, Array.append_assoc]⟩

/-- A name that is found stays found at its number. -/
theorem Remembers.nameId?_eq (h : s.Remembers t) (hn : s.nameId? name = some n) :
    t.nameId? name = some n := by
  obtain ⟨more, hmore⟩ := h
  have hget : s.names[n.index]? = some name := nameId?_eq_some_iff.mp hn
  obtain ⟨hlt, -⟩ := Array.getElem?_eq_some_iff.mp hget
  rw [nameId?_eq_some_iff, name?, hmore, Array.getElem?_append_left hlt, hget]

theorem remembers_intern (s : Schema) (name : String) : s.Remembers (s.intern name).2 := by
  cases hfind : s.nameId? name with
  | some n =>
    rw [intern_of_nameId?_eq_some hfind]
    exact .refl s
  | none =>
    rw [intern_of_nameId?_eq_none hfind]
    exact ⟨#[name], Array.push_eq_append⟩

/-- An interned name is found at its number. -/
theorem nameId?_intern (s : Schema) (name : String) :
    (s.intern name).2.nameId? name = some (s.intern name).1 := by
  cases hfind : s.nameId? name with
  | some n =>
    rw [intern_of_nameId?_eq_some hfind]
    exact hfind
  | none =>
    rw [intern_of_nameId?_eq_none hfind, nameId?_eq_some_iff, name?_addName, if_pos rfl]

theorem remembers_of_names_eq (h : t.names = s.names) : s.Remembers t := ⟨#[], by simp [h]⟩

theorem names_register (s : Schema) (c : Composite) : (s.register c).2.names = s.names := by
  cases hfind : s.find? c with
  | some id => rw [register_of_find?_eq_some hfind]
  | none => rw [register_of_find?_eq_none hfind, addType]

theorem remembers_register (s : Schema) (c : Composite) : s.Remembers (s.register c).2 :=
  remembers_of_names_eq (names_register s c)

end Schema

end JsonLines
