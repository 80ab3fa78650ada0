/-
JsonLines.Proofs.Dataset.AlikeObjects — sources whose fields stand in the order of first occurrence.

Whether a turn reorders names depends on all record types that were registered before it, those of
unions inside of rows included. For a source whose objects with the same names list them in the same
order, and whose first name stands in rows only, no turn does (`not_reorders_of_listsAlike`).

The invariant is about every record type that a schema has (`Orderly`). If all its fields are
required, then some object has just these names, in this order; if not, and the record has the first
name, then the rows so far have just these names, and first in this order. No union inside of a row
makes a record of the second sort, since the first name does not occur there.
-/
import JsonLines.Proofs.Dataset.FieldOrder
import JsonLines.Proofs.Scan.Avoidance
import JsonLines.Proofs.Schema.UnionLattice

namespace JsonLines

open Json

/-! ## The objects of a source -/

namespace Json

mutual

/-- The names of each object in a value, in the order of the text: of the value itself, if it is an
object, and of those inside. -/
def Node.listings : Node → List (List String)
  | .array _ items => listingsOfItems items
  | .object _ members => members.filterMap (fun m => m.1.name?) :: listingsOfMembers members
  | _ => []

/-- The names of each object in some items. -/
def listingsOfItems : List Node → List (List String)
  | [] => []
  | item :: items => item.listings ++ listingsOfItems items

/-- The names of each object in the values of some members. -/
def listingsOfMembers : List (Key × Node) → List (List String)
  | [] => []
  | (_, node) :: members => node.listings ++ listingsOfMembers members

end

/-- The names of each object inside a value that is not this value itself. -/
def Node.innerListings : Node → List (List String)
  | .object _ members => listingsOfMembers members
  | node => node.listings

variable {node m : Node} {items : List Node} {members : List (Key × Node)} {l : List String}

theorem mem_listingsOfItems {item : Node} (hitem : item ∈ items) (h : l ∈ item.listings) :
    l ∈ listingsOfItems items := by
  induction items with
  | nil => cases hitem
  | cons first items ih =>
    rw [listingsOfItems, List.mem_append]
    rcases List.mem_cons.mp hitem with rfl | hitem
    · exact .inl h
    · exact .inr (ih hitem)

theorem mem_listingsOfMembers {member : Key × Node} (hmember : member ∈ members)
    (h : l ∈ member.2.listings) : l ∈ listingsOfMembers members := by
  induction members with
  | nil => cases hmember
  | cons first members ih =>
    rw [listingsOfMembers, List.mem_append]
    rcases List.mem_cons.mp hmember with rfl | hmember
    · exact .inl h
    · exact .inr (ih hmember)

/-- The objects in a part of a value are in the value. -/
theorem mem_listings_of_part (hm : m.Part node) (h : l ∈ m.listings) : l ∈ node.listings := by
  induction hm with
  | self => exact h
  | item hitem _ ih => exact mem_listingsOfItems hitem ih
  | member hmember _ ih => exact List.mem_cons_of_mem _ (mem_listingsOfMembers hmember ih)

theorem mem_listings_object (span : Span) (members : List (Key × Node)) :
    (Node.object span members).memberNames ∈ (Node.object span members).listings :=
  List.mem_cons_self

end Json

namespace View

variable {root : View} {source : ByteSource} {config : Config} {j k : Nat} {c after : Contents}
  {t : Turn} {n : NameId} {name : String} {node : Node} {s : Schema} {a b id : TypeId}
  {fields others : List Field}

/-- The names of each object of a dataset, be it a row or inside of one. -/
def listings (root : View) : List (List String) :=
  root.values.flatMap fun value => (value.map Node.listings).getD []

/-- The names of each object inside of a row. -/
def innerListings (root : View) : List (List String) :=
  root.values.flatMap fun value => (value.map Node.innerListings).getD []

/-- Objects are alike: those with the same names list them in the same order, and the first name of
all rows is the name of no member inside of a row. -/
structure ListsAlike (root : View) : Prop where
  same_order : ∀ l ∈ root.listings, ∀ l' ∈ root.listings, l.Perm l' → l = l'
  rows_only : ∀ name ∈ (root.firstNames root.rowCount).head?, ∀ l ∈ root.innerListings, name ∉ l

instance (root : View) : Decidable root.ListsAlike :=
  decidable_of_iff (_ ∧ _) ⟨fun h => ⟨h.1, h.2⟩, fun h => ⟨h.1, h.2⟩⟩

/-! ## Names of fields -/

/-- The names of fields as texts, in the schema of the whole dataset. -/
def namesOf (root : View) (fields : List Field) : List String :=
  fields.map fun f => root.contents.schema.name f.name

theorem namesOf_eq_fieldNames (hnamed : s.FieldsNamed) (hext : s.Extends root.contents.schema)
    (h : s.fields? id = some fields) : root.namesOf fields = s.fieldNames id := by
  have hids := Schema.fieldIds_of_fields? h
  rw [namesOf, Schema.fieldNames, hids, List.map_map]
  refine List.map_congr_left fun f hf => hext.name_eq ?_
  have hmem : f.name ∈ s.fieldIds id := hids ▸ List.mem_map_of_mem hf
  exact hnamed.isSome_name? _ hmem

theorem namesOf_memberFields {members : List (Key × Node)} {cells : List (NameId × Cell)}
    (hext : s.Extends root.contents.schema) (h : ScannedMembers s members cells) :
    root.namesOf (Cell.memberFields cells) = members.filterMap fun m => m.1.name? := by
  rw [← h.map_name, namesOf, Cell.memberFields, List.map_map]
  exact List.map_congr_left fun entry hentry =>
    hext.name_eq (Option.isSome_iff_exists.mpr (h.exists_name hentry))

theorem firstNames_prefix (root : View) (h : j ≤ k) : root.firstNames j <+: root.firstNames k := by
  obtain ⟨more, rfl⟩ := Nat.exists_eq_add_of_le h
  rw [firstNames, firstNames, List.take_add, List.flatMap_append, List.eraseDups_append]
  exact List.prefix_append _ _

/-- Of two beginnings with the same names, both list the same. -/
theorem firstNames_eq_of_perm (h : (root.firstNames j).Perm (root.firstNames k)) :
    root.firstNames j = root.firstNames k := by
  rcases Nat.le_total j k with hle | hle
  · exact (root.firstNames_prefix hle).eq_of_length h.length_eq
  · exact ((root.firstNames_prefix hle).eq_of_length h.length_eq.symm).symm

/-! ## Record types in order -/

/-- The fields of a record type are in order. If all are required, an object lists their names this
way; otherwise, if the name is among them, some first rows do so together. -/
structure Orderly (root : View) (n : NameId) (fields : List Field) : Prop where
  object : (∀ f ∈ fields, f.optional = false) → root.namesOf fields ∈ root.listings
  rows : ¬ (∀ f ∈ fields, f.optional = false) → n ∈ fields.map (·.name) →
    ∃ j, root.namesOf fields = root.firstNames j

theorem orderly_of_required (hrequired : ∀ f ∈ fields, f.optional = false)
    (h : root.namesOf fields ∈ root.listings) : root.Orderly n fields :=
  ⟨fun _ => h, fun hnot => absurd hrequired hnot⟩

theorem required_memberFields (cells : List (NameId × Cell)) :
    ∀ f ∈ Cell.memberFields cells, f.optional = false := by
  rw [Cell.memberFields, List.forall_mem_map]
  exact fun _ _ => rfl

/-- The names of a union of two records. -/
theorem namesOf_of_merges {merged : List Field} (h : Schema.Merges fields others merged) :
    root.namesOf merged = root.namesOf fields ++ root.namesOf (Schema.onlyIn others fields) := by
  have hnames := congrArg (List.map root.contents.schema.name) h.names
  rwa [List.map_append, List.map_map, List.map_map, List.map_map] at hnames

/-- A union of records that requires all fields lists them as the first of the two records. -/
theorem Orderly.object_of_merges {merged : List Field} (h : root.Orderly n fields)
    (hmerges : Schema.Merges fields others merged)
    (hrequired : ∀ f ∈ merged, f.optional = false) : root.namesOf merged ∈ root.listings := by
  obtain ⟨honly, hfields⟩ := hmerges.required hrequired
  rw [namesOf_of_merges hmerges, honly, namesOf, namesOf, List.map_nil, List.append_nil]
  exact h.object hfields

/-- A union of records is in order if the first of them is, unless it has the name. -/
theorem Orderly.of_merges {merged : List Field} (h : root.Orderly n fields)
    (hmerges : Schema.Merges fields others merged) (hn : n ∉ merged.map (·.name)) :
    root.Orderly n merged :=
  ⟨h.object_of_merges hmerges, fun _ hmem => absurd hmem hn⟩

/-! ## Rows -/

/-- The objects inside of rows have records in order, without the first name. -/
theorem recordsIn_inner (halike : root.ListsAlike)
    (hname : root.contents.schema.name? n = some name)
    (hfirst : name ∈ (root.firstNames root.rowCount).head?) {inner : Node}
    (h : ∀ l ∈ inner.listings, l ∈ root.listings ∧ l ∈ root.innerListings) :
    inner.RecordsIn root.contents.schema (root.Orderly n) n := by
  intro span members hpart s cells hext hscanned
  have hlisted := namesOf_memberFields hext hscanned
  obtain ⟨hall, hinner⟩ := h _ (mem_listings_of_part hpart (mem_listings_object span members))
  constructor
  · exact orderly_of_required (required_memberFields cells) (hlisted ▸ hall)
  · intro hmem
    have htext : name ∈ root.namesOf (Cell.memberFields cells) := by
      obtain ⟨f, hf, rfl⟩ := List.mem_map.mp hmem
      rw [namesOf, List.mem_map]
      exact ⟨f, hf, by rw [Schema.name, hname]; rfl⟩
    rw [hlisted] at htext
    exact halike.rows_only name hfirst _ hinner htext

/-- The objects of a row are among those of the dataset. -/
theorem mem_listings_of_row (hvalue : root.values[k]? = some (some node)) {l : List String}
    (h : l ∈ node.listings) : l ∈ root.listings :=
  List.mem_flatMap.mpr ⟨_, List.mem_of_getElem? hvalue, h⟩

/-- A row of records registers record types in order, and its own lists the names as the row
does. -/
theorem orderly_row (halike : root.ListsAlike) (hname : root.contents.schema.name? n = some name)
    (hfirst : name ∈ (root.firstNames root.rowCount).head?)
    (hvalue : root.values[k]? = some (some node)) (hs : s.WellFormed)
    (hevery : s.EveryRecord (root.Orderly n)) {scanner : Scanner} {cell : Cell} {t : Schema}
    (h : scanner.scanNode source 0 s node = (.ok cell, t)) (hext : t.Extends root.contents.schema)
    (hlisted : t.Listed cell.type) : t.EveryRecord (root.Orderly n) ∧
      ∀ fields, t.fields? cell.type = some fields →
        (∀ f ∈ fields, t.Avoids n f.type) ∧ root.namesOf fields = node.memberNames := by
  have hscans : Scans s node (.ok cell, t) := h ▸ scans_scanNode hs
  cases node with
  | object span members =>
    obtain ⟨names, cs, s₁, -, hnames, rfl, hmembers, hregisters, rfl⟩ :=
      Scanner.scanNode_object_cases hs h
    have hscanned : ScannedMembers s₁ members cs := by
      have hall : ScansMembers s [] members (.ok cs, s₁) :=
        hmembers ▸ scansMembers_scanMembers (fun _ _ _ => scans_scanNode) hnames hs
      exact hall.scanned cs rfl
    have hext₁ := hregisters.extended.trans hext
    have hown := mem_listings_of_row hvalue (mem_listings_object span members)
    have hlist := namesOf_memberFields hext₁ hscanned
    obtain ⟨hevery₁, havoids⟩ := Scanner.scanMembers_avoids (fun m hm _ _ _ hs hP h hu =>
      Scanner.scanNode_avoids (fun _ _ _ h _ => h.of_merges) hs hP
        (recordsIn_inner halike hname hfirst fun l hl =>
          ⟨mem_listings_of_row hvalue (List.mem_cons_of_mem _ (mem_listingsOfMembers hm hl)),
            List.mem_flatMap.mpr ⟨_, List.mem_of_getElem? hvalue, mem_listingsOfMembers hm hl⟩⟩)
        h hu) hnames hs hevery hmembers hext₁
    have hevery' : (s₁.record (Cell.memberFields cs)).2.EveryRecord (root.Orderly n) :=
      hevery₁.register fun _ heq => by
        cases heq
        exact orderly_of_required (required_memberFields cs) (hlist ▸ hown)
    refine ⟨hevery', fun fields hfields => ?_⟩
    obtain ⟨d, hd, hsame⟩ := hregisters.found
    obtain ⟨gs, rfl, hperm⟩ := Composite.same_record_iff.mp hsame
    cases (Schema.fields?_eq_some_iff.mpr hd).symm.trans hfields
    constructor
    · intro f hf
      obtain ⟨entry, hentry, rfl⟩ := List.mem_map.mp (hperm.mem_iff.mpr hf)
      exact (havoids entry hentry).of_extends hregisters.extended
    · have hrequired : ∀ f ∈ fields, f.optional = false := fun f hf =>
        required_memberFields cs f (hperm.mem_iff.mpr hf)
      refine halike.same_order _ ((hevery' _ _ hfields).object hrequired) _ hown ?_
      rw [Node.memberNames, ← hlist]
      exact (hperm.map _).symm
  | array span items =>
    obtain ⟨_, _, _, rfl, -, hget, -⟩ := hscans.scanned cell rfl
    exact absurd hlisted (Schema.not_listed_array hget)
  | number span numeral =>
    cases h
    refine ⟨hevery, fun fields hfields => ?_⟩
    rw [Cell.type] at hfields
    split at hfields <;> cases hfields
  | _ =>
    cases h
    exact ⟨hevery, fun _ hfields => by cases hfields⟩

/-! ## Turns of records in order -/

/-- What is known of the type of some rows: all records are in order, the name is nowhere inside of
a field, and the names stand in the order of first occurrence. -/
structure Calm (root : View) (n : NameId) (k : Nat) (s : Schema) (id : TypeId) : Prop where
  every : s.EveryRecord (root.Orderly n)
  avoids : ∀ fields, s.fields? id = some fields → ∀ f ∈ fields, s.Avoids n f.type
  names : s.fieldNames id = root.firstNames k

theorem isSome_name?_of_extends (hnamed : s.FieldsNamed) (hext : s.Extends root.contents.schema)
    (h : s.fields? id = some fields) :
    ∀ m ∈ fields.map (·.name), (root.contents.schema.name? m).isSome := by
  intro m hm
  rw [← Schema.fieldIds_of_fields? h] at hm
  obtain ⟨text, htext⟩ := Option.isSome_iff_exists.mp (hnamed.isSome_name? m hm)
  exact Option.isSome_iff_exists.mpr ⟨text, hext.names m text htext⟩

theorem namesOf_onlyIn (hf : ∀ m ∈ fields.map (·.name), (root.contents.schema.name? m).isSome)
    (ho : ∀ m ∈ others.map (·.name), (root.contents.schema.name? m).isSome) :
    root.namesOf (Schema.onlyIn others fields) =
      (root.namesOf others).removeAll (root.namesOf fields) := by
  have honly : (Schema.onlyIn others fields).map (·.name) =
      (others.map (·.name)).removeAll (fields.map (·.name)) := Schema.names_onlyIn_eq
  have hnames := congrArg (List.map root.contents.schema.name) honly
  rw [map_removeAll fun m hm m' hm' => Schema.name_injective (hf m' hm') (ho m hm),
    List.map_map, List.map_map, List.map_map] at hnames
  exact hnames

theorem mem_names_of_mem_namesOf
    (hf : ∀ m ∈ fields.map (·.name), (root.contents.schema.name? m).isSome)
    (hname : root.contents.schema.name? n = some name) (h : name ∈ root.namesOf fields) :
    n ∈ fields.map (·.name) := by
  obtain ⟨f, hmem, heq⟩ := List.mem_map.mp h
  have hn : root.contents.schema.name n = name := by rw [Schema.name, hname]; rfl
  have hfn := List.mem_map_of_mem (f := (·.name)) hmem
  have heq' : f.name = n := Schema.name_injective (hf _ hfn)
    (Option.isSome_iff_exists.mpr ⟨name, hname⟩) (heq.trans hn.symm)
  exact heq' ▸ hfn

/-- A record of all names so far is in order, and so is one with the same names that was registered
before it. -/
theorem namesOf_found {merged found : List Field} (halike : root.ListsAlike)
    (hmerged : root.Orderly n merged) (hfound : root.Orderly n found) (hperm : merged.Perm found)
    (hlisted : root.namesOf merged = root.firstNames k)
    (hn : merged ≠ [] → n ∈ merged.map (·.name)) : root.namesOf found = root.firstNames k := by
  rw [← hlisted]
  have hsame := hperm.map fun f => root.contents.schema.name f.name
  by_cases hrequired : ∀ f ∈ merged, f.optional = false
  · -- Some object lists these names in either way.
    have hrequired' : ∀ f ∈ found, f.optional = false := fun f hf =>
      hrequired f (hperm.mem_iff.mpr hf)
    exact (halike.same_order _ (hmerged.object hrequired) _ (hfound.object hrequired') hsame).symm
  · have hne : merged ≠ [] := fun hnil => hrequired (hnil ▸ by simp)
    have hrequired' : ¬ ∀ f ∈ found, f.optional = false := fun h =>
      hrequired fun f hf => h f (hperm.mem_iff.mp hf)
    have hmem : n ∈ found.map (·.name) := (hperm.map _).mem_iff.mp (hn hne)
    obtain ⟨j, hj⟩ := hfound.rows hrequired' hmem
    rw [hj, hlisted]
    exact firstNames_eq_of_perm (.trans (.of_eq hj.symm) (hsame.symm.trans (.of_eq hlisted)))

/-- The contents after some rows are a beginning of those of the dataset. -/
theorem extends_contentsAfter (hroot : load source config = .ok root) (hk : k ≤ root.rowCount)
    (hc : root.contentsAfter k = .ok c) : c.schema.Extends root.contents.schema := by
  refine contentsAfter_back (P := fun c => c.schema.Extends root.contents.schema) hroot (.refl _)
    (fun k t node after hturn h => ?_) hk hc
  rw [hturn.schema_eq] at h
  exact (hturn.sound.extended.trans hturn.sound.joins.extended).trans h

/-- The first name of all rows is the first one as soon as there is a name. -/
theorem mem_firstNames_of_head (hfirst : name ∈ (root.firstNames root.rowCount).head?)
    (hk : k ≤ root.rowCount) (hne : root.firstNames k ≠ []) : name ∈ root.firstNames k := by
  obtain ⟨rest, hrest⟩ := root.firstNames_prefix hk
  rw [← hrest, List.head?_append_of_ne_nil _ hne] at hfirst
  exact List.mem_of_mem_head? hfirst

section

variable (hroot : load source config = .ok root)
  (hlisted : root.contents.schema.Listed root.contents.type) (halike : root.ListsAlike)
  (hname : root.contents.schema.name? n = some name)
  (hfirst : name ∈ (root.firstNames root.rowCount).head?)

include hroot hlisted halike hname hfirst

omit hroot hlisted in
/-- The union of two records that list the names so far and those of the next row. -/
theorem calm_union (hs : s.WellFormed) (hnamed : s.FieldsNamed)
    (hnamed' : (s.union a b).2.FieldsNamed) (hext : (s.union a b).2.Extends root.contents.schema)
    (hevery : s.EveryRecord (root.Orderly n)) (ha : s.fields? a = some fields)
    (hb : s.fields? b = some others) (hf : ∀ f ∈ fields, s.Avoids n f.type)
    (ho : ∀ g ∈ others, s.Avoids n g.type) (hk : k ≤ root.rowCount)
    (hnames : root.firstNames k =
      root.namesOf fields ++ (root.namesOf others).removeAll (root.namesOf fields)) :
    root.Calm n k (s.union a b).2 (s.union a b).1 := by
  have hA := Schema.fields?_eq_some_iff.mp ha
  have hB := Schema.fields?_eq_some_iff.mp hb
  have hext₀ : s.Extends root.contents.schema :=
    (Schema.joins_union hs (Schema.knows_of_get? hA) (Schema.knows_of_get? hB)).extended.trans hext
  obtain ⟨merged, found, hmerges, hperm, hget, hall, hthen⟩ :=
    Schema.union_records (fun _ _ _ h _ => Orderly.of_merges h) hs hevery hA hB hf ho
  have hfound := Schema.fields?_eq_some_iff.mpr hget
  have hlistedMerged : root.namesOf merged = root.firstNames k := by
    rw [namesOf_of_merges hmerges, namesOf_onlyIn (isSome_name?_of_extends hnamed hext₀ ha)
      (isSome_name?_of_extends hnamed hext₀ hb), hnames]
  have hmerged : root.Orderly n merged :=
    ⟨(hevery _ _ ha).object_of_merges hmerges, fun _ _ => ⟨k, hlistedMerged⟩⟩
  have hlistedFound : root.namesOf found = root.firstNames k := by
    refine namesOf_found halike hmerged (hthen hmerged _ _ hfound) hperm hlistedMerged fun hne => ?_
    refine mem_names_of_mem_namesOf (fun m hm => ?_) hname ?_
    · exact isSome_name?_of_extends hnamed' hext hfound m ((hperm.map _).mem_iff.mp hm)
    · rw [hlistedMerged]
      refine mem_firstNames_of_head hfirst hk fun hnil => hne ?_
      rwa [← hlistedMerged, namesOf, List.map_eq_nil_iff] at hnil
  refine ⟨hthen hmerged, fun fields' hfields' => ?_, ?_⟩
  · cases hfound.symm.trans hfields'
    exact hall
  · exact (namesOf_eq_fieldNames hnamed' hext hfound).symm.trans hlistedFound

/-- **One turn** of records in order. -/
theorem Calm.succ (h : root.Calm n k t.before.schema t.before.type) (hk : k < root.rowCount)
    (hturn : root.TakesTurn k t node after) : root.Calm n (k + 1) after.schema after.type := by
  have hsound := hturn.sound
  have hext := extends_contentsAfter hroot hk hturn.after_eq
  have hnamed := Contents.fieldsNamed_gather hturn.after_eq
  have hunion := listed_contentsAfter hroot hlisted hk hturn.after_eq
  have hnames := hturn.firstNames_succ
  rw [hturn.schema_eq] at hext hnamed hunion ⊢
  rw [hturn.type_eq] at hunion ⊢
  replace hunion := hsound.listsUnion hunion
  have hrowExt := hsound.joins.extended.trans hext
  obtain ⟨hevery, hrow⟩ := orderly_row halike hname hfirst hturn.value_eq
    (Contents.gathered_gather hturn.before_eq).1.wellFormed h.every hturn.scan_eq hrowExt
    hunion.right
  have havoids : ∀ fields, t.schema.fields? t.before.type = some fields →
      ∀ f ∈ fields, t.schema.Avoids n f.type := by
    intro fields hfields f hf
    rw [Schema.fields?, hsound.extended.get?_eq hsound.knows] at hfields
    exact (h.avoids fields hfields f hf).of_extends hsound.extended
  have hold : t.schema.fieldNames t.before.type = root.firstNames k :=
    hsound.fieldNames_before.trans h.names
  rcases hunion.right with hnull | ⟨others, hothers⟩
  · -- The row is null and changes nothing.
    have hperm := hsound.scanned.perm_memberNames
    rw [hnull] at hperm
    have hnone : node.memberNames = [] := List.nil_perm.mp hperm
    rw [Turn.joined, hnull, Schema.union_null]
    refine ⟨hevery, havoids, ?_⟩
    rw [hold, hnames, hnone]
    simp
  obtain ⟨hothersAvoid, hothersListed⟩ := hrow others hothers
  rcases hunion.left with hnull | ⟨fields, hfields⟩
  · -- All rows before it were null, so its names are the first ones.
    have hnil : root.firstNames k = [] := by
      rw [← hold, hnull]
      rfl
    rw [Turn.joined, hnull, Schema.null_union]
    refine ⟨hevery, fun _ hother => (hrow _ hother).1, ?_⟩
    rw [← namesOf_eq_fieldNames hsound.named hrowExt hothers, hothersListed, hnames, hnil]
    simp
  · refine calm_union halike hname hfirst hsound.wellFormed hsound.named hnamed hext hevery hfields
      hothers (havoids _ hfields) hothersAvoid hk ?_
    rw [hothersListed, (namesOf_eq_fieldNames hsound.named hrowExt hfields).trans hold, hnames]

/-- **All turns** of records in order. -/
theorem calm (hk : k ≤ root.rowCount) (hc : root.contentsAfter k = .ok c) :
    root.Calm n k c.schema c.type := by
  induction k generalizing c with
  | zero =>
    obtain ⟨g, hg, rfl⟩ := Contents.gather_eq_ok_iff.mp hc
    cases hg
    exact ⟨Schema.everyRecord_empty, nofun, rfl⟩
  | succ k ih =>
    obtain ⟨t, node, after, hturn⟩ := exists_takesTurn hroot hk
    cases hturn.after_eq.symm.trans hc
    have hbefore := ih (Nat.le_of_succ_le hk) hturn.before_eq
    exact hbefore.succ hroot hlisted halike hname hfirst hk hturn

end

/-- **No turn reorders names** if objects are alike. -/
theorem not_reorders_of_listsAlike (hroot : load source config = .ok root)
    (hlisted : root.contents.schema.Listed root.contents.type) (halike : root.ListsAlike) :
    ∀ k < root.rowCount, ¬ root.Reorders k := by
  refine (inOrderAfter_iff hroot hlisted).mp fun k hk => ?_
  have hall := contentsAfter_rowCount hroot
  have hperm := perm_firstNames hroot le_rfl hall hlisted
  obtain ⟨c, hc⟩ := exists_contentsAfter hroot hk
  cases hhead : (root.firstNames root.rowCount).head? with
  | none =>
    -- No row has a name.
    have hnil : root.firstNames k = [] :=
      List.prefix_nil.mp (List.head?_eq_none_iff.mp hhead ▸ root.firstNames_prefix hk)
    have hnames := perm_firstNames hroot hk hc (listed_contentsAfter hroot hlisted hk hc)
    rw [hnil] at hnames
    exact ⟨c, hc, hnames.eq_nil.trans hnil.symm⟩
  | some name =>
    have hmem := hperm.mem_iff.mpr (List.mem_of_mem_head? hhead)
    obtain ⟨n, hn, rfl⟩ := List.mem_map.mp hmem
    obtain ⟨text, htext⟩ := Option.isSome_iff_exists.mp
      ((Contents.fieldsNamed_gather hall).isSome_name? n hn)
    have hname : root.contents.schema.name n = text := by
      rw [Schema.name, htext]
      rfl
    exact ⟨c, hc, (calm hroot hlisted halike htext (hname ▸ hhead) hk hc).names⟩

/-- Rows with one name each, and an array whose items have the same names together. -/
def joinedInside : ByteSource := .ofString
  "\x7b\"a\":1\x7d\n\x7b\"x\":[\x7b\"x\":[1]\x7d,\x7b\"x\":1\x7d,\x7b\"a\":1\x7d]\x7d\n\x7b\"x\":1\x7d\n"

-- A name of rows only is needed: the items make up a record of both names, the other way round, and
-- with the last row the union of all rows comes to this record.
example : (load joinedInside {}).toOption.map (fun root =>
    (root.names?, root.firstNames root.rowCount)) = some (some ["x", "a"], ["a", "x"]) := by
  decide +kernel

end View

end JsonLines
