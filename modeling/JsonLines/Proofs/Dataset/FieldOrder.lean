/-
JsonLines.Proofs.Dataset.FieldOrder — the order in which a loaded dataset lists its fields.

Loading takes its rows in turns: a row is scanned, and its type is joined to the type of the rows
before it (`Turn`). A turn adds the new names of the row to those that are there
(`Turn.Sound.names_perm`), and it puts them behind these when the record type is new, so that names
stand in the order in which they first occur. A schema knows a record type by its fields without
their order, though, and shows it as it was first registered. So the order is another one when a
turn comes to a record type that was registered earlier, by whatever value, with its fields in
another order (`Turn.Reorders`). This is the only exception: names are in the order of first
occurrence after every row exactly if no turn is one of these (`inOrderAfter_iff`).
-/
import JsonLines.Proofs.Coercion.RowValues
import JsonLines.Proofs.Dataset.TypeTexts
import JsonLines.Proofs.Schema.UnionOrder

namespace JsonLines

open Json

variable {s : Schema} {node : Node} {cell : Cell} {old row : List String}

/-! ## First occurrences -/

/-- The names of the members of an object, in the order of the text. Other values have none. -/
def Json.Node.memberNames : Node → List String
  | .object _ members => members.filterMap fun member => member.1.name?
  | _ => []

theorem eraseDups_of_nodup {α : Type} [BEq α] [LawfulBEq α] {l : List α} (h : l.Nodup) :
    l.eraseDups = l := by
  induction l with
  | nil => rfl
  | cons a l ih =>
    obtain ⟨ha, hl⟩ := List.nodup_cons.mp h
    have hkeep : l.filter (fun b => !b == a) = l := by
      refine List.filter_eq_self.mpr fun b hb => ?_
      have hne : b ≠ a := fun heq => ha (heq ▸ hb)
      simpa using hne
    rw [List.eraseDups_cons, hkeep, ih hl]

/-- The first occurrences in one list and then another, which repeats nothing itself. -/
theorem eraseDups_append_of_nodup {α : Type} [BEq α] [LawfulBEq α] {as bs : List α}
    (h : bs.Nodup) : (as ++ bs).eraseDups = as.eraseDups ++ bs.removeAll as.eraseDups := by
  have heq : bs.removeAll as.eraseDups = bs.removeAll as := by
    refine List.filter_congr fun b _ => congrArg _ ?_
    rw [Bool.eq_iff_iff, List.elem_iff, List.elem_iff, List.mem_eraseDups]
  have hnodup : (bs.removeAll as).Nodup := h.filter _
  rw [List.eraseDups_append, eraseDups_of_nodup hnodup, heq]

/-! ## The record type of an object -/

theorem ScannedMembers.map_name {members : List (Key × Node)} {cells : List (NameId × Cell)}
    (h : ScannedMembers s members cells) : cells.map (fun entry => s.name entry.1) =
      members.filterMap fun member => member.1.name? := by
  induction members generalizing cells with
  | nil =>
    simp only [ScannedMembers] at h
    rw [h]
    rfl
  | cons member members ih =>
    obtain ⟨id, c, cs, name, rfl, hkey, hid, -, hcs⟩ := h
    rw [List.map_cons, ih hcs, List.filterMap_cons, hkey, Schema.name, hid]
    rfl

/-- The type of a value lists the names of its members, in some order. -/
theorem Scanned.perm_memberNames (h : Scanned s node cell) :
    (s.fieldNames cell.type).Perm node.memberNames := by
  have hother : ∀ {type : TypeId}, s.fields? type = none →
      (s.fieldNames type).Perm ([] : List String) := fun hnone =>
    .of_eq (Schema.fieldNames_eq_nil hnone)
  cases node with
  | object span members =>
    obtain ⟨type, cells, fields, rfl, hmembers, -, hget, hperm⟩ := h
    have hnames : s.fieldNames type = fields.map fun f => s.name f.name := by
      rw [Schema.fieldNames, Schema.fieldIds_of_fields? (Schema.fields?_eq_some_iff.mpr hget),
        List.map_map]
      rfl
    rw [Cell.type, hnames, Node.memberNames, ← hmembers.map_name]
    have hcells := (hperm.map fun f => s.name f.name).symm
    rwa [Cell.memberFields, List.map_map] at hcells
  | array span items =>
    obtain ⟨type, cells, element, rfl, -, hget, -⟩ := h
    refine hother ?_
    rw [Cell.type, Schema.fields?, hget]
    rfl
  | number span numeral =>
    obtain rfl : cell = _ := h
    rw [Cell.type]
    split <;> exact hother rfl
  | _ =>
    obtain rfl : cell = _ := h
    exact hother rfl

/-! ## Turns -/

/-- What loading has at hand when it joins a row: the contents of the rows before it, the schema
when the parts of the row are known but not yet the row, and the cell of the row with the schema
that knows its type. -/
structure Turn where
  before : Contents
  inner : Schema
  schema : Schema
  cell : Cell

namespace Turn

/-- The type that covers the row and those before it, and the schema that knows it. -/
def joined (t : Turn) : TypeId × Schema := t.schema.union t.before.type t.cell.type

/-- The turn comes to a record type that was registered earlier, with the names in another order.
Either the union is such a type; or the union is new, and its new names are listed as by the type of
the row, which was known before the row had a type. Here `old` are the names so far and `row` those
of the row. -/
def Reorders (t : Turn) (old row : List String) : Prop :=
  if t.schema.Knows t.joined.1 then
    t.schema.fieldNames t.joined.1 ≠ old ++ row.removeAll old
  else
    t.inner.Knows t.cell.type ∧
      (t.inner.fieldNames t.cell.type).removeAll old ≠ row.removeAll old

instance (t : Turn) (old row : List String) : Decidable (t.Reorders old row) := by
  unfold Reorders
  infer_instance

/-- What a turn finds when the rows before it are loaded. -/
structure Sound (t : Turn) (node : Node) : Prop where
  wellFormed : t.schema.WellFormed
  named : t.schema.FieldsNamed
  named_before : t.before.schema.FieldsNamed
  extended : t.before.schema.Extends t.schema
  knows : t.before.schema.Knows t.before.type
  scanned : Scanned t.schema node t.cell
  /-- A type of the row that is found lists its names as it did before. -/
  found : t.inner.Knows t.cell.type →
    t.schema.fieldNames t.cell.type = t.inner.fieldNames t.cell.type
  /-- A new one lists them in the order of the text. -/
  new : ¬ t.inner.Knows t.cell.type → t.schema.fieldNames t.cell.type = node.memberNames

variable {t : Turn}

theorem Sound.joins (h : t.Sound node) :
    t.schema.Joins t.before.type t.cell.type t.joined :=
  Schema.joins_union h.wellFormed (h.extended.knows h.knows) h.scanned.knows

theorem Sound.fieldNames_before (h : t.Sound node) :
    t.schema.fieldNames t.before.type = t.before.schema.fieldNames t.before.type :=
  h.extended.fieldNames_eq h.named_before h.knows

theorem Sound.nodup_memberNames (h : t.Sound node) : node.memberNames.Nodup :=
  h.scanned.perm_memberNames.nodup_iff.mp (Schema.nodup_fieldNames h.wellFormed h.named)

theorem Sound.listsUnion (h : t.Sound node) (hlisted : t.joined.2.Listed t.joined.1) :
    t.schema.ListsUnion t.before.type t.cell.type t.joined :=
  Schema.listsUnion h.wellFormed (h.extended.knows h.knows) h.scanned.knows hlisted

theorem Sound.namesUnion (h : t.Sound node) (hlisted : t.joined.2.Listed t.joined.1) :
    t.schema.NamesUnion t.before.type t.cell.type t.joined :=
  (h.listsUnion hlisted).namesUnion h.named h.joins.extended

/-- A record type before the turn, if there is one after it that is not made of the row alone. -/
theorem Sound.listed_before (h : t.Sound node) (hlisted : t.joined.2.Listed t.joined.1) :
    t.before.schema.Listed t.before.type := by
  refine (h.listsUnion hlisted).left.imp_right ?_
  rintro ⟨fields, hfields⟩
  obtain ⟨type, htype⟩ := Schema.exists_get? h.knows
  cases (h.extended.types _ _ htype).symm.trans (Schema.fields?_eq_some_iff.mp hfields)
  exact ⟨fields, Schema.fields?_eq_some_iff.mpr htype⟩

/-- A turn adds the names of the row that are new, and no others. -/
theorem Sound.names_perm (h : t.Sound node) (hlisted : t.joined.2.Listed t.joined.1)
    (hold : (t.before.schema.fieldNames t.before.type).Perm old) :
    (t.joined.2.fieldNames t.joined.1).Perm (old ++ node.memberNames.removeAll old) := by
  have hperm := (h.namesUnion hlisted).perm
  rw [h.fieldNames_before] at hperm
  exact hperm.trans (hold.append (removeAll_perm hold h.scanned.perm_memberNames))

/-- **A turn keeps the order of first occurrence** exactly if it comes to no record type that was
registered earlier with the names in another order. -/
theorem Sound.not_reorders_iff (h : t.Sound node) (hlisted : t.joined.2.Listed t.joined.1)
    (hold : t.before.schema.fieldNames t.before.type = old) : ¬ t.Reorders old node.memberNames ↔
      t.joined.2.fieldNames t.joined.1 = old ++ node.memberNames.removeAll old := by
  unfold Reorders
  by_cases hknows : t.schema.Knows t.joined.1
  · rw [if_pos hknows, h.joins.extended.fieldNames_eq h.named hknows, not_ne_iff]
  · have hnone : t.schema.fields? t.joined.1 = none := by
      rw [Option.eq_none_iff_forall_ne_some]
      exact fun fields hfields =>
        hknows (Schema.knows_of_get? (Schema.fields?_eq_some_iff.mp hfields))
    have hnew := (h.namesUnion hlisted).new hnone
    rw [h.fieldNames_before, hold] at hnew
    rw [if_neg hknows, hnew, List.append_cancel_left_eq]
    by_cases hrow : t.inner.Knows t.cell.type
    · rw [h.found hrow, and_iff_right hrow, not_ne_iff]
    · rw [h.new hrow]
      simp [hrow]

end Turn

/-! ## Loading in turns -/

namespace Contents

variable {source : ByteSource} {limits : Config.Limits} {g g' : Gathering} {first last : List Pick}

theorem addAll_append_eq_ok_iff : g.addAll source limits (first ++ last) = .ok g' ↔
    ∃ mid, g.addAll source limits first = .ok mid ∧ mid.addAll source limits last = .ok g' := by
  induction first generalizing g with
  | nil => simp [Gathering.addAll]
  | cons pick first ih =>
    simp only [List.cons_append, addAll_cons_eq_ok_iff, ih]
    constructor
    · rintro ⟨next, hstep, mid, hfirst, hlast⟩
      exact ⟨mid, ⟨next, hstep, hfirst⟩, hlast⟩
    · rintro ⟨mid, ⟨next, hstep, hfirst⟩, hlast⟩
      exact ⟨next, hstep, mid, hfirst, hlast⟩

theorem fieldsNamed_gather {picks : List Pick} {c : Contents}
    (h : gather source limits picks = .ok c) : c.schema.FieldsNamed := by
  have hgrows : Schema.empty.Grows (fun _ => True) c.schema :=
    grows_gather (fun _ _ _ _ _ _ _ _ => trivial) h
  exact hgrows.fieldsNamed Schema.fieldsNamed_empty

/-- The schema when the members of an object are scanned and the object itself has no type yet. Of
any other value it is the schema before. -/
def membersScanned (source : ByteSource) (limits : Config.Limits) (s : Schema) : Node → Schema
  | .object _ members =>
    match decodeNames members with
    | .error _ => s
    | .ok names => (Scanner.scanMembers ⟨limits.maxDepth⟩ source 1 s [] names members).2
  | _ => s

/-- The record type of an object is one that its members have left behind, or it is new and lists
the names in the order of the text. -/
theorem fieldNames_of_scan {span : Span} {members : List (Key × Node)} (hs : s.WellFormed)
    (h : Scanner.scanNode ⟨limits.maxDepth⟩ source 0 s (.object span members) = (.ok cell, t)) :
    let inner := membersScanned source limits s (.object span members)
    (inner.Knows cell.type → t = inner) ∧ (¬ inner.Knows cell.type →
      t.fieldNames cell.type = (Node.object span members).memberNames) := by
  obtain ⟨names, cs, s₁, -, hnames, rfl, hmembers, -, rfl⟩ := Scanner.scanNode_object_cases hs h
  have hscans : ScansMembers s [] members (.ok cs, s₁) :=
    hmembers ▸ scansMembers_scanMembers (fun _ _ _ => scans_scanNode) hnames hs
  have hinner : membersScanned source limits s (.object span members) = s₁ := by
    simp only [membersScanned, hnames]
    rw [hmembers]
  rw [hinner]
  refine ⟨Schema.register_of_knows, fun hnew => ?_⟩
  have hfields := Schema.fields?_eq_some_iff.mpr (Schema.get?_register_of_not_knows hnew)
  have hname : (s₁.record (Cell.memberFields cs)).2.name = s₁.name := by
    funext n
    rw [Schema.name, Schema.name?, Schema.record, Schema.names_register]
    rfl
  rw [Node.memberNames, ← (hscans.scanned cs rfl).map_name, Cell.type, Schema.fieldNames,
    Schema.record, Schema.fieldIds_of_fields? hfields, ← Schema.record, hname, Cell.memberFields,
    List.map_map, List.map_map]
  rfl

/-- A row that is scanned after others were loaded. -/
theorem sound_turn {picks : List Pick} {before : Contents}
    (hbefore : gather source limits picks = .ok before)
    (hscan : Scanner.scanNode ⟨limits.maxDepth⟩ source 0 before.schema node = (.ok cell, s)) :
    Turn.Sound ⟨before, membersScanned source limits before.schema node, s, cell⟩ node := by
  obtain ⟨hgathered, -⟩ := gathered_gather hbefore
  have hwf := hgathered.wellFormed
  have hscans : Scans before.schema node (.ok cell, s) := hscan ▸ scans_scanNode hwf
  have hscanned := hscans.scanned cell rfl
  have hbeforeNamed := fieldsNamed_gather hbefore
  have hgrows : before.schema.Grows (fun _ => True)
      (Scanner.scanNode ⟨limits.maxDepth⟩ source 0 before.schema node).2 :=
    grows_scanNode hwf .refl fun _ _ => trivial
  rw [hscan] at hgrows
  have hrow : ∀ inner : Schema, inner = membersScanned source limits before.schema node →
      (inner.Knows cell.type → s.fieldNames cell.type = inner.fieldNames cell.type) ∧
        (¬ inner.Knows cell.type → s.fieldNames cell.type = node.memberNames) := by
    rintro _ rfl
    cases node with
    | object span members =>
      obtain ⟨hfound, hnew⟩ := fieldNames_of_scan hwf hscan
      exact ⟨fun hknows => by rw [hfound hknows], hnew⟩
    | _ =>
      exact ⟨hscans.extended.fieldNames_eq hbeforeNamed, fun _ => hscanned.perm_memberNames.eq_nil⟩
  exact ⟨hscans.wellFormed, hgrows.fieldsNamed hbeforeNamed, hbeforeNamed, hscans.extended,
    hgathered.knows, hscanned, (hrow _ rfl).1, (hrow _ rfl).2⟩

end Contents

namespace View

variable {root : View} {source : ByteSource} {config : Config} {k : Nat} {t : Turn}
  {c after : Contents} {value : Option Node}

/-- The records of a source as loading picks them. -/
def recordPicks (root : View) : List Pick := Contents.picksFrom 1 root.records

/-- The contents when some rows are loaded. -/
def contentsAfter (root : View) (k : Nat) : Except Error Contents :=
  Contents.gather root.source root.config.limits (root.recordPicks.take k)

/-- The turn of the row at an index, which counts from zero. -/
def turn? (root : View) (k : Nat) : Option Turn :=
  match root.contentsAfter k, root.records[k]?.map (Scanner.readTree root.source) with
  | .ok before, some (.ok node) =>
    match Scanner.scanNode ⟨root.config.limits.maxDepth⟩ root.source 0 before.schema node with
    | (.ok cell, schema) =>
      some ⟨before, Contents.membersScanned root.source root.config.limits before.schema node,
        schema, cell⟩
    | (.error _, _) => none
  | _, _ => none

/-- The names in a row, in the order of the text. -/
def rowNames (value : Option Node) : List String := (value.map Node.memberNames).getD []

/-- The names in the row at an index. -/
def namesAt (root : View) (k : Nat) : List String := (root.values[k]?.map rowNames).getD []

/-- The names in the first rows, in the order in which they first occur. -/
def firstNames (root : View) (k : Nat) : List String :=
  ((root.values.take k).flatMap rowNames).eraseDups

/-- The turn of a row comes to a record type that was registered earlier in another order. -/
def Reorders (root : View) (k : Nat) : Prop :=
  ∃ t ∈ root.turn? k, t.Reorders (root.firstNames k) (root.namesAt k)

instance (root : View) (k : Nat) : Decidable (root.Reorders k) :=
  inferInstanceAs (Decidable (∃ t ∈ root.turn? k, _))

/-- When some rows are loaded, their names are listed in the order of first occurrence. -/
def InOrderAfter (root : View) (k : Nat) : Prop :=
  ∃ c, root.contentsAfter k = .ok c ∧ c.schema.fieldNames c.type = root.firstNames k

theorem firstNames_succ (h : root.values[k]? = some value) (hnodup : (rowNames value).Nodup) :
    root.firstNames (k + 1) =
      root.firstNames k ++ (rowNames value).removeAll (root.firstNames k) := by
  rw [firstNames, List.take_add_one, h, List.flatMap_append, Option.toList_some,
    List.flatMap_singleton, eraseDups_append_of_nodup hnodup]
  rfl

/-- The turn of a row, the value of the row and the contents after it. -/
structure TakesTurn (root : View) (k : Nat) (t : Turn) (node : Node) (after : Contents) :
    Prop where
  turn_eq : root.turn? k = some t
  scan_eq : Scanner.scanNode ⟨root.config.limits.maxDepth⟩ root.source 0 t.before.schema node =
    (.ok t.cell, t.schema)
  sound : t.Sound node
  value_eq : root.values[k]? = some (some node)
  before_eq : root.contentsAfter k = .ok t.before
  after_eq : root.contentsAfter (k + 1) = .ok after
  schema_eq : after.schema = t.joined.2
  type_eq : after.type = t.joined.1

theorem gather_recordPicks (hroot : load source config = .ok root) :
    Contents.gather root.source root.config.limits root.recordPicks = .ok root.contents := by
  obtain ⟨contents, hload, rfl⟩ := load_eq_ok_iff.mp hroot
  exact hload

/-- After all rows the contents are those of the dataset. -/
theorem contentsAfter_rowCount (hroot : load source config = .ok root) :
    root.contentsAfter root.rowCount = .ok root.contents := by
  have hgather := gather_recordPicks hroot
  have hlength := (Contents.gathered_gather hgather).1.images.length_eq
  rw [contentsAfter, rowCount, rows, ← Array.length_toList, ← hlength, List.take_length]
  exact hgather

/-- A row that is loaded has its turn. -/
theorem exists_takesTurn (hroot : load source config = .ok root) (hk : k < root.rowCount) :
    ∃ t node after, root.TakesTurn k t node after := by
  have hi : root.HasRow (k + 1) := ⟨Nat.le_add_left 1 k, hk⟩
  obtain ⟨span, node, hspan, hread, hvalue⟩ := valueAt_root hroot hi
  have hvalues := getElem?_values hi
  rw [Nat.add_sub_cancel] at hspan hvalues
  have hpick : root.recordPicks[k]? = some ⟨some span, 1 + k⟩ := by
    rw [recordPicks, getElem?_picksFrom, hspan]
    rfl
  obtain ⟨g, hall, -⟩ := Contents.gather_eq_ok_iff.mp (gather_recordPicks hroot)
  have hsucc : root.recordPicks.take (k + 1) =
      root.recordPicks.take k ++ [⟨some span, 1 + k⟩] := by
    rw [List.take_add_one, hpick, Option.toList_some]
  -- The run up to the row, and the step of the row.
  rw [← List.take_append_drop (k + 1) root.recordPicks, hsucc, List.append_assoc,
    Contents.addAll_append_eq_ok_iff] at hall
  obtain ⟨mid, hmid, hrest⟩ := hall
  obtain ⟨next, hadd, -⟩ := Contents.addAll_cons_eq_ok_iff.mp hrest
  have hbefore : root.contentsAfter k = .ok ⟨mid.schema, mid.store.rows, mid.type⟩ :=
    Contents.gather_eq_ok_iff.mpr ⟨mid, hmid, rfl⟩
  have hafter : root.contentsAfter (k + 1) = .ok ⟨next.schema, next.store.rows, next.type⟩ := by
    rw [contentsAfter, hsucc]
    refine Contents.gather_eq_ok_iff.mpr ⟨next, ?_, rfl⟩
    exact Contents.addAll_append_eq_ok_iff.mpr
      ⟨mid, hmid, Contents.addAll_cons_eq_ok_iff.mpr ⟨next, hadd, rfl⟩⟩
  obtain ⟨cell, s, store, hscan, -, rfl⟩ := Contents.add_eq_ok_iff.mp hadd
  simp only [Pick.scan, Scanner.scan, hread] at hscan
  refine ⟨⟨_, _, s, cell⟩, node, _, ?_, hscan, Contents.sound_turn hbefore hscan,
    hvalues.trans (congrArg some hvalue), hbefore, hafter, rfl, rfl⟩
  simp only [turn?, hbefore, hspan, Option.map_some, hread, hscan]

/-- The first rows of a dataset can be loaded. -/
theorem exists_contentsAfter (hroot : load source config = .ok root) (hk : k ≤ root.rowCount) :
    ∃ c, root.contentsAfter k = .ok c := by
  rcases Nat.lt_or_eq_of_le hk with hk | rfl
  · obtain ⟨t, node, after, hturn⟩ := exists_takesTurn hroot hk
    exact ⟨_, hturn.before_eq⟩
  · exact ⟨_, contentsAfter_rowCount hroot⟩

theorem TakesTurn.namesAt_eq (h : root.TakesTurn k t node after) :
    root.namesAt k = node.memberNames := by
  rw [namesAt, h.value_eq]
  rfl

theorem TakesTurn.firstNames_succ (h : root.TakesTurn k t node after) :
    root.firstNames (k + 1) =
      root.firstNames k ++ node.memberNames.removeAll (root.firstNames k) :=
  View.firstNames_succ h.value_eq h.sound.nodup_memberNames

/-! ## All turns -/

/-- The fields of a record type are named by what occurs in the rows so far. -/
theorem perm_firstNames (hroot : load source config = .ok root) (hk : k ≤ root.rowCount)
    (hc : root.contentsAfter k = .ok c) (hlisted : c.schema.Listed c.type) :
    (c.schema.fieldNames c.type).Perm (root.firstNames k) := by
  induction k generalizing c with
  | zero =>
    obtain ⟨g, hg, rfl⟩ := Contents.gather_eq_ok_iff.mp hc
    cases hg
    exact .refl _
  | succ k ih =>
    obtain ⟨t, node, after, hturn⟩ := exists_takesTurn hroot hk
    cases hturn.after_eq.symm.trans hc
    rw [hturn.schema_eq, hturn.type_eq] at hlisted ⊢
    have hbefore := ih (Nat.le_of_succ_le hk) hturn.before_eq (hturn.sound.listed_before hlisted)
    rw [hturn.firstNames_succ]
    exact hturn.sound.names_perm hlisted hbefore

/-- What holds when all rows are loaded, and before each turn if it holds after it, holds when some
rows are loaded. -/
theorem contentsAfter_back {P : Contents → Prop} (hroot : load source config = .ok root)
    (hall : P root.contents)
    (hturn : ∀ k t node after, root.TakesTurn k t node after → P after → P t.before)
    (hk : k ≤ root.rowCount) (hc : root.contentsAfter k = .ok c) : P c := by
  obtain ⟨more, hmore⟩ := Nat.exists_eq_add_of_le hk
  induction more generalizing k c with
  | zero =>
    rw [Nat.add_zero] at hmore
    cases hc.symm.trans (hmore ▸ contentsAfter_rowCount hroot)
    exact hall
  | succ more ih =>
    obtain ⟨t, node, after, htakes⟩ := exists_takesTurn hroot (show k < root.rowCount by omega)
    cases htakes.before_eq.symm.trans hc
    have hafter : P after := ih (show k + 1 ≤ root.rowCount by omega) htakes.after_eq (by omega)
    exact hturn _ _ _ _ htakes hafter

/-- If a dataset is made of records, its first rows are null or make up records as well. -/
theorem listed_contentsAfter (hroot : load source config = .ok root)
    (hlisted : root.contents.schema.Listed root.contents.type) (hk : k ≤ root.rowCount)
    (hc : root.contentsAfter k = .ok c) : c.schema.Listed c.type := by
  refine contentsAfter_back (P := fun c => c.schema.Listed c.type) hroot hlisted
    (fun k t node after hturn h => ?_) hk hc
  rw [hturn.schema_eq, hturn.type_eq] at h
  exact hturn.sound.listed_before h

/-- **One turn**: the names stay in order exactly if the turn does not reorder them. -/
theorem InOrderAfter.succ_iff (h : root.InOrderAfter k) (hroot : load source config = .ok root)
    (hlisted : root.contents.schema.Listed root.contents.type) (hk : k < root.rowCount) :
    root.InOrderAfter (k + 1) ↔ ¬ root.Reorders k := by
  obtain ⟨t, node, after, hturn⟩ := exists_takesTurn hroot hk
  obtain ⟨c, hc, horder⟩ := h
  cases hturn.before_eq.symm.trans hc
  have hafter := listed_contentsAfter hroot hlisted hk hturn.after_eq
  rw [hturn.schema_eq, hturn.type_eq] at hafter
  have hreorders : root.Reorders k ↔ t.Reorders (root.firstNames k) node.memberNames := by
    rw [Reorders, hturn.turn_eq, hturn.namesAt_eq]
    simp
  rw [hreorders, hturn.sound.not_reorders_iff hafter horder, ← hturn.firstNames_succ,
    ← hturn.schema_eq, ← hturn.type_eq, InOrderAfter, hturn.after_eq]
  simp

/-- **Names stand in the order of first occurrence** as long as no turn reorders them. -/
theorem inOrderAfter (hroot : load source config = .ok root)
    (hlisted : root.contents.schema.Listed root.contents.type) (hk : k ≤ root.rowCount)
    (h : ∀ j < k, ¬ root.Reorders j) : root.InOrderAfter k := by
  induction k with
  | zero => exact ⟨_, rfl, rfl⟩
  | succ k ih =>
    have hbefore := ih (Nat.le_of_succ_le hk) fun j hj => h j (Nat.lt_succ_of_lt hj)
    exact (hbefore.succ_iff hroot hlisted hk).mpr (h k (Nat.lt_succ_self k))

/-- They stand in that order after every row only then. -/
theorem inOrderAfter_iff (hroot : load source config = .ok root)
    (hlisted : root.contents.schema.Listed root.contents.type) :
    (∀ k ≤ root.rowCount, root.InOrderAfter k) ↔ ∀ k < root.rowCount, ¬ root.Reorders k := by
  constructor
  · intro h k hk
    exact ((h k hk.le).succ_iff hroot hlisted hk).mp (h (k + 1) hk)
  · intro h k hk
    exact inOrderAfter hroot hlisted hk fun j hj => h j (Nat.lt_of_lt_of_le hj hk)

end View

end JsonLines
