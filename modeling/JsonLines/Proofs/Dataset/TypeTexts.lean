/-
JsonLines.Proofs.Dataset.TypeTexts — the types of a dataset are told apart by their texts.

A record type takes the names of its fields from the members of a scanned object, which were
interned just before, or from the fields of two records that are joined. So all schemas of datasets
know the names of their fields (`Schema.Grows.fieldsNamed`), and no two of their types are shown
alike.
-/
import JsonLines.Proofs.Dataset.ViewTypes
import JsonLines.Proofs.Schema.Rendering

namespace JsonLines

namespace Schema

variable {s t : Schema} {c : Composite} {n : NameId} {fields others : List Field}

theorem Remembers.isSome_name? (h : s.Remembers t) (hn : (s.name? n).isSome) :
    (t.name? n).isSome := by
  obtain ⟨more, hmore⟩ := h
  rw [isSome_name?_iff] at hn ⊢
  rw [hmore, Array.size_append]
  omega

theorem fieldsNamed_empty : empty.FieldsNamed := fun _ _ h => by
  simp [get?_composite_iff, empty] at h

/-- New names leave the old ones known. -/
theorem FieldsNamed.intern (hs : s.FieldsNamed) (name : String) :
    (s.intern name).2.FieldsNamed := by
  have hcomposites : (s.intern name).2.composites = s.composites := by
    cases hfind : s.nameId? name with
    | some n => rw [intern_of_nameId?_eq_some hfind]
    | none => rw [intern_of_nameId?_eq_none hfind, addName]
  intro id c h n hn
  rw [get?_composite_iff, hcomposites, ← get?_composite_iff] at h
  exact (remembers_intern s name).isSome_name? (hs id c h n hn)

/-- A type over known names. -/
theorem FieldsNamed.register (hs : s.FieldsNamed) (hc : ∀ n ∈ c.names, (s.name? n).isSome) :
    (s.register c).2.FieldsNamed := by
  cases hfind : s.find? c with
  | some id =>
    rw [register_of_find?_eq_some hfind]
    exact hs
  | none =>
    rw [register_of_find?_eq_none hfind]
    intro id d h n hn
    rw [get?_addType] at h
    split at h
    · cases h
      exact hc n hn
    · exact hs id d h n hn

theorem JoinedInTurn.fieldsNamed {R : Schema → TypeId → TypeId → TypeId × Schema → Prop}
    {r : List Field × Schema} (h : JoinedInTurn R others s fields r)
    (hR : ∀ {s a b r}, R s a b r → s.FieldsNamed → r.2.FieldsNamed) (hs : s.FieldsNamed) :
    r.2.FieldsNamed := by
  induction h with
  | nil => exact hs
  | lacking _ _ ih => exact ih hs
  | shared _ hjoined _ ih => exact ih (hR hjoined hs)

/-- Joined records take the names of their fields from both. -/
theorem FieldsNamed.unionWithin {depth : Nat} {a b : TypeId} {r : TypeId × Schema}
    (h : unionWithin depth s a b = some r) (hs : s.FieldsNamed) : r.2.FieldsNamed := by
  induction depth generalizing s a b r with
  | zero => cases h
  | succ depth ih =>
    cases s.unionStep a b with
    | settled c _ hstep =>
      rw [hstep depth s rfl rfl] at h
      cases h
      exact hs
    | arrays p q _ _ hstep =>
      rw [hstep depth s rfl rfl] at h
      obtain ⟨element, helement, rfl⟩ := Option.map_eq_some_iff.mp h
      exact (ih helement hs).register (by simp [Composite.names])
    | records fs gs hfs hgs hstep =>
      rw [hstep depth s rfl rfl] at h
      obtain ⟨joined, hjoined, rfl⟩ := Option.map_eq_some_iff.mp h
      have hturn := joinFields_eq_some_iff.mp hjoined
      refine (hturn.fieldsNamed ih hs).register fun n hn => ?_
      rw [name?, hturn.names_eq names_unionWithin, ← name?]
      rw [Composite.names, List.map_append, List.mem_append, hturn.map_name_eq, names_onlyIn] at hn
      rcases hn with hn | hn
      · exact hs _ _ hfs n hn
      · exact hs _ _ hgs n (List.mem_filter.mp hn).1

theorem FieldsNamed.union (hs : s.FieldsNamed) (a b : TypeId) : (s.union a b).2.FieldsNamed := by
  rcases s.union_cases a b with h | h
  · exact FieldsNamed.unionWithin h hs
  · rw [h]
    exact hs

/-- **A schema that grows keeps knowing the names of its fields.** -/
theorem Grows.fieldsNamed {P : String → Prop} (h : s.Grows P t) (hs : s.FieldsNamed) :
    t.FieldsNamed := by
  induction h with
  | refl => exact hs
  | intern _ _ ih => exact ih.intern _
  | union a b _ ih => exact ih.union a b
  | register _ hnames ih => exact ih.register hnames

end Schema

namespace View

variable {root v : View} {source : ByteSource} {config : Config}

/-- **No two types of a dataset are shown alike**: over every chain of views, the texts of two types
on one line are equal when the types are, and so are those on several lines; and the two texts of a
type differ in blanks outside the quoted names alone. -/
theorem types_shown_apart (hroot : load source config = .ok root) (h : root.Chain v) :
    v.schema.RendersApart := by
  obtain ⟨picks, hgather⟩ := exists_gather hroot h
  have hgrows : Schema.empty.Grows (fun _ => True) v.schema :=
    Contents.grows_gather (fun _ _ _ _ _ _ _ _ => trivial) hgather
  exact Schema.rendersApart (sound_of_gather hgather).wellFormed
    (hgrows.fieldsNamed Schema.fieldsNamed_empty)

/-- Records of names that look like the text of a type, and of fields that some records lack. -/
def deceptiveNames : ByteSource :=
  .ofString ("\x7b\"a\\\": integer, \\\"b\":1\x7d\n\x7b\"a\":1,\"b\":2\x7d\n" ++
    "\x7b\"a\":[\x7b\"b\":null\x7d]\x7d\n")

theorem types_shown_apart_deceptiveNames : ∃ root, load deceptiveNames {} = .ok root ∧
    root.schema.display ⟨6⟩ = "\x7b\"a\\\": integer, \\\"b\": integer\x7d" ∧
    root.schema.display ⟨7⟩ = "\x7b\"a\": integer, \"b\": integer\x7d" ∧
    root.schema.RendersApart := by
  have hrun : ((load deceptiveNames {}).toOption.map fun root =>
      (root.schema.display ⟨6⟩, root.schema.display ⟨7⟩)) =
      some ("\x7b\"a\\\": integer, \\\"b\": integer\x7d",
        "\x7b\"a\": integer, \"b\": integer\x7d") := by decide +kernel
  obtain ⟨root, hload, htexts⟩ := Option.map_eq_some_iff.mp hrun
  obtain ⟨hfirst, hsecond⟩ := Prod.mk.inj htexts
  have hroot := eq_ok_of_toOption hload
  exact ⟨root, hroot, hfirst, hsecond, types_shown_apart hroot .refl⟩

end View

end JsonLines
