/-
JsonLines.Proofs.Schema.Repetition — what a schema has done once it does again without growing.

Interning a name, registering a type and joining two types leave behind everything that they came
upon. Done again, in any later schema, they find it all: the answer is the same number and nothing is
added. For a union this takes an induction along its recursion, because it may have registered
types at every level of the two, and not only the one that it returned (`unionWithin_again`).
-/
import JsonLines.Proofs.Schema.Canonicity

namespace JsonLines.Schema

variable {s u : Schema} {a b id : TypeId} {n : NameId} {c d : Composite} {name : String}
  {fields others : List Field}

/-! ## Names and composite types -/

/-- A name that is known is found. -/
theorem intern_of_name? (h : s.name? n = some name) : s.intern name = (n, s) :=
  intern_of_nameId?_eq_some (nameId?_eq_some_iff.mpr h)

/-- A type that is known is found. -/
theorem register_of_get? (h : s.get? id = some (.composite d)) (hsame : c.same d) :
    s.register c = (id, s) :=
  register_of_find?_eq_some (find?_eq_some_iff.mpr ⟨d, h, hsame⟩)

theorem Interns.again {r : NameId × Schema} (h : s.Interns name r) (hext : r.2.Extends u) :
    u.intern name = (r.1, u) :=
  intern_of_name? (hext.names _ _ h.found)

theorem Registers.again {r : TypeId × Schema} (h : s.Registers c r) (hext : r.2.Extends u) :
    u.register c = (r.1, u) := by
  obtain ⟨d, hget, hsame⟩ := h.found
  exact register_of_get? (hext.types _ _ hget) hsame

/-! ## Unions -/

/-- Fields are joined again to the same fields, given that their types are. -/
theorem JoinedInTurn.again {R R' : Schema → TypeId → TypeId → TypeId × Schema → Prop}
    {r : List Field × Schema} (h : JoinedInTurn R others s fields r)
    (hjoin : ∀ {s : Schema} {f g : Field} {r : TypeId × Schema}, s.WellFormed → f ∈ fields →
      s.Knows f.type → s.Knows g.type → R s f.type g.type r → s.Joins f.type g.type r)
    (hagain : ∀ {s : Schema} {f g : Field} {r : TypeId × Schema}, s.WellFormed → f ∈ fields →
      s.Knows f.type → s.Knows g.type → R s f.type g.type r → r.2.Extends u →
        R' u f.type g.type (r.1, u))
    (hs : s.WellFormed) (hf : ∀ f ∈ fields, s.Knows f.type) (ho : ∀ g ∈ others, s.Knows g.type)
    (hext : r.2.Extends u) : JoinedInTurn R' others u fields (r.1, u) := by
  induction h with
  | nil => exact .nil u
  | lacking hlack _ ih =>
    obtain ⟨-, hrest⟩ := List.forall_mem_cons.mp hf
    exact .lacking hlack (ih (fun hs hf => hjoin hs (List.mem_cons_of_mem _ hf))
      (fun hs hf => hagain hs (List.mem_cons_of_mem _ hf)) hs hrest ho hext)
  | @shared s f g fields joined r hfound hjoined hturn ih =>
    obtain ⟨hhead, hrest⟩ := List.forall_mem_cons.mp hf
    have hg := ho _ (Field.mem_of_named? hfound)
    have hj := hjoin hs List.mem_cons_self hhead hg hjoined
    have hrest' : ∀ h ∈ fields, joined.2.Knows h.type :=
      fun h hh => hj.extended.knows (hrest h hh)
    have ho' : ∀ h ∈ others, joined.2.Knows h.type := fun h hh => hj.extended.knows (ho h hh)
    have hjoin' : ∀ {s : Schema} {f g : Field} {r : TypeId × Schema}, s.WellFormed →
        f ∈ fields → s.Knows f.type → s.Knows g.type → R s f.type g.type r →
          s.Joins f.type g.type r :=
      fun hs hf => hjoin hs (List.mem_cons_of_mem _ hf)
    -- The later fields only add to what joining the first one left behind.
    have htail := (hturn.joinsFields hjoin' hj.wellFormed hrest' ho').extended
    exact .shared hfound (hagain hs List.mem_cons_self hhead hg hjoined (htail.trans hext))
      (ih hjoin' (fun hs hf => hagain hs (List.mem_cons_of_mem _ hf)) hj.wellFormed hrest' ho'
        hext)

/-- **A union that is taken again registers nothing**, within a bound that its recursion does not
reach. -/
theorem unionWithin_again {depth : Nat} {r : TypeId × Schema} (hs : s.WellFormed)
    (ha : s.Knows a) (hb : s.Knows b) (hdepth : a.index < depth)
    (h : unionWithin depth s a b = some r) (hext : r.2.Extends u) :
    unionWithin depth u a b = some (r.1, u) := by
  induction depth generalizing s a b r with
  | zero => omega
  | succ depth ih =>
    have hsu := (joins_of_unionWithin h hs ha hb hdepth).extended.trans hext
    have hsameA : u.get? a = s.get? a := hsu.get?_eq ha
    have hsameB : u.get? b = s.get? b := hsu.get?_eq hb
    cases s.unionStep a b with
    | settled c _ hstep =>
      rw [hstep depth s rfl rfl] at h
      cases h
      exact hstep depth u hsameA hsameB
    | arrays p q hA hB hstep =>
      have hlt := hs.element_lt hA
      have hp := hs.knows_element hA
      have hq := hs.knows_element hB
      rw [hstep depth s rfl rfl] at h
      obtain ⟨element, helement, rfl⟩ := Option.map_eq_some_iff.mp h
      have hj : s.Joins p q element := joins_of_unionWithin helement hs hp hq (by omega)
      have hr : element.2.Registers (.array element.1) _ :=
        registers_register hj.wellFormed (admits_array hj.knows)
      rw [hstep depth u hsameA hsameB,
        ih hs hp hq (by omega) helement (hr.extended.trans hext), Option.map_some]
      exact congrArg some (hr.again hext)
    | records fs gs hA hB hstep =>
      have hlt := hs.field_lt hA
      rw [hstep depth s rfl rfl] at h
      obtain ⟨joined, hjoined, rfl⟩ := Option.map_eq_some_iff.mp h
      have hturn := joinFields_eq_some_iff.mp hjoined
      have hjoin : ∀ {s : Schema} {f g : Field} {r : TypeId × Schema}, s.WellFormed → f ∈ fs →
          s.Knows f.type → s.Knows g.type → unionWithin depth s f.type g.type = some r →
            s.Joins f.type g.type r :=
        fun hs hf hkf hkg hr => joins_of_unionWithin hr hs hkf hkg (by have := hlt _ hf; omega)
      have hj := hturn.joinsFields hjoin hs (hs.knows_field hA) (hs.knows_field hB)
      have hr : joined.2.Registers (.record (joined.1 ++ onlyIn gs fs)) _ :=
        registers_register hj.wellFormed
          (hj.admits (hs.names_nodup hA) (hs.names_nodup hB) (hs.knows_field hB))
      have hagain : JoinedInTurn (fun s a b r => unionWithin depth s a b = some r) gs u fs
          (joined.1, u) := hturn.again hjoin
        (fun hs hf hkf hkg hr => ih hs hkf hkg (by have := hlt _ hf; omega) hr) hs
        (hs.knows_field hA) (hs.knows_field hB) (hr.extended.trans hext)
      rw [hstep depth u hsameA hsameB, joinFields_eq_some_iff.mpr hagain, Option.map_some]
      exact congrArg some (hr.again hext)

/-- **A union that is taken again registers nothing**, in any later schema. -/
theorem union_again (hs : s.WellFormed) (hu : u.WellFormed) (ha : s.Knows a) (hb : s.Knows b)
    (hext : (s.union a b).2.Extends u) : u.union a b = ((s.union a b).1, u) := by
  have hsu := (joins_union hs ha hb).extended.trans hext
  have hagain : unionWithin s.size u a b = some ((s.union a b).1, u) :=
    unionWithin_again hs ha hb ha (unionWithin_size hs ha hb) hext
  -- A bound above both numbers of types makes the two results comparable.
  have hunion : unionWithin (max s.size u.size) u a b = some (u.union a b) :=
    unionWithin_eq_union hu (hsu.knows ha) (hsu.knows hb) (Nat.le_max_right _ _)
  rw [unionWithin_mono (Nat.le_max_left _ _) hagain] at hunion
  exact (Option.some.inj hunion).symm

end JsonLines.Schema
