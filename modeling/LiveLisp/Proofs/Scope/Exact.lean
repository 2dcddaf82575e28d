/-
  Exact counts. `Exact s held` says that the count of every record is the number of those who hold
  it: `held` lists the holders outside the store, with repetition, and the records themselves hold
  their parents and the scopes of the values they bind. Nobody holds a ticket without a record.

  Each operation of the store is specified by what it does to `held` and to what the records say.
  Releasing may remove records, so what the records say afterwards is a part (`Within`) of what they
  said before, and what is gone hung on no cycle (`Remains`); `dropAll_exact`, by the recursion of
  `dropAll`, carries all of it.
-/
import LiveLisp.Proofs.Scope.WellFormed

namespace LiveLisp

/-- What the tickets of a store stand for. -/
abbrev View := Ticket → Option Scope

namespace View

/-- Everything that `f` knows, `g` knows too. -/
def Within (f g : View) : Prop :=
  ∀ t sc, f t = some sc → g t = some sc

theorem Within.refl (f : View) : Within f f := fun _ _ h => h

theorem Within.trans {f g h : View} (hfg : Within f g) (hgh : Within g h) : Within f h :=
  fun t sc hf => hgh t sc (hfg t sc hf)

theorem Within.of_eq {f g : View} (h : ∀ t, f t = g t) : Within f g := by
  intro t sc hf
  rw [← h, hf]

/-- With a name bound in one scope. -/
def bind (f : View) (t : Ticket) (name : String) (v : Value) : View := fun u =>
  if u = t then (f t).map fun sc => { sc with bindings := sc.bindings.put name v } else f u

/-- With one scope more. -/
def add (f : View) (t : Ticket) (sc : Scope) : View := fun u =>
  if u = t then some sc else f u

theorem Within.bind {f g : View} (h : Within f g) (t : Ticket) (name : String) (v : Value) :
    Within (f.bind t name v) (g.bind t name v) := by
  intro u sc hu
  unfold View.bind at hu ⊢
  split
  · next e =>
    rw [if_pos e] at hu
    obtain ⟨sc', hf, rfl⟩ := Option.map_eq_some_iff.mp hu
    rw [h t sc' hf]
    rfl
  · next e =>
    rw [if_neg e] at hu
    exact h u sc hu

theorem bind_add (f : View) (t : Ticket) (bound : NameMap Value)
    (parent : Option Ticket) (name : String) (v : Value) :
    (f.add t ⟨bound, parent⟩).bind t name v = f.add t ⟨bound.put name v, parent⟩ := by
  funext u
  unfold View.bind add
  split <;> simp

/-- The nearest scope from `t` outwards that binds a name, or none. -/
inductive Owns (f : View) (name : String) : Ticket → Option Ticket → Prop
  | here {t : Ticket} {sc : Scope} (h : f t = some sc) (hc : sc.bindings.contains name = true) :
      Owns f name t (some t)
  | outward {t p : Ticket} {sc : Scope} {o : Option Ticket} (h : f t = some sc)
      (hc : sc.bindings.contains name = false) (hp : sc.parent = some p) (ho : Owns f name p o) :
        Owns f name t o
  | nowhere {t : Ticket} {sc : Scope} (h : f t = some sc) (hc : sc.bindings.contains name = false)
      (hp : sc.parent = none) : Owns f name t none

end View

namespace NameMap

/-- The scopes of all values in a map. -/
def scopes (m : NameMap Value) : List Ticket :=
  m.values.flatMap Value.scopes

@[simp] theorem scopes_nil : scopes [] = [] := rfl

/-- The scopes of the value that a name stands for. -/
def scopesAt (name : String) (m : NameMap Value) : List Ticket :=
  ((m.get? name).map Value.scopes).getD []

/-- Putting an entry in adds what it holds and takes away what the entry held that it displaces. -/
theorem count_flatMap_put {α : Type} (f : α → List Ticket) (u : Ticket) (name : String)
    (a : α) (m : NameMap α) :
    ((m.put name a).values.flatMap f).count u + (((m.get? name).map f).getD []).count u =
      (m.values.flatMap f).count u + (f a).count u := by
  induction m with
  | nil => simp [put, values, get?]
  | cons pair rest ih =>
    obtain ⟨key, b⟩ := pair
    unfold values at ih ⊢
    by_cases h : key = name
    · simp only [put, get?, if_pos h, List.map_cons, List.flatMap_cons, List.count_append,
        Option.map_some, Option.getD_some]
      omega
    · simp only [put, get?, if_neg h, List.map_cons, List.flatMap_cons, List.count_append]
      omega

theorem count_scopes_put (u : Ticket) (name : String) (v : Value) (m : NameMap Value) :
    (scopes (m.put name v)).count u + (scopesAt name m).count u =
    (scopes m).count u + v.scopes.count u :=
  count_flatMap_put Value.scopes u name v m

theorem mem_scopes_put {u : Ticket} {name : String} {v : Value} {m : NameMap Value}
    (h : u ∈ scopes (m.put name v)) : u ∈ scopes m ∨ u ∈ v.scopes := by
  have hc := count_scopes_put u name v m
  rw [← List.count_pos_iff] at h
  rw [← List.count_pos_iff, ← List.count_pos_iff]
  omega

theorem mem_scopes_putAll {u : Ticket} {pairs : List (String × Value)} {m : NameMap Value}
    (h : u ∈ scopes (m.putAll pairs)) : u ∈ scopes m ∨ ∃ pair ∈ pairs, u ∈ pair.2.scopes := by
  induction pairs generalizing m with
  | nil => exact .inl h
  | cons pair rest ih =>
    rcases ih h with hm | ⟨other, hother, hu⟩
    · rcases mem_scopes_put hm with hm | hu
      · exact .inl hm
      · exact .inr ⟨pair, List.mem_cons_self .., hu⟩
    · exact .inr ⟨other, List.mem_cons_of_mem _ hother, hu⟩

theorem mem_values_of_get? {α : Type} {name : String} {a : α} {m : NameMap α}
    (h : m.get? name = some a) :
    a ∈ m.values := by
  induction m with
  | nil => simp [get?] at h
  | cons pair rest ih =>
    obtain ⟨key, b⟩ := pair
    unfold values at ih ⊢
    rw [List.map_cons, List.mem_cons]
    by_cases hk : key = name
    · simp only [get?, if_pos hk, Option.some.injEq] at h
      exact .inl h.symm
    · simp only [get?, if_neg hk] at h
      exact .inr (ih h)

theorem mem_scopes_of_get? {name : String} {v : Value} {m : NameMap Value}
    (h : m.get? name = some v) {u : Ticket} (hu : u ∈ v.scopes) : u ∈ scopes m :=
  List.mem_flatMap.mpr ⟨v, mem_values_of_get? h, hu⟩

theorem mem_scopes_of_mem_scopesAt {name : String} {m : NameMap Value} {u : Ticket}
    (h : u ∈ scopesAt name m) :
    u ∈ scopes m := by
  unfold scopesAt at h
  cases hv : m.get? name with
  | none => simp [hv] at h
  | some v =>
    rw [hv] at h
    exact mem_scopes_of_get? hv h

end NameMap

theorem Record.references_eq (r : Record) :
    r.references = r.parent.toList ++ r.bindings.scopes := rfl

/-! ## Who holds whom -/

/-- What a scope holds: the one around it, and those of the values that it binds. -/
def Scope.references (sc : Scope) : List Ticket :=
  sc.parent.toList ++ sc.bindings.scopes

theorem Scope.mem_references_put {bindings : NameMap Value} {parent : Option Ticket} {name : String}
    {v : Value} {u : Ticket} (h : u ∈ (Scope.mk (bindings.put name v) parent).references) :
    u ∈ (Scope.mk bindings parent).references ∨ u ∈ v.scopes := by
  rcases List.mem_append.mp h with h | h
  · exact .inl (List.mem_append_left _ h)
  · exact (NameMap.mem_scopes_put h).imp_left (List.mem_append_right _)

namespace View

/-- One scope holds another. -/
def Holds (f : View) (t u : Ticket) : Prop :=
  ∃ sc, f t = some sc ∧ u ∈ sc.references

/-- Whatever is held is there. -/
def Closed (f : View) : Prop :=
  ∀ t u, f.Holds t u → ∃ sc, f u = some sc

/-- What is left when scopes go that nobody holds, and after them those that only they held. What
goes has no endless chain of holders, so it hangs on no cycle. -/
structure Remains (f g : View) : Prop where
  within : Within f g
  closed : f.Closed
  gone : ∀ t sc, g t = some sc → f t = none → Acc g.Holds t

namespace Remains

variable {f g h : View}

theorem of_eq (hsame : ∀ t, f t = g t) (hclosed : f.Closed) : Remains f g where
  within := .of_eq hsame
  closed := hclosed
  gone t sc hg hf := by
    rw [hsame, hg] at hf
    cases hf

theorem refl (hclosed : f.Closed) : Remains f f :=
  .of_eq (fun _ => rfl) hclosed

theorem trans (hfg : Remains f g) (hgh : Remains g h) : Remains f h where
  within := hfg.within.trans hgh.within
  closed := hfg.closed
  gone t sc ht hgone := by
    cases hg : g t with
    | none => exact hgh.gone t sc ht hg
    | some sc' =>
      -- a holder has gone before, or holds it still
      have hacc := hfg.gone t sc' hg hgone
      clear ht hgone hg
      induction hacc with
      | intro t _ ih =>
        refine .intro t fun u hu => ?_
        obtain ⟨scu, hscu, hmem⟩ := hu
        cases hgu : g u with
        | none => exact hgh.gone u scu hscu hgu
        | some scg =>
          cases (hgh.within u scg hgu).symm.trans hscu
          exact ih u ⟨scu, hgu, hmem⟩

/-- The same with a name bound in one scope, if what is bound is there. -/
theorem bind (hfg : Remains f g) (t : Ticket) (name : String) {v : Value}
    (hv : ∀ u ∈ v.scopes, ∃ sc, f u = some sc) :
    Remains (f.bind t name v) (g.bind t name v) where
  within := hfg.within.bind t name v
  closed := by
    rintro u w ⟨sc, hsc, hw⟩
    have hlive : ∃ scw, f w = some scw := by
      unfold View.bind at hsc
      split at hsc
      · next e =>
        obtain ⟨old, hold, rfl⟩ := Option.map_eq_some_iff.mp hsc
        rcases Scope.mem_references_put hw with hw | hw
        · exact hfg.closed t w ⟨old, hold, hw⟩
        · exact hv w hw
      · exact hfg.closed u w ⟨sc, hsc, hw⟩
    obtain ⟨scw, hscw⟩ := hlive
    unfold View.bind
    split
    · next e => exact ⟨_, by rw [← e, hscw]; rfl⟩
    · exact ⟨scw, hscw⟩
  gone u sc hsc hgone := by
    have hbefore : ∃ old, g u = some old := by
      unfold View.bind at hsc
      split at hsc
      · next e =>
        obtain ⟨old, hold, -⟩ := Option.map_eq_some_iff.mp hsc
        exact ⟨old, e ▸ hold⟩
      · exact ⟨sc, hsc⟩
    have hnone : f u = none := by
      unfold View.bind at hgone
      split at hgone
      · next e => rw [e, ← Option.map_eq_none_iff.mp hgone]
      · exact hgone
    obtain ⟨old, hold⟩ := hbefore
    have hacc := hfg.gone u old hold hnone
    clear hsc hgone hold
    induction hacc with
    | intro u _ ih =>
      refine .intro u fun w hw => ?_
      -- what has gone is held by nothing that is new, and by nothing that is left
      have hheld : g.Holds w u := by
        obtain ⟨scw, hscw, hmem⟩ := hw
        unfold View.bind at hscw
        split at hscw
        · next e =>
          obtain ⟨old, hold, rfl⟩ := Option.map_eq_some_iff.mp hscw
          rcases Scope.mem_references_put hmem with hmem | hmem
          · exact ⟨old, e ▸ hold, hmem⟩
          · obtain ⟨scu, hscu⟩ := hv u hmem
            cases hnone.symm.trans hscu
        · exact ⟨scw, hscw, hmem⟩
      refine ih w hheld ?_
      cases hfw : f w with
      | none => rfl
      | some scw =>
        obtain ⟨scw', hscw', hmem⟩ := hheld
        cases (hfg.within w scw hfw).symm.trans hscw'
        obtain ⟨scu, hscu⟩ := hfg.closed w u ⟨scw, hfw, hmem⟩
        cases hnone.symm.trans hscu

end Remains

end View

namespace Store

/-! ## Exactness -/

/-- How many references to a ticket the records hold. -/
def incoming (s : Store) (t : Ticket) : Nat :=
  s.weigh (fun r => r.references.count t)

structure Exact (s : Store) (held : List Ticket) : Prop where
  wellFormed : s.WellFormed
  held_live : ∀ t ∈ held, s.contains t
  refs_live : ∀ t r, s.record? t = some r → ∀ u ∈ r.references, s.contains u
  counted : ∀ t r, s.record? t = some r → r.refcount = held.count t + s.incoming t

theorem exact_empty : Exact .empty [] where
  wellFormed := wellFormed_empty
  held_live := by simp
  refs_live := by simp [record?, empty]
  counted := by simp [record?, empty]

/-- Only how often each ticket is held matters. -/
theorem Exact.congr {s : Store} {held held' : List Ticket} (h : Exact s held)
    (hc : ∀ t, held'.count t = held.count t) : Exact s held' where
  wellFormed := h.wellFormed
  held_live := by
    intro t ht
    apply h.held_live t
    rw [← List.count_pos_iff, ← hc, List.count_pos_iff]
    exact ht
  refs_live := h.refs_live
  counted := by
    intro t r hr
    rw [hc]
    exact h.counted t r hr

theorem contains_setRecord {s : Store} {t : Ticket} {r : Record}
    (h : s.record? t = some r) (r' : Record) (u : Ticket) :
    (s.setRecord t r').contains u = s.contains u := by
  unfold contains
  rw [record?_setRecord h]
  split
  · next e => simp [e, h]
  · rfl

theorem contains_free {s : Store} {t : Ticket} {r : Record} (h : s.record? t = some r) {u : Ticket}
    (hu : s.contains u) (hne : u ≠ t) : (s.free t).contains u := by
  unfold contains
  rw [record?_free h, if_neg hne]
  exact hu

/-- Changing a record and the holders together: what the record stops holding, or its count loses,
the holders outside must make up for. -/
theorem Exact.setRecord {s : Store} {held held' : List Ticket} (h : Exact s held)
    {t : Ticket} {r r' : Record} (ht : s.record? t = some r) (hp : r'.parent = r.parent)
    (hheld : ∀ u ∈ held', s.contains u) (hrefs : ∀ u ∈ r'.references, s.contains u)
    (hself : r'.refcount + held.count t + r.references.count t =
      r.refcount + held'.count t + r'.references.count t)
    (hother : ∀ u, u ≠ t → held'.count u + r'.references.count u = held.count u +
      r.references.count u) :
    Exact (s.setRecord t r') held' where
  wellFormed := h.wellFormed.setRecord ht hp
  held_live := by
    intro u hu
    rw [contains_setRecord ht]
    exact hheld u hu
  refs_live := by
    intro u ru hu v hv
    rw [contains_setRecord ht]
    rw [record?_setRecord ht] at hu
    split at hu
    · cases hu
      exact hrefs v hv
    · exact h.refs_live u ru hu v hv
  counted := by
    intro u ru hu
    have hin : (s.setRecord t r').incoming u + r.references.count u = s.incoming u +
      r'.references.count u :=
      weigh_setRecord (fun r => r.references.count u) ht r'
    rw [record?_setRecord ht] at hu
    split at hu
    · next e =>
      cases hu
      subst e
      have := h.counted u r ht
      omega
    · next e =>
      have := h.counted u ru hu
      have := hother u e
      omega

theorem Exact.closed {s : Store} {held : List Ticket} (h : Exact s held) :
    View.Closed s.scope? := by
  rintro t u ⟨sc, hsc, hu⟩
  obtain ⟨r, hr, rfl⟩ := Option.map_eq_some_iff.mp hsc
  exact exists_scope?_of_contains (h.refs_live t r hr u hu)

/-- If somebody has the one count of a record, then no record has another. -/
theorem Exact.unheld {s : Store} {held : List Ticket} {t : Ticket} {r : Record}
    (h : Exact s (t :: held)) (ht : s.record? t = some r) (hone : r.refcount = 1) {u : Ticket}
    {ru : Record} (hu : s.record? u = some ru) : t ∉ ru.references := by
  intro hm
  have hcount := h.counted t r ht
  rw [List.count_cons_self] at hcount
  have hle : ru.references.count t ≤ s.incoming t := le_weigh (fun r => r.references.count t) hu
  rw [← List.count_pos_iff] at hm
  omega

/-- Giving up the last count of a record removes it; the holders outside take over what it held. -/
theorem Exact.free {s : Store} {held : List Ticket} {t : Ticket} {r : Record}
    (h : Exact s (t :: held)) (ht : s.record? t = some r) (hone : r.refcount = 1) : Exact (s.free t)
    (r.references ++ held) := by
  have hcount := h.counted t r ht
  rw [List.count_cons_self] at hcount
  -- the one count is the one given up, so neither a holder nor a record has another
  have hnone : ∀ u ru, s.record? u = some ru → t ∉ ru.references :=
    fun u ru hu => h.unheld ht hone hu
  have hheld : t ∉ held := by
    rw [← List.count_eq_zero]
    omega
  constructor
  · exact h.wellFormed.free ht
  · intro u hu
    rcases List.mem_append.mp hu with hu | hu
    · exact contains_free ht (h.refs_live t r ht u hu) fun e => hnone t r ht (e ▸ hu)
    · exact contains_free ht (h.held_live u (List.mem_cons_of_mem t hu)) fun e => hheld (e ▸ hu)
  · intro u ru hu v hv
    rw [record?_free ht] at hu
    split at hu
    · cases hu
    · exact contains_free ht (h.refs_live u ru hu v hv) fun e => hnone u ru hu (e ▸ hv)
  · intro u ru hu
    have hin : (s.free t).incoming u + r.references.count u = s.incoming u :=
      weigh_free (fun r => r.references.count u) ht
    rw [record?_free ht] at hu
    split at hu
    · cases hu
    · next hne =>
      have := h.counted u ru hu
      rw [List.count_cons_of_ne (Ne.symm hne)] at this
      rw [List.count_append]
      omega

/-- A new record whose one count belongs to whoever made it; what it holds is no longer held
outside. -/
theorem Exact.alloc {s : Store} {held held' : List Ticket} (h : Exact s held) {r : Record}
    (hone : r.refcount = 1) (hheld : ∀ u, held.count u = held'.count u + r.references.count u) :
    Exact (s.alloc r).2 ((s.alloc r).1 :: held') := by
  have hw := h.wellFormed
  have hlive : ∀ u, s.contains u → (s.alloc r).2.contains u := by
    intro u hu
    unfold contains
    rw [record?_alloc hw]
    split
    · rfl
    · exact hu
  have hrefs : ∀ u ∈ r.references, s.contains u := by
    intro u hu
    apply h.held_live u
    have := hheld u
    rw [← List.count_pos_iff] at hu ⊢
    omega
  have hfresh : ∀ u, s.contains u → u ≠ (s.alloc r).1 :=
    fun u hu e => not_issued_alloc hw r (e ▸ issued_of_contains hu)
  have hzero : held.count (s.alloc r).1 = 0 := by
    rw [List.count_eq_zero]
    exact fun hm => hfresh _ (h.held_live _ hm) rfl
  have hin : ∀ u, (s.alloc r).2.incoming u = s.incoming u + r.references.count u :=
    fun u => weigh_alloc (fun r => r.references.count u) hw r
  constructor
  · refine hw.alloc r fun p hp => issued_of_contains (hrefs p ?_)
    simp [Record.references_eq, hp]
  · intro u hu
    rcases List.mem_cons.mp hu with e | hu
    · rw [e]
      exact contains_iff.mpr ⟨r, by rw [record?_alloc hw, if_pos rfl]⟩
    · apply hlive u (h.held_live u _)
      have := hheld u
      rw [← List.count_pos_iff] at hu ⊢
      omega
  · intro u ru hu v hv
    apply hlive
    rw [record?_alloc hw] at hu
    split at hu
    · cases hu
      exact hrefs v hv
    · exact h.refs_live u ru hu v hv
  · intro u ru hu
    rw [hin]
    rw [record?_alloc hw] at hu
    have hh := hheld u
    split at hu
    · next e =>
      cases hu
      rw [← e] at hzero
      have hnone : s.incoming u = 0 := by
        refine weigh_eq_zero fun t rt hrt => List.count_eq_zero.mpr fun hm => ?_
        exact hfresh u (h.refs_live t rt hrt u hm) e
      rw [List.count_cons, if_pos (by simp [e]), hone]
      omega
    · next e =>
      have := h.counted u ru hu
      rw [List.count_cons, if_neg (by simpa using Ne.symm e)]
      omega

end Store

end LiveLisp
