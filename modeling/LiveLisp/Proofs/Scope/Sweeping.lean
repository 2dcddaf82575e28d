/-
  Collection on any store that counts enough. What is marked is what the roots reach
  (`isMarked_iff_reaches`), by marking being closed on the one hand and going along references only
  on the other. The counts of the survivors are corrected one reference at a time, and no correction
  is the last count of a record: that would leave none for the root or the survivor that it is
  reached by (`dropSurvivors_of_spare`). So a collection keeps exactly what can be reached, and
  collecting again changes nothing (`collect_sweeps`).

  Of the counts it is only assumed that they are high enough; `collect_exact` is about stores on
  which they are right.
-/
import Mathlib.Data.List.Nodup
import LiveLisp.Proofs.Scope.Collect

namespace LiveLisp.Store

/-- What the roots reach: themselves, and the parent and the scopes of bound values of every record
they reach. -/
inductive Reaches (s : Store) (roots : List Ticket) : Ticket → Prop
  | root {t : Ticket} (h : t ∈ roots) : Reaches s roots t
  | onward {t u : Ticket} {r : Record} (h : Reaches s roots t) (hr : s.record? t = some r)
      (hu : u ∈ r.references) :
    Reaches s roots u

/-- What a collection leaves of a store: the records that the roots reach, with the parents and
bindings they had. -/
structure Keeps (s : Store) (roots : List Ticket) (s' : Store) : Prop where
  contains_iff : ∀ t, s'.contains t ↔ s.Reaches roots t
  scope?_eq : ∀ t, s'.contains t → s'.scope? t = s.scope? t

/-- The records of a store that are not in a later one, in slot order. -/
def lost (s s' : Store) : List Record :=
  s.tickets.filterMap fun t => if s'.contains t then none else s.record? t

section

variable {s s' : Store} {roots : List Ticket}

/-! ## Marking -/

theorem eq_of_index_eq {t u : Ticket} {r ru : Record} (ht : s.record? t = some r)
    (hu : s.record? u = some ru) (hi : u.index = t.index) : u = t := by
  have ht := record?_eq_some_iff.mp ht
  have hu := record?_eq_some_iff.mp hu
  rw [hi, ht] at hu
  cases u
  cases t
  simp_all

/-- Marking goes from what is reached along references, and marks nothing else. -/
theorem mark_reaches {marks marks' : Array Bool} {pending : List Ticket}
    (hok : s.mark marks pending = .ok marks') (hpending : ∀ t ∈ pending, s.Reaches roots t)
    {t : Ticket} (ht : s.contains t) (hmarked : isMarked marks' t) :
    isMarked marks t ∨ s.Reaches roots t := by
  fun_induction mark s marks pending with
  | case1 marks =>
    cases hok
    exact .inl hmarked
  | case2 => cases hok
  | case3 marks u rest r hr hfalse ih =>
    have hu : s.Reaches roots u := hpending u List.mem_cons_self
    have hnext : ∀ v ∈ r.references.reverse ++ rest, s.Reaches roots v := by
      intro v hv
      rcases List.mem_append.mp hv with hv | hv
      · exact .onward hu hr (List.mem_reverse.mp hv)
      · exact hpending v (List.mem_cons_of_mem u hv)
    rcases ih hok hnext with h | h
    · rw [isMarked_set (Array.getElem?_eq_some_iff.mp hfalse).1, Bool.or_eq_true, decide_eq_true_eq]
        at h
      rcases h with hi | h
      · obtain ⟨rt, hrt⟩ := contains_iff.mp ht
        rw [eq_of_index_eq hr hrt hi]
        exact .inr hu
      · exact .inl h
    · exact .inr h
  | case4 marks u rest r hr htrue ih =>
    exact ih hok fun v hv => hpending v (List.mem_cons_of_mem u hv)

theorem Reaches.contains (hrefs : ∀ t r, s.record? t = some r → ∀ u ∈ r.references, s.contains u)
    (hroots : ∀ t ∈ roots, s.contains t) {t : Ticket} (h : s.Reaches roots t) : s.contains t := by
  cases h with
  | root h => exact hroots t h
  | onward _ hr hu => exact hrefs _ _ hr t hu

/-- The records that are marked are those that the roots reach. -/
theorem isMarked_iff_reaches (hrefs : ∀ t r, s.record? t = some r →
    ∀ u ∈ r.references, s.contains u)
    (hroots : ∀ t ∈ roots, s.contains t) :
    ∃ marks, s.marksFrom roots = .ok marks ∧ ∀ t, s.contains t →
      (isMarked marks t ↔ s.Reaches roots t) := by
  obtain ⟨marks, hok, hclosed, hmarked⟩ := marksFrom_closed hrefs hroots
  refine ⟨marks, hok, fun t ht => ⟨fun h => ?_, fun h => ?_⟩⟩
  · have hnone := isMarked_replicate s.slots.size t
    have hpending : ∀ t ∈ roots.reverse, s.Reaches roots t :=
      fun t ht => .root (List.mem_reverse.mp ht)
    rcases mark_reaches hok hpending ht h with h | h
    · rw [hnone] at h
      cases h
    · exact h
  · induction h with
    | root h => exact hmarked _ h
    | onward h hr hu ih =>
      exact (hclosed _ _ hr (ih (contains_of_record? hr)) _ hu).resolve_right List.not_mem_nil

/-! ## Correcting the survivors -/

theorem decref_of_spare {u : Ticket} {r : Record} (hr : s.record? u = some r) (h : 1 < r.refcount) :
    decref u s = .ok ⟨⟩ (s.setRecord u { r with refcount := r.refcount - 1 }) := by
  show s.dropAll [u] = _
  unfold dropAll
  split
  · next hnone => cases hnone.symm.trans hr
  · next r' hr' =>
    cases hr.symm.trans hr'
    rw [dif_neg (by omega), dif_neg (by omega), dropAll]

theorem dropSurvivor_of_spare {u : Ticket} (h : ∀ r, s.record? u = some r → 1 < r.refcount) :
    ∃ s', dropSurvivor u s = .ok ⟨⟩ s' ∧
      ∀ t, s'.record? t = (s.record? t).map fun r =>
        { r with refcount := r.refcount - [u].count t } := by
  unfold dropSurvivor
  simp only [get_bind]
  cases hr : s.record? u with
  | none =>
    have hgone : s.contains u = false := by simp [Store.contains, hr]
    rw [hgone]
    refine ⟨s, rfl, fun t => ?_⟩
    by_cases ht : t = u
    · rw [ht, hr, Option.map_none]
    · simp [Ne.symm ht]
  | some r =>
    rw [contains_of_record? hr]
    refine ⟨s.setRecord u { r with refcount := r.refcount - 1 },
      decref_of_spare hr (h r hr), fun t => ?_⟩
    rw [record?_setRecord hr]
    by_cases ht : t = u
    · rw [if_pos ht, ht, hr]
      simp
    · rw [if_neg ht]
      simp [Ne.symm ht]

/-- As long as every record has more counts than are to be given up, each is given up and no record
goes. -/
theorem dropSurvivors_of_spare (dead : List Ticket)
    (h : ∀ t r, s.record? t = some r → dead.count t < r.refcount) :
    ∃ s', dead.forM dropSurvivor s = .ok ⟨⟩ s' ∧
      ∀ t, s'.record? t = (s.record? t).map fun r =>
        { r with refcount := r.refcount - dead.count t } := by
  induction dead generalizing s with
  | nil => exact ⟨s, rfl, fun t => by simp⟩
  | cons u rest ih =>
    have hcount (t : Ticket) : (u :: rest).count t = [u].count t + rest.count t := by
      rw [← List.singleton_append, List.count_append]
    have hspare : ∀ r, s.record? u = some r → 1 < r.refcount := by
      intro r hr
      have := h u r hr
      rw [List.count_cons_self] at this
      omega
    obtain ⟨s₁, hfirst, hrecords₁⟩ := dropSurvivor_of_spare hspare
    have hrest : ∀ t r, s₁.record? t = some r → rest.count t < r.refcount := by
      intro t r hr
      rw [hrecords₁] at hr
      obtain ⟨r₀, hr₀, rfl⟩ := Option.map_eq_some_iff.mp hr
      have := h t r₀ hr₀
      rw [hcount] at this
      exact Nat.lt_sub_iff_add_lt'.mpr this
    obtain ⟨s', hok, hrecords⟩ := ih hrest
    refine ⟨s', (bind_of_ok hfirst).trans hok, fun t => ?_⟩
    rw [hrecords, hrecords₁, Option.map_map, hcount]
    simp only [Function.comp_def, Nat.sub_sub]

/-! ## What is removed -/

theorem nodup_tickets (s : Store) : s.tickets.Nodup := by
  have hindices : (s.slots.toList.zipIdx.map Prod.snd).Nodup := by
    rw [List.zipIdx_map_snd]
    exact List.nodup_range'
  refine List.pairwise_filterMap.mpr ((List.pairwise_map.mp hindices).imp fun hne t ht t' ht' => ?_)
  obtain ⟨r, -, rfl⟩ := Option.map_eq_some_iff.mp ht
  obtain ⟨r', -, rfl⟩ := Option.map_eq_some_iff.mp ht'
  exact fun h => hne (congrArg Ticket.index h)

theorem removeAll_records (ts : List Ticket) (hnodup : ts.Nodup) :
    (s.removeAll ts).1 = ts.filterMap s.record? := by
  induction ts generalizing s with
  | nil => rfl
  | cons t rest ih =>
    obtain ⟨ht, hrest⟩ := List.nodup_cons.mp hnodup
    unfold removeAll
    cases hr : s.record? t with
    | none => simpa [hr] using ih hrest
    | some r =>
      show r :: ((s.free t).removeAll rest).1 = _
      rw [ih hrest, List.filterMap_cons_some hr]
      congr 1
      refine List.filterMap_congr fun u hu => ?_
      rw [record?_free hr, if_neg (ne_of_mem_of_not_mem hu ht)]

/-- A reference to a record comes from one that is removed or from one that stays. -/
theorem incoming_removeAll (ts : List Ticket) (t : Ticket) :
    (s.removeAll ts).2.incoming t + ((s.removeAll ts).1.flatMap Record.references).count t =
    s.incoming t := by
  rw [count_flatMap]
  exact weigh_removeAll (fun r => r.references.count t) s ts

theorem incoming_pos {t u : Ticket} {r : Record} (hr : s.record? u = some r)
    (ht : t ∈ r.references) :
    0 < s.incoming t :=
  Nat.lt_of_lt_of_le (List.count_pos_iff.mpr ht) (le_weigh (fun r => r.references.count t) hr)

theorem lost_eq_removeAll {marks : Array Bool}
    (h : ∀ t, s.contains t → (s'.contains t ↔ isMarked marks t)) :
    s.lost s' = (s.removeAll (s.tickets.filter fun t => !isMarked marks t)).1 := by
  rw [removeAll_records _ ((nodup_tickets s).filter _), List.filterMap_filter]
  refine List.filterMap_congr fun t ht => ?_
  have hkept := h t (mem_tickets_iff.mp ht)
  cases hm : isMarked marks t with
  | true =>
    rw [hkept.mpr hm]
    rfl
  | false =>
    rw [if_neg fun hc => Bool.false_ne_true (hm.symm.trans (hkept.mp hc))]
    rfl

/-! ## Collecting again -/

namespace Keeps

variable (h : s.Keeps roots s')

include h

theorem references_eq {t : Ticket} {r' : Record} (hr' : s'.record? t = some r') :
    ∃ r, s.record? t = some r ∧ r'.references = r.references := by
  have hscope := h.scope?_eq t (contains_of_record? hr')
  unfold scope? at hscope
  rw [hr'] at hscope
  obtain ⟨r, hr, hsame⟩ := Option.map_eq_some_iff.mp hscope.symm
  obtain ⟨hbindings, hparent⟩ := Scope.mk.inj hsame
  exact ⟨r, hr, by rw [Record.references, Record.references, hparent, hbindings]⟩

theorem refs_live {t : Ticket} {r' : Record} (hr' : s'.record? t = some r') {u : Ticket}
    (hu : u ∈ r'.references) :
    s'.contains u := by
  obtain ⟨r, hr, hreferences⟩ := h.references_eq hr'
  have ht := (h.contains_iff t).mp (contains_of_record? hr')
  exact (h.contains_iff u).mpr (.onward ht hr (hreferences ▸ hu))

/-- What is left is reached in the store that is left, along the references that it was reached by.
-/
theorem reaches {t : Ticket} (ht : s.Reaches roots t) : s'.Reaches roots t := by
  induction ht with
  | root ht => exact .root ht
  | @onward u v r hu hr hv ih =>
    obtain ⟨r', hr'⟩ := Store.contains_iff.mp ((h.contains_iff u).mpr hu)
    obtain ⟨r₀, hr₀, hreferences⟩ := h.references_eq hr'
    rw [hr] at hr₀
    cases hr₀
    exact .onward ih hr' (hreferences ▸ hv)

/-- A second collection marks every record, and so removes none and gives nothing up. -/
theorem collect_again : collect roots s' = .ok 0 s' := by
  obtain ⟨marks, hmarks, hmarked⟩ := isMarked_iff_reaches (fun _ _ hr _ hu => h.refs_live hr hu)
    fun t ht => (h.contains_iff t).mpr (.root ht)
  have hnone : (s'.tickets.filter fun t => !isMarked marks t) = [] := by
    refine List.filter_eq_nil_iff.mpr fun t ht => ?_
    have ht := mem_tickets_iff.mp ht
    simp [(hmarked t ht).mpr (h.reaches ((h.contains_iff t).mp ht))]
  unfold collect
  simp only [get_bind, hmarks, hnone]
  rfl

end Keeps

/-! ## The whole collection -/

/-- On a store with good references and roots, and with counts no lower than what refers to each
record and what the roots name: a collection succeeds, answers how many records it has removed,
keeps what the roots reach, and takes from the count of a survivor what the removed records held of
it. A second one does nothing. -/
theorem collect_sweeps (hrefs : ∀ t r, s.record? t = some r → ∀ u ∈ r.references, s.contains u)
    (hroots : ∀ t ∈ roots, s.contains t)
    (hcounts : ∀ t r, s.record? t = some r → s.incoming t + roots.count t ≤ r.refcount) :
    ∃ s', collect roots s = .ok (s.lost s').length s' ∧ s.Keeps roots s' ∧
      (∀ t r r', s.record? t = some r → s'.record? t = some r' →
        r'.refcount + ((s.lost s').flatMap Record.references).count t = r.refcount) ∧
      collect roots s' = .ok 0 s' := by
  obtain ⟨marks, hmarks, hmarked⟩ := isMarked_iff_reaches hrefs hroots
  let dead := s.tickets.filter fun t => !isMarked marks t
  have hleft (t : Ticket) (r : Record) : (s.removeAll dead).2.record? t = some r ↔
      s.record? t = some r ∧ s.Reaches roots t := by
    rw [record?_removeAll]
    refine ⟨fun hr => ?_, fun hr => ?_⟩
    · split at hr
      · cases hr
      · next ht =>
        rw [mem_unmarked_iff (contains_of_record? hr), Bool.not_eq_false] at ht
        exact ⟨hr, (hmarked t (contains_of_record? hr)).mp ht⟩
    · have ht := contains_of_record? hr.1
      rw [if_neg, hr.1]
      rw [mem_unmarked_iff ht, (hmarked t ht).mpr hr.2]
      exact Bool.noConfusion
  -- a survivor is a root or referred to by a survivor, and so counts more than what was removed
  -- with the others
  have hspare : ∀ t r, (s.removeAll dead).2.record? t = some r →
      ((s.removeAll dead).1.flatMap Record.references).count t < r.refcount := by
    intro t r hr
    obtain ⟨hr, hreaches⟩ := (hleft t r).mp hr
    have hincoming := incoming_removeAll (s := s) dead t
    have hcount := hcounts t r hr
    cases hreaches with
    | root h =>
      have := List.count_pos_iff.mpr h
      omega
    | onward h hru hu =>
      have := incoming_pos ((hleft _ _).mpr ⟨hru, h⟩) hu
      omega
  obtain ⟨s', hok, hrecords⟩ := dropSurvivors_of_spare _ hspare
  have hkeeps : s.Keeps roots s' := by
    refine ⟨fun t => ⟨fun h => ?_, fun h => ?_⟩, fun t h => ?_⟩
    · obtain ⟨r', hr'⟩ := contains_iff.mp h
      rw [hrecords] at hr'
      obtain ⟨r, hr, -⟩ := Option.map_eq_some_iff.mp hr'
      exact ((hleft t r).mp hr).2
    · obtain ⟨r, hr⟩ := contains_iff.mp (h.contains hrefs hroots)
      rw [Store.contains, hrecords, (hleft t r).mpr ⟨hr, h⟩]
      rfl
    · obtain ⟨r', hr'⟩ := contains_iff.mp h
      rw [scope?, hr']
      rw [hrecords] at hr'
      obtain ⟨r, hr, rfl⟩ := Option.map_eq_some_iff.mp hr'
      rw [scope?, ((hleft t r).mp hr).1]
      rfl
  have hlost : s.lost s' = (s.removeAll dead).1 :=
    lost_eq_removeAll fun t ht => (hkeeps.contains_iff t).trans (hmarked t ht).symm
  refine ⟨s', ?_, hkeeps, fun t r r' hr hr' => ?_, hkeeps.collect_again⟩
  · unfold collect
    simp only [get_bind, hmarks]
    rw [hlost]
    exact bind_of_ok hok
  · rw [hrecords] at hr'
    obtain ⟨r₁, hr₁, rfl⟩ := Option.map_eq_some_iff.mp hr'
    rw [((hleft t r₁).mp hr₁).1] at hr
    cases hr
    rw [hlost]
    exact Nat.sub_add_cancel (Nat.le_of_lt (hspare t r hr₁))

/-! ## Collection on an exact store -/

/-- What is reached in a store is still reached when records have gone, if none has gone that the
roots or the survivors refer to. -/
theorem Reaches.within (hexact : Exact s' roots) (hwithin : View.Within s'.scope? s.scope?)
    {t : Ticket} (h : s.Reaches roots t) : s'.Reaches roots t := by
  induction h with
  | root h => exact .root h
  | @onward u v r _ hr hv ih =>
    obtain ⟨r', hr'⟩ := contains_iff.mp (ih.contains hexact.refs_live hexact.held_live)
    have hscope : s.scope? u = some r'.scope := hwithin u r'.scope (by rw [scope?, hr']; rfl)
    rw [scope?, hr, Option.map_some, Option.some.injEq] at hscope
    obtain ⟨hbindings, hparent⟩ := Scope.mk.inj hscope
    refine .onward ih hr' ?_
    rwa [Record.references, ← hbindings, ← hparent]

/-- What a collection leaves of an exact store: an exact one, with the records that the roots reach
in it, and how many have gone. -/
structure Swept (s : Store) (roots : List Ticket) (n : Nat) (s' : Store) : Prop where
  exact : Exact s' roots
  within : View.Within s'.scope? s.scope?
  contains_iff : ∀ t, s'.contains t ↔ s'.Reaches roots t
  removed : n = (s.lost s').length

theorem collect_swept (h : Exact s roots) :
    ∃ n s', collect roots s = .ok n s' ∧ s.Swept roots n s' := by
  obtain ⟨marks, s', hmarks, hok, hexact, hwithin, hleft⟩ := collect_marked h
  obtain ⟨marks', hmarks', hmarked⟩ := isMarked_iff_reaches h.refs_live h.held_live
  cases hmarks.symm.trans hmarks'
  have hkept : ∀ t, s.contains t → isMarked marks t → s'.Reaches roots t :=
    fun t ht hm => ((hmarked t ht).mp hm).within hexact hwithin
  have hreached : ∀ t, s'.Reaches roots t → s'.contains t :=
    fun t => Reaches.contains hexact.refs_live hexact.held_live
  refine ⟨_, s', hok, hexact, hwithin, fun t => ⟨fun ht => ?_, hreached t⟩, ?_⟩
  · exact hkept t (contains_of_within hwithin ht) (hleft t ht)
  · have hlost : s.lost s' = _ :=
      lost_eq_removeAll fun t ht => ⟨hleft t, fun hm => hreached t (hkept t ht hm)⟩
    rw [hlost]

/-- What has gone and what is left make up what was there. -/
theorem Swept.length_tickets {n : Nat} (h : s.Swept roots n s') :
    n + s'.tickets.length = s.tickets.length := by
  have hlost : (s.lost s').length = s.tickets.countP fun t => !s'.contains t := by
    rw [lost, List.length_filterMap_eq_countP]
    refine List.countP_congr fun t ht => ?_
    obtain ⟨r, hr⟩ := Store.contains_iff.mp (mem_tickets_iff.mp ht)
    cases hc : s'.contains t <;> simp [hr]
  have hkept : s'.tickets.Perm (s.tickets.filter s'.contains) := by
    refine (List.perm_ext_iff_of_nodup (nodup_tickets s') ((nodup_tickets s).filter _)).mpr
      fun t => ?_
    rw [List.mem_filter, mem_tickets_iff, mem_tickets_iff]
    exact ⟨fun ht => ⟨contains_of_within h.within ht, ht⟩, And.right⟩
  rw [h.removed, hlost, hkept.length_eq, ← List.countP_eq_length_filter,
    List.length_eq_countP_add_countP s'.contains, Nat.add_comm]
  simp

end

/-- A function of a scope: a value that holds it. -/
def keeper (t : Ticket) : Value :=
  .closure default [] default (some t)

/-- A scope, and one inside it that only a function bound in it keeps. -/
def tangled : StoreM Ticket := do
  let outer ← newScope
  let inner ← newScopeIn outer []
  define inner "f" (.closure default [] default (some inner))
  decref inner
  return outer

/-- The inner scope goes, and the outer one is left with the count it began with. -/
theorem collect_sweeps_tangled : ∃ outer s s', tangled .empty = .ok outer s ∧
    s.refcount? outer = some 2 ∧
    collect [outer] s = .ok 1 s' ∧ s'.refcount? outer = some 1 ∧ collect [outer] s' = .ok 0 s' := by
  have hrun : succeedsWith (fun outer s =>
      decide (outer = ⟨0, 0⟩) && decide (s.refcount? outer = some 2) &&
      ((s.record? outer).all fun r => r.references.isEmpty) &&
      (s.tickets.all fun t => (s.record? t).all fun r => r.references.all s.contains &&
        decide (s.incoming t + [outer].count t ≤ r.refcount)) &&
      decide ((s.tickets.filterMap fun t => if t = outer then none
        else s.record? t).map Record.references =
        [[⟨0, 0⟩, ⟨1, 0⟩]]))
      (tangled .empty) = true := by decide +kernel
  obtain ⟨outer, s, htangled, hrun⟩ := succeedsWith_iff.mp hrun
  simp only [Bool.and_eq_true, decide_eq_true_eq, List.all_eq_true,
    Option.all_eq_true, mem_tickets_iff, List.isEmpty_iff] at hrun
  obtain ⟨⟨⟨⟨rfl, hcount⟩, halone⟩, hrecords⟩, hinner⟩ := hrun
  obtain ⟨r, hr, hr₂⟩ := Option.map_eq_some_iff.mp hcount
  have hroots : ∀ t ∈ [⟨0, 0⟩], s.contains t := fun t ht => by
    rw [List.mem_singleton.mp ht]
    exact contains_of_record? hr
  obtain ⟨s', hcollect, hkeeps, hcounts, hagain⟩ := collect_sweeps
    (fun t r hr => (hrecords t (contains_of_record? hr) r hr).1) hroots
    fun t r hr => (hrecords t (contains_of_record? hr) r hr).2
  have hreaches (t : Ticket) : s.Reaches [⟨0, 0⟩] t ↔ t = ⟨0, 0⟩ := by
    refine ⟨fun h => ?_, fun h => .root (List.mem_singleton.mpr h)⟩
    induction h with
    | root h => exact List.mem_singleton.mp h
    | onward h hu hv ih =>
      subst ih
      rw [halone _ hu] at hv
      cases hv
  have hlost : (s.lost s').map Record.references = [[⟨0, 0⟩, ⟨1, 0⟩]] := by
    rw [← hinner, lost]
    refine congrArg _ (List.filterMap_congr fun t _ => ?_)
    simp only [(hkeeps.contains_iff t).trans (hreaches t)]
  have hone : (s.lost s').length = 1 := by rw [← List.length_map Record.references, hlost]; rfl
  obtain ⟨r', hr'⟩ := contains_iff.mp ((hkeeps.contains_iff _).mpr ((hreaches _).mpr rfl))
  have hleft := hcounts _ r r' hr hr'
  rw [List.flatMap_def, hlost, hr₂] at hleft
  rw [hone] at hcollect
  refine ⟨_, s, s', htangled, hcount, hcollect, ?_, hagain⟩
  rw [refcount?, hr']
  exact congrArg some (Nat.succ.inj hleft)

end LiveLisp.Store
