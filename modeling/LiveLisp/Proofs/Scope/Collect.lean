/-
  Collection on an exact store. Marking ends with a set that holds the roots and is closed under
  references (`mark_closed`). Removing the rest leaves counts that are too high by what the removed
  records held; the loop that follows gives those counts up one by one, so that the survivors are
  exact again (`collect_exact`).
-/
import LiveLisp.Proofs.Scope.Operations

namespace LiveLisp.Store

/-- Whatever a marked record refers to is marked, or still to be looked at. -/
def MarkedUpTo (s : Store) (marks : Array Bool) (pending : List Ticket) : Prop :=
  ∀ t r, s.record? t = some r → isMarked marks t → ∀ u ∈ r.references, isMarked marks u ∨
    u ∈ pending

theorem isMarked_set {marks : Array Bool} {i : Nat} (hi : i < marks.size) (u : Ticket) :
    isMarked (marks.setIfInBounds i true) u = (decide (u.index = i) || isMarked marks u) := by
  unfold isMarked
  rw [Array.getElem?_setIfInBounds]
  by_cases h : i = u.index
  · subst h
    simp [hi]
  · rw [if_neg h]
    simp [Ne.symm h]

theorem isMarked_set_iff {marks : Array Bool} {i : Nat} (hi : i < marks.size) {u : Ticket} :
    isMarked (marks.setIfInBounds i true) u ↔ u.index = i ∨ isMarked marks u := by
  rw [isMarked_set hi, Bool.or_eq_true, decide_eq_true_eq]

theorem isMarked_of_ne_false {marks : Array Bool} {t : Ticket} (hi : t.index < marks.size)
    (h : marks[t.index]? ≠ some false) : isMarked marks t := by
  rw [Array.getElem?_eq_getElem hi] at h
  unfold isMarked
  rw [Array.getElem?_eq_getElem hi]
  simpa using h

/-- Two good tickets of one slot are the same ticket. -/
theorem record?_of_index_eq {s : Store} {t u : Ticket} {r ru : Record} (ht : s.record? t = some r)
    (hu : s.record? u = some ru) (hi : u.index = t.index) : ru = r := by
  have h₁ := record?_eq_some_iff.mp ht
  have h₂ := record?_eq_some_iff.mp hu
  rw [hi, h₁] at h₂
  simp only [Option.some.injEq, Slot.mk.injEq] at h₂
  exact h₂.2.symm

namespace MarkedUpTo

variable {s : Store} {marks : Array Bool} {t : Ticket} {rest : List Ticket} {r : Record}

/-- A record gets its mark, and what it refers to is to be looked at from then on. -/
theorem mark (h : MarkedUpTo s marks (t :: rest)) (hr : s.record? t = some r)
    (hi : t.index < marks.size) :
    MarkedUpTo s (marks.setIfInBounds t.index true) (r.references.reverse ++ rest) := by
  intro u ru hu hm w hw
  rw [isMarked_set_iff hi]
  rcases (isMarked_set_iff hi).mp hm with he | hm
  · rw [record?_of_index_eq hr hu he] at hw
    exact .inr (List.mem_append_left _ (List.mem_reverse.mpr hw))
  · rcases h u ru hu hm w hw with hw | hw
    · exact .inl (.inr hw)
    · rcases List.mem_cons.mp hw with rfl | hw
      · exact .inl (.inl rfl)
      · exact .inr (List.mem_append_right _ hw)

/-- A record that has its mark need not be looked at again. -/
theorem skip (h : MarkedUpTo s marks (t :: rest)) (ht : isMarked marks t) :
    MarkedUpTo s marks rest := by
  intro u ru hu hm w hw
  rcases h u ru hu hm w hw with hw | hw
  · exact .inl hw
  · rcases List.mem_cons.mp hw with rfl | hw
    · exact .inl ht
    · exact .inr hw

end MarkedUpTo

theorem mark_closed (s : Store) (marks : Array Bool) (pending : List Ticket)
    (hrefs : ∀ t r, s.record? t = some r → ∀ u ∈ r.references, s.contains u)
    (hsize : marks.size = s.slots.size) (hlive : ∀ t ∈ pending, s.contains t)
    (hup : MarkedUpTo s marks pending) :
    ∃ marks', s.mark marks pending = .ok marks' ∧ MarkedUpTo s marks' [] ∧
      (∀ t ∈ pending, isMarked marks' t) ∧
      ∀ t, isMarked marks t → isMarked marks' t := by
  fun_induction mark s marks pending with
  | case1 marks => exact ⟨marks, rfl, hup, by simp, fun _ h => h⟩
  | case2 marks t rest hnone =>
    have := hlive t List.mem_cons_self
    simp [contains, hnone] at this
  | case3 marks t rest r hr hfalse ih =>
    have hi : t.index < marks.size := (Array.getElem?_eq_some_iff.mp hfalse).1
    have hlive' : ∀ u ∈ r.references.reverse ++ rest, s.contains u := by
      intro u hu
      rcases List.mem_append.mp hu with hu | hu
      · exact hrefs t r hr u (List.mem_reverse.mp hu)
      · exact hlive u (List.mem_cons_of_mem t hu)
    obtain ⟨marks', hok, hclosed, hpend, hmono⟩ := ih (by simpa using hsize) hlive' (hup.mark hr hi)
    refine ⟨marks', hok, hclosed, fun u hu => ?_, fun u hu =>
      hmono u ((isMarked_set_iff hi).mpr (.inr hu))⟩
    rcases List.mem_cons.mp hu with rfl | hu
    · exact hmono u ((isMarked_set_iff hi).mpr (.inl rfl))
    · exact hpend u (List.mem_append_right _ hu)
  | case4 marks t rest r hr htrue ih =>
    have hmarked : isMarked marks t := isMarked_of_ne_false (hsize ▸ (record?_eq_some hr).1) htrue
    obtain ⟨marks', hok, hclosed, hpend, hmono⟩ :=
      ih hsize (fun u hu => hlive u (List.mem_cons_of_mem t hu)) (hup.skip hmarked)
    refine ⟨marks', hok, hclosed, fun u hu => ?_, hmono⟩
    rcases List.mem_cons.mp hu with rfl | hu
    · exact hmono u hmarked
    · exact hpend u hu

theorem isMarked_replicate (n : Nat) (t : Ticket) :
    isMarked (Array.replicate n false) t = false := by
  unfold isMarked
  rw [Array.getElem?_replicate]
  split <;> rfl

/-- From no marks at all, marking reaches the roots and all they refer to. -/
theorem marksFrom_closed {s : Store} {roots : List Ticket}
    (hrefs : ∀ t r, s.record? t = some r → ∀ u ∈ r.references, s.contains u)
    (hlive : ∀ t ∈ roots, s.contains t) :
    ∃ marks, s.marksFrom roots = .ok marks ∧ MarkedUpTo s marks [] ∧
      ∀ t ∈ roots, isMarked marks t := by
  obtain ⟨marks, hok, hclosed, hroots, -⟩ :=
    mark_closed s (Array.replicate s.slots.size false) roots.reverse
    hrefs (by simp) (fun t ht => hlive t (List.mem_reverse.mp ht))
    (fun t r _ hm => by simp [isMarked_replicate] at hm)
  exact ⟨marks, hok, hclosed, fun t ht => hroots t (List.mem_reverse.mpr ht)⟩

/-! ## Removal -/

theorem record?_removeAll (s : Store) (ts : List Ticket) (u : Ticket) :
    (s.removeAll ts).2.record? u = if u ∈ ts then none else s.record? u := by
  induction ts generalizing s with
  | nil => simp [removeAll]
  | cons t rest ih =>
    unfold removeAll
    cases hr : s.record? t with
    | some r =>
      show ((s.free t).removeAll rest).2.record? u = _
      rw [ih, record?_free hr]
      by_cases hu : u = t <;> simp [hu]
    | none =>
      show (s.removeAll rest).2.record? u = _
      rw [ih]
      by_cases hu : u = t
      · simp [hu, hr]
      · simp [hu]

theorem count_flatMap {α : Type} (f : α → List Ticket) (l : List α) (t : Ticket) :
    (l.flatMap f).count t = sumBy (fun a => (f a).count t) l := by
  induction l with
  | nil => rfl
  | cons a l ih => rw [List.flatMap_cons, List.count_append, ih, sumBy]

theorem weigh_removeAll (w : Record → Nat) (s : Store) (ts : List Ticket) :
    weigh w (s.removeAll ts).2 + sumBy w (s.removeAll ts).1 = weigh w s := by
  induction ts generalizing s with
  | nil => rfl
  | cons t rest ih =>
    unfold removeAll
    cases hr : s.record? t with
    | some r =>
      have h₁ := ih (s.free t)
      have h₂ := weigh_free w hr
      simp only [sumBy]
      omega
    | none => exact ih s

theorem WellFormed.removeAll {s : Store} (hw : s.WellFormed) (ts : List Ticket) :
    (s.removeAll ts).2.WellFormed := by
  induction ts generalizing s with
  | nil => exact hw
  | cons t rest ih =>
    unfold Store.removeAll
    cases hr : s.record? t with
    | some r => exact ih (hw.free hr)
    | none => exact ih hw

/-- What removed records held, as far as it still exists, is held by nobody but counted: it has to
be given up. -/
theorem Exact.removeAll {s : Store} {roots : List Ticket} (h : Exact s roots) (ts : List Ticket)
    (hroots : ∀ t ∈ roots, t ∉ ts)
    (hclosed : ∀ t r, s.record? t = some r → t ∉ ts → ∀ u ∈ r.references, u ∉ ts) :
    Exact (s.removeAll ts).2
      (((s.removeAll ts).1.flatMap Record.references).filter (s.removeAll ts).2.contains ++
        roots) := by
  have hlive : ∀ u, s.contains u → u ∉ ts → (s.removeAll ts).2.contains u := by
    intro u hu hn
    unfold contains
    rw [record?_removeAll, if_neg hn]
    exact hu
  constructor
  · exact h.wellFormed.removeAll ts
  · intro u hu
    rcases List.mem_append.mp hu with hu | hu
    · exact (List.mem_filter.mp hu).2
    · exact hlive u (h.held_live u hu) (hroots u hu)
  · intro t r hr u hu
    rw [record?_removeAll] at hr
    split at hr
    · cases hr
    · next hn => exact hlive u (h.refs_live t r hr u hu) (hclosed t r hr hn u hu)
  · intro t r hr
    have hcontains := contains_of_record? hr
    have hweigh := weigh_removeAll (fun r => r.references.count t) s ts
    rw [record?_removeAll] at hr
    split at hr
    · cases hr
    · have hcount := h.counted t r hr
      rw [List.count_append, List.count_filter hcontains, count_flatMap]
      unfold incoming at hcount ⊢
      omega

/-! ## The whole collection -/

theorem contains_of_within {s s' : Store} (h : View.Within s'.scope? s.scope?) {t : Ticket}
    (ht : s'.contains t) : s.contains t := by
  obtain ⟨sc, hsc⟩ := exists_scope?_of_contains ht
  exact contains_of_scope? (h t sc hsc)

theorem filter_contains_congr {s s' : Store} {rest roots : List Ticket}
    (h : Exact s' (rest.filter s.contains ++ roots)) (hwithin : View.Within s'.scope? s.scope?) :
    rest.filter s'.contains = rest.filter s.contains := by
  refine List.filter_congr fun u hu => ?_
  cases hs : s.contains u with
  | true => exact h.held_live u (List.mem_append_left _ (List.mem_filter.mpr ⟨hu, hs⟩))
  | false =>
    cases hs' : s'.contains u with
    | false => rfl
    | true =>
      cases hs.symm.trans (contains_of_within hwithin hs')

theorem dropSurvivors_exact {roots : List Ticket} (dead : List Ticket) (s : Store)
    (h : Exact s (dead.filter s.contains ++ roots)) :
    ∃ s', dead.forM dropSurvivor s = .ok ⟨⟩ s' ∧ Exact s' roots ∧
      View.Within s'.scope? s.scope? := by
  have hloop := forM_of_turns (f := dropSurvivor)
    (P := fun left s' => Exact s' (left.filter s'.contains ++ roots) ∧
      View.Within s'.scope? s.scope?) ?_
    dead s ⟨h, .refl _⟩
  · exact hloop
  · rintro t rest s₁ ⟨hexact, hwithin⟩
    unfold dropSurvivor
    simp only [get_bind]
    cases hc : s₁.contains t with
    | false =>
      rw [List.filter_cons_of_neg (by simp [hc])] at hexact
      exact ⟨s₁, rfl, hexact, hwithin⟩
    | true =>
      rw [List.filter_cons_of_pos hc] at hexact
      obtain ⟨s₂, hok, hexact', hremains⟩ := decref_exact hexact
      refine ⟨s₂, hok, ?_, hremains.within.trans hwithin⟩
      rw [filter_contains_congr hexact' hremains.within]
      exact hexact'

theorem mem_unmarked_iff {s : Store} {marks : Array Bool} {t : Ticket} (ht : s.contains t) :
    t ∈ (s.tickets.filter fun t => !isMarked marks t) ↔ isMarked marks t = false := by
  rw [List.mem_filter, mem_tickets_iff]
  simp [ht]

/-- A collection leaves an exact store, of what was there only the records that were marked, and
answers how many it has removed. -/
theorem collect_marked {s : Store} {roots : List Ticket} (h : Exact s roots) :
    ∃ marks s', s.marksFrom roots = .ok marks ∧
      collect roots s =
        .ok (s.removeAll (s.tickets.filter fun t => !isMarked marks t)).1.length s' ∧
      Exact s' roots ∧ View.Within s'.scope? s.scope? ∧ ∀ t, s'.contains t → isMarked marks t := by
  obtain ⟨marks, hmarks, hclosed, hroots⟩ := marksFrom_closed h.refs_live h.held_live
  have hexact := h.removeAll (s.tickets.filter fun t => !isMarked marks t) ?_ ?_
  · obtain ⟨s', hok, hexact', hwithin⟩ := dropSurvivors_exact _ _ hexact
    have hleft : ∀ t sc, s'.scope? t = some sc → s.scope? t = some sc ∧ isMarked marks t := by
      intro t sc ht
      have hkept := hwithin t sc ht
      unfold scope? at hkept ⊢
      rw [record?_removeAll] at hkept
      split at hkept
      · cases hkept
      · next hn =>
        rw [mem_unmarked_iff (contains_of_scope? hkept), Bool.not_eq_false] at hn
        exact ⟨hkept, hn⟩
    refine ⟨marks, s', hmarks, ?_, hexact', fun t sc ht => (hleft t sc ht).1, fun t ht => ?_⟩
    · unfold collect
      simp only [get_bind, hmarks]
      exact bind_of_ok hok
    · obtain ⟨r, hr⟩ := contains_iff.mp ht
      exact (hleft t r.scope (by simp [scope?, hr])).2
  · intro t ht
    rw [mem_unmarked_iff (h.held_live t ht), hroots t ht]
    exact Bool.noConfusion
  · intro t r hr hkept u hu
    rw [mem_unmarked_iff (contains_of_record? hr), Bool.not_eq_false] at hkept
    rw [mem_unmarked_iff (h.refs_live t r hr u hu), Bool.not_eq_false]
    exact (hclosed t r hr hkept u hu).resolve_right List.not_mem_nil

theorem collect_exact {s : Store} {roots : List Ticket} (h : Exact s roots) :
    ∃ n s', collect roots s = .ok n s' ∧ Exact s' roots ∧ View.Within s'.scope? s.scope? := by
  obtain ⟨_, s', -, hok, hexact, hwithin, -⟩ := collect_marked h
  exact ⟨_, s', hok, hexact, hwithin⟩

end LiveLisp.Store
