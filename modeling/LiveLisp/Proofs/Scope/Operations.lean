/-
  What each operation of the scope store does to an exact store. Given the counts that it needs,
  every operation succeeds; it moves counts between the store and its caller, and what the records
  say changes by one binding or one scope at most, apart from records that are gone.
-/
import LiveLisp.Proofs.Outcome
import LiveLisp.Proofs.Scope.Cascade

namespace LiveLisp.Store

/-! ## Views after the primitives -/

theorem scope?_setBinding {s : Store} {t : Ticket} {r : Record}
    (h : s.record? t = some r) (name : String) (v : Value) :
    (s.setRecord t { r with bindings := r.bindings.put name v }).scope? =
    View.bind s.scope? t name v := by
  funext u
  show (((s.setRecord t _).record? u).map Record.scope) = View.bind s.scope? t name v u
  rw [record?_setRecord h]
  unfold View.bind scope?
  split
  · simp [h, Record.scope]
  · rfl

theorem scope?_alloc {s : Store} (hw : s.WellFormed) (r : Record) :
    (s.alloc r).2.scope? = View.add s.scope? (s.alloc r).1 r.scope := by
  funext u
  unfold scope? View.add
  rw [record?_alloc hw]
  split <;> rfl

theorem scope?_alloc_self {s : Store} (hw : s.WellFormed) (r : Record) :
    s.scope? (s.alloc r).1 = none := by
  unfold scope?
  rw [record?_alloc_self hw]
  rfl

theorem contains_of_scope?_eq {s s' : Store} (h : ∀ u, s'.scope? u = s.scope? u) (t : Ticket) :
    s'.contains t = s.contains t := by
  have := congrArg Option.isSome (h t)
  unfold scope? at this
  rw [Option.isSome_map, Option.isSome_map] at this
  exact this

theorem scope?_eq_some {s : Store} {t : Ticket} {sc : Scope} (h : s.scope? t = some sc) :
    ∃ r, s.record? t = some r ∧ r.scope = sc :=
  Option.map_eq_some_iff.mp h

/-! ## Counts up and down -/

theorem dropAll_exact (s : Store) (pending held : List Ticket) (h : Exact s (pending ++ held)) :
    ∃ s', s.dropAll pending = .ok () s' ∧ Exact s' held ∧ View.Remains s'.scope? s.scope? := by
  rw [← dropAllBy_lastFirst]
  exact dropAllBy_exact Order.lastFirst_fair s pending held h

theorem decref_exact {s : Store} {t : Ticket} {held : List Ticket} (h : Exact s (t :: held)) :
    ∃ s', decref t s = .ok () s' ∧ Exact s' held ∧ View.Remains s'.scope? s.scope? :=
  dropAll_exact s [t] held h

theorem incref_exact {s : Store} {t : Ticket} {held : List Ticket} (h : Exact s held)
    (ht : s.contains t) :
    ∃ s', incref t s = .ok () s' ∧ Exact s' (t :: held) ∧ ∀ u, s'.scope? u = s.scope? u := by
  obtain ⟨r, hr⟩ := contains_iff.mp ht
  refine ⟨s.setRecord t { r with refcount := r.refcount + 1 }, by
    simp [incref, hr], ?_, scope?_setRecord hr rfl⟩
  refine Exact.setRecord h hr rfl ?_ (h.refs_live t r hr) ?_ ?_
  · intro u hu
    rcases List.mem_cons.mp hu with e | hu
    · exact e ▸ ht
    · exact h.held_live u hu
  · rw [List.count_cons_self]
    show r.refcount + 1 + _ + r.references.count t = r.refcount + _ + r.references.count t
    omega
  · intro u hu
    rw [List.count_cons_of_ne (Ne.symm hu)]
    rfl

/-- Whoever keeps a value gains a count of each scope in it. -/
theorem retain_exact {s : Store} {v : Value} {held : List Ticket} (h : Exact s held)
    (hv : ∀ u ∈ v.scopes, s.contains u) :
    ∃ s', retain v s = .ok () s' ∧ Exact s' (v.scopes ++ held) ∧ ∀ u, s'.scope? u = s.scope? u := by
  have hloop := forM_of_turns (f := incref)
    (P := fun left s' =>
      (∃ done, Exact s' (done ++ held) ∧ ∀ u, done.count u + left.count u = v.scopes.count u) ∧
      (∀ u ∈ left, s.contains u) ∧ ∀ u, s'.scope? u = s.scope? u) ?_ v.scopes s ?_
  · obtain ⟨s', hok, ⟨done, hexact, hdone⟩, -, hsame⟩ := hloop
    refine ⟨s', hok, hexact.congr fun u => ?_, hsame⟩
    have := hdone u
    simp at this
    simp [List.count_append, this]
  · rintro t left s₁ ⟨⟨done, hexact, hdone⟩, hlive, hsame⟩
    have ht : s₁.contains t := by
      rw [contains_of_scope?_eq hsame]
      exact hlive t (List.mem_cons_self ..)
    obtain ⟨s₂, hok, hexact', hsame'⟩ := incref_exact hexact ht
    refine ⟨s₂, hok, ⟨t :: done, hexact', fun u => ?_⟩, fun u hu =>
      hlive u (List.mem_cons_of_mem t hu),
      fun u => (hsame' u).trans (hsame u)⟩
    have := hdone u
    simp only [List.count_cons] at this ⊢
    omega
  · exact ⟨⟨[], h, by simp⟩, hv, fun _ => rfl⟩

/-- Whoever lets go of a value gives up a count of each scope in it. -/
theorem release_exact {s : Store} {v : Value} {held : List Ticket}
    (h : Exact s (v.scopes ++ held)) :
    ∃ s', release v s = .ok () s' ∧ Exact s' held ∧ View.Remains s'.scope? s.scope? := by
  have hloop := forM_of_turns (f := decref)
    (P := fun left s' => Exact s' (left ++ held) ∧
      View.Remains s'.scope? s.scope?) ?_ v.scopes s ⟨h, .refl h.closed⟩
  · exact hloop
  · rintro t left s₁ ⟨hexact, hremains⟩
    obtain ⟨s₂, hok, hexact', hremains'⟩ := decref_exact hexact
    exact ⟨s₂, hok, hexact', hremains'.trans hremains⟩

/-! ## Bindings -/

/-- A value whose counts are held outside takes the place of what a name stood for, and that is let
go. This is what `define` and `assign` have in common, once they know the record. -/
theorem rebind_exact {s : Store} {t : Ticket} {r : Record} (name : String) {v : Value}
    {held : List Ticket} (h : Exact s (v.scopes ++ held)) (hr : s.record? t = some r) :
    ∃ s', (match r.bindings.get? name with
        | some old => release old
        | none => pure ()) (s.setRecord t
          { r with bindings := r.bindings.put name v }) = .ok () s' ∧
      Exact s' held ∧ View.Remains s'.scope? (View.bind s.scope? t name v) := by
  have hput : Exact (s.setRecord t { r with bindings := r.bindings.put name v })
      (r.bindings.scopesAt name ++ held) := by
    have hcount : ∀ u, (r.bindings.scopesAt name ++ held).count u
        + ({ r with bindings := r.bindings.put name v } : Record).references.count u
        = (v.scopes ++ held).count u + r.references.count u := by
      intro u
      have := NameMap.count_scopes_put u name v r.bindings
      simp only [Record.references_eq, List.count_append]
      omega
    refine Exact.setRecord h hr rfl ?_ ?_ ?_ fun u _ => hcount u
    · intro u hu
      rcases List.mem_append.mp hu with hu | hu
      · apply h.refs_live t r hr
        rw [Record.references_eq]
        exact List.mem_append_right _ (NameMap.mem_scopes_of_mem_scopesAt hu)
      · exact h.held_live u (List.mem_append_right _ hu)
    · intro u hu
      rw [Record.references_eq, List.mem_append] at hu
      rcases hu with hu | hu
      · exact h.refs_live t r hr u (List.mem_append_left _ hu)
      · rcases NameMap.mem_scopes_put hu with hu | hu
        · exact h.refs_live t r hr u (List.mem_append_right _ hu)
        · exact h.held_live u (List.mem_append_left _ hu)
    · have := hcount t
      show r.refcount + _ + r.references.count t = r.refcount + _ + _
      omega
  rw [← scope?_setBinding hr]
  unfold NameMap.scopesAt at hput
  cases hold : r.bindings.get? name with
  | none =>
    rw [hold] at hput
    exact ⟨_, rfl, hput, .refl hput.closed⟩
  | some old =>
    rw [hold] at hput
    exact release_exact hput

theorem define_exact {s : Store} {t : Ticket} (name : String) {v : Value} {held : List Ticket}
    (h : Exact s held) (ht : s.contains t) (hv : ∀ u ∈ v.scopes, s.contains u) :
    ∃ s', define t name v s = .ok () s' ∧ Exact s' held ∧
      View.Remains s'.scope? (View.bind s.scope? t name v) := by
  obtain ⟨s₁, hretain, hexact, hsame⟩ := retain_exact h hv
  obtain ⟨r, hr⟩ := contains_iff.mp ((contains_of_scope?_eq hsame t).trans ht)
  obtain ⟨s₂, hrelease, hexact', hremains⟩ := rebind_exact name hexact hr
  refine ⟨s₂, ?_, hexact', ?_⟩
  · unfold define
    rw [bind_of_ok hretain, get_bind, hr]
    exact hrelease
  · rw [show s₁.scope? = s.scope? from funext hsame] at hremains
    exact hremains

/-- The record of a new scope binds nothing yet; only its parent has to be held, and it takes that
count over. -/
theorem allocIn_exact {s : Store} (parent : Option Ticket) {held : List Ticket}
    (h : Exact s (parent.toList ++ held)) :
    Exact (s.alloc ⟨1, [], parent⟩).2 ((s.alloc ⟨1, [], parent⟩).1 :: held) := by
  refine Exact.alloc h rfl fun u => ?_
  simp only [Record.references_eq, NameMap.scopes_nil, List.append_nil, List.count_append]
  omega

theorem newScope_exact {s : Store} {held : List Ticket} (h : Exact s held) :
    ∃ t s', newScope s = .ok t s' ∧ Exact s' (t :: held) ∧ s.scope? t = none ∧
      s'.scope? = View.add s.scope? t ⟨[], none⟩ := by
  exact ⟨_, _, rfl, allocIn_exact none h, scope?_alloc_self h.wellFormed _,
    scope?_alloc h.wellFormed _⟩

/-- Binding names one after the other in a scope that is held. -/
theorem defineAll_exact {t : Ticket} {f : View} {parent : Option Ticket} {held : List Ticket} :
    ∀ (bindings : List (String × Value)) (bound : NameMap Value) (s : Store), Exact s (t :: held) →
      (∀ pair ∈ bindings, ∀ u ∈ pair.2.scopes, u ∈ held) →
      View.Remains s.scope? (f.add t ⟨bound, parent⟩) →
      ∃ s', (bindings.forM fun (name, v) => define t name v) s = .ok ⟨⟩ s' ∧ Exact s' (t :: held) ∧
        View.Remains s'.scope? (f.add t ⟨bound.putAll bindings, parent⟩) := by
  intro bindings
  induction bindings with
  | nil => exact fun bound s h _ hremains => ⟨s, rfl, h, hremains⟩
  | cons pair rest ih =>
    intro bound s h hheld hremains
    obtain ⟨name, v⟩ := pair
    have hv : ∀ u ∈ v.scopes, s.contains u := fun u hu =>
      h.held_live u (List.mem_cons_of_mem t (hheld (name, v) List.mem_cons_self u hu))
    obtain ⟨s₁, hdefine, hexact, hremains₁⟩ :=
      define_exact name h (h.held_live t List.mem_cons_self) hv
    have hremains₂ : View.Remains s₁.scope? (f.add t ⟨bound.put name v, parent⟩) := by
      rw [← View.bind_add]
      exact hremains₁.trans (hremains.bind t name fun u hu => exists_scope?_of_contains (hv u hu))
    obtain ⟨s₂, hloop, hexact', hremains'⟩ := ih (bound.put name v) s₁ hexact
      (fun pair hp => hheld pair (List.mem_cons_of_mem _ hp)) hremains₂
    refine ⟨s₂, ?_, hexact', hremains'⟩
    show (define t name v >>= fun _ => rest.forM fun (name, v) => define t name v) s = _
    rw [bind_of_ok hdefine, hloop]

/-- A new scope inside another: its maker owns its one count. The values it binds are held by the
caller, who keeps them. -/
theorem newScopeIn_exact {s : Store} {parent : Ticket} {bindings : List (String × Value)}
    {held : List Ticket} (h : Exact s held) (hp : s.contains parent)
    (hheld : ∀ pair ∈ bindings, ∀ u ∈ pair.2.scopes, u ∈ held) :
    ∃ t s', newScopeIn parent bindings s = .ok t s' ∧ Exact s' (t :: held) ∧ s.scope? t = none ∧
      View.Remains s'.scope? (View.add s.scope? t ⟨NameMap.putAll [] bindings, some parent⟩) := by
  obtain ⟨s₁, hincref, hexact, hsame⟩ := incref_exact h hp
  have hsame' : s₁.scope? = s.scope? := funext hsame
  have hnew := allocIn_exact (some parent) hexact
  have hview : View.Remains (s₁.alloc ⟨1, [], some parent⟩).2.scope?
      (View.add s.scope? (s₁.alloc ⟨1, [], some parent⟩).1 ⟨[], some parent⟩) := by
    refine .of_eq (fun u => ?_) hnew.closed
    rw [scope?_alloc hexact.wellFormed, hsame']
    rfl
  obtain ⟨s₂, hloop, hexact', hremains⟩ := defineAll_exact bindings [] _ hnew hheld hview
  refine ⟨_, s₂, ?_, hexact', ?_, hremains⟩
  · unfold newScopeIn
    rw [bind_of_ok hincref, get_bind]
    exact bind_of_ok (f := fun _ => pure (s₁.alloc ⟨1, [], some parent⟩).1) hloop
  · rw [← hsame', scope?_alloc_self hexact.wellFormed]

/-! ## Chains of scopes -/

/-- How many good tickets rank below a ticket. It bounds the chain of parents, and so the fuel that
a look-up needs. -/
def below (s : Store) (rank : Ticket → Nat) (t : Ticket) : Nat :=
  (s.tickets.filter fun u => decide (rank u < rank t)).length

theorem mem_tickets_iff {s : Store} {t : Ticket} : t ∈ s.tickets ↔ s.contains t := by
  unfold tickets
  rw [List.mem_filterMap, contains_iff]
  constructor
  · rintro ⟨⟨slot, i⟩, hmem, hmap⟩
    obtain ⟨r, hr, rfl⟩ := Option.map_eq_some_iff.mp hmap
    refine ⟨r, record?_eq_some_iff.mpr ?_⟩
    have := List.mem_zipIdx_iff_getElem?.mp hmem
    rw [← Array.getElem?_toList, this, ← hr]
  · rintro ⟨r, hr⟩
    have hslot := record?_eq_some_iff.mp hr
    refine ⟨(⟨t.generation, some r⟩, t.index), ?_, rfl⟩
    rw [List.mem_zipIdx_iff_getElem?, Array.getElem?_toList, hslot]

theorem length_tickets_le (s : Store) : s.tickets.length ≤ s.slots.size := by
  unfold tickets
  refine Nat.le_trans (List.length_filterMap_le _ _) ?_
  simp

theorem below_le_size (s : Store) (rank : Ticket → Nat) (t : Ticket) :
    s.below rank t ≤ s.slots.size :=
  Nat.le_trans (List.length_filter_le _ _) (length_tickets_le s)

theorem below_lt {s : Store} {rank : Ticket → Nat} {p t : Ticket} (hp : s.contains p)
    (hlt : rank p < rank t) :
    s.below rank p < s.below rank t := by
  have hsub : (s.tickets.filter fun u => decide (rank u < rank p)) =
      (s.tickets.filter fun u => decide (rank u < rank t)).filter fun u =>
        decide (rank u < rank p) := by
    rw [List.filter_filter]
    refine List.filter_congr fun u _ => ?_
    simp
    omega
  unfold below
  rw [hsub, List.length_filter_lt_length_iff_exists]
  exact ⟨p, by simp [mem_tickets_iff, hp, hlt], by simp⟩

/-- On an exact store a look-up along the parents never fails. -/
theorem ownerOf_exact {s : Store} {held : List Ticket} (h : Exact s held)
    (name : String) {t : Ticket} (ht : s.contains t) : ∃ o, s.ownerOf t name = .ok o ∧
    View.Owns s.scope? name t o := by
  obtain ⟨rank, hrank⟩ := h.wellFormed.ranked
  have hfuel : ∀ (fuel : Nat) (t : Ticket), s.contains t → s.below rank t < fuel →
      ∃ o, s.ownerWithin name fuel t = .ok o ∧ View.Owns s.scope? name t o := by
    intro fuel
    induction fuel with
    | zero => exact fun t _ hlt => absurd hlt (Nat.not_lt_zero _)
    | succ fuel ih =>
      intro t ht hlt
      obtain ⟨r, hr⟩ := contains_iff.mp ht
      have hscope : s.scope? t = some r.scope := by simp [scope?, hr]
      unfold ownerWithin
      rw [hr]
      cases hc : r.bindings.contains name with
      | true => exact ⟨some t, by simp [hc], .here hscope hc⟩
      | false =>
        cases hp : r.parent with
        | none => exact ⟨none, by simp [hc, hp], .nowhere hscope hc hp⟩
        | some p =>
          have hlive : s.contains p := h.refs_live t r hr p (by simp [Record.references_eq, hp])
          have hdown := below_lt hlive (hrank t r p hr hp)
          obtain ⟨o, hok, howns⟩ := ih p hlive (by omega)
          exact ⟨o, by simp [hc, hp, hok], .outward hscope hc hp howns⟩
  exact hfuel _ t ht (Nat.lt_succ_of_le (below_le_size s rank t))

theorem scope?_of_owns {f : View} {name : String} {t u : Ticket} (h : View.Owns f name t (some u)) :
    ∃ sc v, f u = some sc ∧ sc.bindings.get? name = some v := by
  generalize ho : some u = o at h
  induction h with
  | here h hc =>
    cases ho
    obtain ⟨v, hv⟩ := Option.isSome_iff_exists.mp hc
    exact ⟨_, v, h, hv⟩
  | outward _ _ _ _ ih => exact ih ho
  | nowhere => cases ho

/-- A look-up answers what the nearest binding says, and the caller then holds a count of it. -/
theorem lookup_exact {s : Store} {held : List Ticket} (h : Exact s held)
    (name : String) {t : Ticket} (ht : s.contains t) :
    (View.Owns s.scope? name t none ∧ lookup t name s = .ok none s) ∨
    (∃ u sc v s', View.Owns s.scope? name t (some u) ∧ s.scope? u = some sc ∧
      sc.bindings.get? name = some v ∧
      lookup t name s = .ok (some v) s' ∧ Exact s' (v.scopes ++ held) ∧
        ∀ u, s'.scope? u = s.scope? u) := by
  obtain ⟨o, hok, howns⟩ := ownerOf_exact h name ht
  unfold lookup
  simp only [get_bind, hok]
  cases o with
  | none => exact .inl ⟨howns, rfl⟩
  | some u =>
    obtain ⟨sc, v, hsc, hv⟩ := scope?_of_owns howns
    obtain ⟨r, hr, rfl⟩ := scope?_eq_some hsc
    have hlive : ∀ w ∈ v.scopes, s.contains w := by
      intro w hw
      apply h.refs_live u r hr
      rw [Record.references_eq]
      exact List.mem_append_right _ (NameMap.mem_scopes_of_get? hv hw)
    obtain ⟨s', hretain, hexact, hsame⟩ := retain_exact h hlive
    refine .inr ⟨u, r.scope, v, s', howns, hsc, hv, ?_, hexact, hsame⟩
    have hget : ((s.record? u).bind fun r => r.bindings.get? name) = some v := by
      rw [hr]
      exact hv
    simp only [hget]
    exact bind_of_ok hretain

/-- An assignment changes the nearest binding, if there is one. -/
theorem assign_exact {s : Store} {held : List Ticket} (h : Exact s held) (name : String)
    {t : Ticket} {v : Value} (ht : s.contains t) (hv : ∀ u ∈ v.scopes, s.contains u) :
    (View.Owns s.scope? name t none ∧ assign t name v s = .ok false s) ∨
    (∃ u s', View.Owns s.scope? name t (some u) ∧ assign t name v s = .ok true s' ∧ Exact s' held ∧
      View.Remains s'.scope? (View.bind s.scope? u name v)) := by
  obtain ⟨o, hok, howns⟩ := ownerOf_exact h name ht
  unfold assign
  simp only [get_bind, hok]
  cases o with
  | none => exact .inl ⟨howns, rfl⟩
  | some u =>
    obtain ⟨sc, w, hsc, -⟩ := scope?_of_owns howns
    obtain ⟨s₁, hretain, hexact, hsame⟩ := retain_exact h hv
    obtain ⟨r, hr⟩ :=
      contains_iff.mp ((contains_of_scope?_eq hsame u).trans (contains_of_scope? hsc))
    obtain ⟨s₂, hrelease, hexact', hremains⟩ := rebind_exact name hexact hr
    refine .inr ⟨u, s₂, howns, ?_, hexact', ?_⟩
    · simp only [bind_of_ok hretain, get_bind, hr, set_bind]
      cases hold : r.bindings.get? name with
      | none =>
        rw [hold] at hrelease
        cases hrelease
        rfl
      | some old =>
        rw [hold] at hrelease
        exact bind_of_ok hrelease
    · rw [show s₁.scope? = s.scope? from funext hsame] at hremains
      exact hremains

end LiveLisp.Store
