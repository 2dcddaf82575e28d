/-
  The delete cascade, whatever the order in which it follows the references of the records that it
  removes. `dropAll` takes the last reference first; `dropAllBy` is told the order, record by
  record, and `dropAll` is one case of it.

  A count given up is a count that somebody held: a removed record hands what it held over to the
  cascade. So on an exact store every order leads to the end and leaves an exact store
  (`dropAllBy_exact`).
-/
import LiveLisp.Proofs.Scope.Exact

namespace LiveLisp.Store

/-! ## Views after giving up counts -/

theorem scope?_setRecord {s : Store} {t : Ticket} {r r' : Record} (h : s.record? t = some r)
    (hsame : r'.scope = r.scope) (u : Ticket) : (s.setRecord t r').scope? u = s.scope? u := by
  unfold scope?
  rw [record?_setRecord h]
  split
  · next e => simp [e, h, hsame]
  · rfl

theorem within_free {s : Store} {t : Ticket} {r : Record} (h : s.record? t = some r) :
    View.Within (s.free t).scope? s.scope? := by
  intro u sc hu
  unfold scope? at hu ⊢
  rw [record?_free h] at hu
  split at hu
  · cases hu
  · exact hu

/-- The record that goes is held by no record. -/
theorem Exact.remains_free {s : Store} {held : List Ticket} {t : Ticket} {r : Record}
    (h : Exact s (t :: held)) (ht : s.record? t = some r) (hone : r.refcount = 1) :
    View.Remains (s.free t).scope? s.scope? where
  within := within_free ht
  closed := (h.free ht hone).closed
  gone u sc hu hgone := by
    refine .intro u fun w hw => ?_
    obtain ⟨scw, hscw, hmem⟩ := hw
    obtain ⟨rw, hrw, rfl⟩ := Option.map_eq_some_iff.mp hscw
    unfold scope? at hu hgone
    rw [record?_free ht] at hgone
    split at hgone
    · next e => exact absurd (e ▸ hmem) (h.unheld ht hone hrw)
    · rw [hu] at hgone
      cases hgone

/-- Giving up a count that is not the last one. -/
theorem Exact.lower {s : Store} {held : List Ticket} {t : Ticket} {r : Record}
    (h : Exact s (t :: held)) (ht : s.record? t = some r) (hmany : 1 < r.refcount) :
    Exact (s.setRecord t { r with refcount := r.refcount - 1 }) held := by
  refine Exact.setRecord h ht rfl (fun u hu => h.held_live u (List.mem_cons_of_mem t hu))
    (h.refs_live t r ht) ?_ ?_
  · rw [List.count_cons_self]
    show r.refcount - 1 + _ + r.references.count t = r.refcount + _ + r.references.count t
    omega
  · intro u hu
    rw [List.count_cons_of_ne (Ne.symm hu)]
    rfl

/-! ## Orders -/

/-- The references of a removed record, in the order in which they are to be given up. -/
abbrev Order := Ticket → Record → List Ticket

/-- Every reference is given up, each as often as the record holds it. -/
def Order.Fair (order : Order) : Prop :=
  ∀ t r, (order t r).Perm r.references

/-- The last reference first. -/
def Order.lastFirst : Order := fun _ r => r.references.reverse

theorem Order.lastFirst_fair : lastFirst.Fair := fun _ r => r.references.reverse_perm

/-- Drops one count for each ticket, the first one first. A record without counts left is removed,
and what it kept alive goes before the tickets that are left, in the order given. -/
def dropAllBy (order : Order) (s : Store) (pending : List Ticket) :
    EStateM.Result Error Store Unit :=
  match pending with
  | [] => .ok () s
  | t :: rest =>
    match _h : s.record? t with
    | none => .error (.internal (.unknownTicket t)) s
    | some r =>
      if _h0 : r.refcount = 0 then .error (.internal (.belowZero t)) s
      else if _h1 : r.refcount = 1 then dropAllBy order (s.free t) (order t r ++ rest)
      else dropAllBy order (s.setRecord t { r with refcount := r.refcount - 1 }) rest
termination_by s.total
decreasing_by
  · have := total_free _h
    omega
  · have := total_setRecord _h { r with refcount := r.refcount - 1 }
    simp only at this
    omega

theorem dropAllBy_lastFirst (s : Store) (pending : List Ticket) :
    s.dropAllBy .lastFirst pending = s.dropAll pending := by
  fun_induction dropAll s pending with
  | case1 s => rw [dropAllBy]
  | case2 s t rest hnone => grind [dropAllBy]
  | case3 s t rest r hr hzero => grind [dropAllBy]
  | case4 s t rest r hr hpos hone ih => grind [dropAllBy, Order.lastFirst]
  | case5 s t rest r hr hpos hmany ih => grind [dropAllBy]

/-- Pending releases are counts that somebody holds, and a removed record hands its own references
over to them. -/
theorem dropAllBy_exact {order : Order} (hfair : order.Fair) (s : Store)
    (pending held : List Ticket) (h : Exact s (pending ++ held)) :
    ∃ s', s.dropAllBy order pending = .ok () s' ∧ Exact s' held ∧
      View.Remains s'.scope? s.scope? := by
  fun_induction dropAllBy order s pending with
  | case1 s => exact ⟨s, rfl, h, .refl h.closed⟩
  | case2 s t rest hnone =>
    have := h.held_live t (by simp)
    simp [contains, hnone] at this
  | case3 s t rest r hr hzero =>
    have := h.counted t r hr
    simp at this
    omega
  | case4 s t rest r hr hpos hone ih =>
    have hfree : Exact (s.free t) (order t r ++ rest ++ held) := by
      refine (Exact.free h hr hone).congr fun u => ?_
      simp [List.count_append, (hfair t r).count_eq]
    obtain ⟨s', hok, hexact, hremains⟩ := ih hfree
    exact ⟨s', hok, hexact, hremains.trans (h.remains_free hr hone)⟩
  | case5 s t rest r hr hpos hmany ih =>
    have hlower := Exact.lower h hr (by omega)
    obtain ⟨s', hok, hexact, hremains⟩ := ih hlower
    exact ⟨s', hok, hexact, hremains.trans (.of_eq (scope?_setRecord hr rfl) hlower.closed)⟩

end LiveLisp.Store
