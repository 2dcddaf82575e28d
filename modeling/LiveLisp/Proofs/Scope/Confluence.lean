/-
  The delete cascade comes to one end. In whatever order it follows the references of the records
  that it removes, it leaves the same slots, and only the free list may be in another order
  (`decref_confluent`).

  Giving up one count touches one slot, and what it adds to the pending counts depends on the record
  of that slot alone. So two turns at different tickets can be taken in either order
  (`turn_diamond`), and the rest is the Church-Rosser argument. The free list and the number of live
  records need no turns of their own: in a well-formed store the slots determine them.
-/
import Mathlib.Data.Multiset.AddSub
import Mathlib.Logic.Relation
import LiveLisp.Proofs.Scope.Arena
import LiveLisp.Proofs.Scope.Sweeping

namespace LiveLisp.Store

/-! ## Turns -/

/-- The slot that giving up one count leaves, and the counts that are to be given up with it. -/
def turn (t : Ticket) (r : Record) : Slot × Multiset Ticket :=
  if r.refcount = 1 then (⟨t.generation + 1, none⟩, r.references)
  else (⟨t.generation, some { r with refcount := r.refcount - 1 }⟩, 0)

/-- Of the counts that are pending, in no order, one is given up. -/
inductive Turn : Array Slot × Multiset Ticket → Array Slot × Multiset Ticket → Prop
  | giveUp {slots : Array Slot} {pending : Multiset Ticket} {t : Ticket} {r : Record}
      (hslot : slots[t.index]? = some ⟨t.generation, some r⟩) (hpos : 0 < r.refcount) :
    Turn (slots, t ::ₘ pending) (slots.setIfInBounds t.index (turn t r).1, (turn t r).2 + pending)

/-- Two turns from one place are the same turn, or each can be completed by the other. -/
theorem turn_diamond {c c₁ c₂ : Array Slot × Multiset Ticket} (h₁ : Turn c c₁) (h₂ : Turn c c₂) :
    c₁ = c₂ ∨ ∃ d, Turn c₁ d ∧ Turn c₂ d := by
  obtain @⟨slots, pending, t, r, hslot, hpos⟩ := h₁
  generalize hc : (slots, t ::ₘ pending) = c at h₂
  obtain @⟨slots', pending', u, ru, hslot', hpos'⟩ := h₂
  obtain ⟨rfl, hpending⟩ := Prod.mk.inj hc
  rcases Multiset.cons_eq_cons.mp hpending with ⟨rfl, rfl⟩ | ⟨hne, others, rfl, rfl⟩
  · cases hslot.symm.trans hslot'
    exact .inl rfl
  · -- two good tickets are two slots
    have hindex : t.index ≠ u.index := by
      intro hi
      have hsame := Slot.mk.inj (Option.some.inj (hslot.symm.trans (hi ▸ hslot')))
      exact hne (by cases t; cases u; simp_all)
    have ht : (slots.setIfInBounds u.index (turn u ru).1)[t.index]? =
      some ⟨t.generation, some r⟩ := by
      rw [Array.getElem?_setIfInBounds_ne hindex.symm, hslot]
    have hu : (slots.setIfInBounds t.index (turn t r).1)[u.index]? =
      some ⟨u.generation, some ru⟩ := by
      rw [Array.getElem?_setIfInBounds_ne hindex, hslot']
    have hlater : (turn u ru).2 + ((turn t r).2 + others) = (turn t r).2 +
      ((turn u ru).2 + others) := by
      rw [← Multiset.add_assoc, Multiset.add_comm (turn u ru).2, Multiset.add_assoc]
    refine .inr ⟨((slots.setIfInBounds t.index (turn t r).1).setIfInBounds u.index (turn u ru).1,
      (turn u ru).2 + ((turn t r).2 + others)), ?_, ?_⟩
    · rw [Multiset.add_cons]
      exact .giveUp hu hpos'
    · rw [Multiset.add_cons, Array.setIfInBounds_comm _ _ hindex, hlater]
      exact .giveUp ht hpos

theorem eq_of_turns_done {slots : Array Slot} {c : Array Slot × Multiset Ticket}
    (h : Relation.ReflTransGen Turn (slots, 0) c) : c = (slots, 0) := by
  rcases h.cases_head with h | ⟨d, h, -⟩
  · exact h.symm
  · generalize hc : (slots, (0 : Multiset Ticket)) = c' at h
    cases h
    cases Multiset.cons_ne_zero (Prod.mk.inj hc).2.symm

/-- When no count is pending any more, the slots are the same however the turns were taken. -/
theorem slots_unique {c : Array Slot × Multiset Ticket} {slots slots' : Array Slot}
    (h : Relation.ReflTransGen Turn c (slots, 0)) (h' : Relation.ReflTransGen Turn c (slots', 0)) :
    slots = slots' := by
  have hjoin : Relation.Join (Relation.ReflTransGen Turn) (slots, 0) (slots', 0) := by
    refine Relation.church_rosser (fun c c₁ c₂ h₁ h₂ => ?_) h h'
    rcases turn_diamond h₁ h₂ with rfl | ⟨d, hd₁, hd₂⟩
    · exact ⟨c₁, .refl, .refl⟩
    · exact ⟨d, .single hd₁, .single hd₂⟩
  obtain ⟨d, hd, hd'⟩ := hjoin
  exact (Prod.mk.inj ((eq_of_turns_done hd).symm.trans (eq_of_turns_done hd'))).1

theorem dropAllBy_turns {order : Order} (hfair : order.Fair) {s s' : Store} {pending : List Ticket}
    (hok : s.dropAllBy order pending = .ok () s') :
    Relation.ReflTransGen Turn (s.slots, (pending : Multiset Ticket)) (s'.slots, 0) := by
  fun_induction dropAllBy order s pending with
  | case1 s =>
    cases hok
    exact .refl
  | case2 => cases hok
  | case3 => cases hok
  | case4 s t rest r hr hpos hone ih =>
    have hturn : Turn (s.slots, t ::ₘ (rest : Multiset Ticket)) _ :=
      .giveUp (record?_eq_some_iff.mp hr) (Nat.pos_of_ne_zero hpos)
    rw [turn, if_pos hone, ← Multiset.coe_eq_coe.mpr (hfair t r), Multiset.coe_add] at hturn
    exact .head hturn (ih hok)
  | case5 s t rest r hr hpos hmany ih =>
    have hturn : Turn (s.slots, t ::ₘ (rest : Multiset Ticket)) _ :=
      .giveUp (record?_eq_some_iff.mp hr) (Nat.pos_of_ne_zero hpos)
    rw [turn, if_neg hmany, Multiset.zero_add] at hturn
    exact .head hturn (ih hok)

/-! ## Stores that agree -/

/-- Two stores have the same slots, each with its generation and its record, and as many live
records; the same slots are free, if perhaps in another order. -/
structure Agrees (s s' : Store) : Prop where
  slots_eq : s.slots = s'.slots
  live_eq : s.live = s'.live
  freeList_perm : s.freeList.Perm s'.freeList

/-- Well-formed stores with the same slots agree. -/
theorem WellFormed.agrees {s s' : Store} (h : s.WellFormed) (h' : s'.WellFormed)
    (hslots : s.slots = s'.slots) :
    s.Agrees s' where
  slots_eq := hslots
  live_eq := by rw [h.live_eq, h'.live_eq, weigh, weigh, hslots]
  freeList_perm := by
    refine (List.perm_ext_iff_of_nodup h.free_nodup h'.free_nodup).mpr fun i => ?_
    rw [h.free_iff, h'.free_iff, hslots]

/-! ## Counts to spare -/

/-- The counts that no record accounts for. -/
def surplus (s : Store) : List Ticket :=
  s.tickets.flatMap fun t => List.replicate ((s.refcount? t).getD 0 - s.incoming t) t

theorem count_surplus {s : Store} {t : Ticket} {r : Record} (hr : s.record? t = some r) :
    s.surplus.count t = r.refcount - s.incoming t := by
  have hmem := mem_tickets_iff.mpr (contains_of_record? hr)
  have hothers :
    ∀ u ∈ s.tickets.erase t, t ∉ List.replicate ((s.refcount? u).getD 0 - s.incoming u) u := by
    intro u hu ht
    rw [List.eq_of_mem_replicate ht] at hu
    exact (nodup_tickets s).not_mem_erase hu
  have hrest : ((s.tickets.erase t).flatMap fun u =>
      List.replicate ((s.refcount? u).getD 0 - s.incoming u) u).count t = 0 := by
    rw [List.count_eq_zero, List.mem_flatMap]
    rintro ⟨u, hu, ht⟩
    exact hothers u hu ht
  rw [surplus, ((List.perm_cons_erase hmem).flatMap_right _).count_eq, List.flatMap_cons,
    List.count_append, hrest, List.count_replicate_self, refcount?, hr]
  rfl

/-- Counts that cover all references are exact, if whoever has the surplus is counted among the
holders. -/
theorem exact_surplus {s : Store} (hw : s.WellFormed)
    (hrefs : ∀ t r, s.record? t = some r → ∀ u ∈ r.references, s.contains u)
    (hcounts : ∀ t r, s.record? t = some r → s.incoming t ≤ r.refcount) : Exact s s.surplus where
  wellFormed := hw
  held_live := by
    intro t ht
    obtain ⟨u, hu, ht⟩ := List.mem_flatMap.mp ht
    rw [List.eq_of_mem_replicate ht]
    exact mem_tickets_iff.mp hu
  refs_live := hrefs
  counted := by
    intro t r hr
    rw [count_surplus hr, Nat.sub_add_cancel (hcounts t r hr)]

/-! ## One end -/

/-- On a store that is made by any calls, whose records refer to good tickets only and count no less
than the references to them: giving up a count that no reference accounts for succeeds, and so does
the cascade in any order; and any two orders leave stores that agree. -/
theorem decref_confluent (calls : List Call) (t : Ticket)
    (hrefs : ∀ u r, (empty.after calls).record? u = some r →
      ∀ v ∈ r.references, (empty.after calls).contains v)
    (hcounts : ∀ u r, (empty.after calls).record? u = some r →
      (empty.after calls).incoming u ≤ r.refcount)
    (hspare : ∃ r, (empty.after calls).record? t = some r ∧
      (empty.after calls).incoming t < r.refcount) :
    ∃ s', decref t (empty.after calls) = .ok () s' ∧
      ∀ order order' : Order, order.Fair → order'.Fair → ∃ s₁ s₂,
        (empty.after calls).dropAllBy order [t] = .ok () s₁ ∧
        (empty.after calls).dropAllBy order' [t] = .ok () s₂ ∧
        s₁.Agrees s₂ ∧ s₁.Agrees s' := by
  obtain ⟨r, hr, hlt⟩ := hspare
  have hmem : t ∈ (empty.after calls).surplus := by
    rw [← List.count_pos_iff, count_surplus hr]
    omega
  have hexact : Exact (empty.after calls) ([t] ++ (empty.after calls).surplus.erase t) :=
    (exact_surplus (arena_empty.after calls).arena.wellFormed hrefs hcounts).congr
      fun u => (List.perm_cons_erase hmem).symm.count_eq u
  have hagrees {order order' : Order} {s₁ s₂ : Store} (hfair : order.Fair) (hfair' : order'.Fair)
      (hok₁ : (empty.after calls).dropAllBy order [t] = .ok () s₁)
      (hok₂ : (empty.after calls).dropAllBy order' [t] = .ok () s₂) (hw₁ : s₁.WellFormed)
        (hw₂ : s₂.WellFormed) :
      s₁.Agrees s₂ :=
    hw₁.agrees hw₂ (slots_unique (dropAllBy_turns hfair hok₁) (dropAllBy_turns hfair' hok₂))
  obtain ⟨s', hok', hexact', -⟩ := dropAllBy_exact Order.lastFirst_fair _ _ _ hexact
  refine ⟨s', (dropAllBy_lastFirst _ [t]).symm.trans hok', fun order order' hfair hfair' => ?_⟩
  obtain ⟨s₁, hok₁, hexact₁, -⟩ := dropAllBy_exact hfair _ _ _ hexact
  obtain ⟨s₂, hok₂, hexact₂, -⟩ := dropAllBy_exact hfair' _ _ _ hexact
  exact ⟨s₁, s₂, hok₁, hok₂, hagrees hfair hfair' hok₁ hok₂ hexact₁.wellFormed hexact₂.wellFormed,
    hagrees hfair Order.lastFirst_fair hok₁ hok' hexact₁.wellFormed hexact'.wellFormed⟩

/-- A scope that holds itself twice, and three scopes in it; two of these are kept only by functions
bound in the third. -/
def siblings : List Call :=
  [.newScope, .newScopeIn ⟨0, 0⟩ [], .newScopeIn ⟨0, 0⟩ [], .newScopeIn ⟨0, 0⟩ [],
    .define ⟨0, 0⟩ "h" (.list [keeper ⟨0, 0⟩, keeper ⟨0, 0⟩]), .define ⟨1, 0⟩ "f" (keeper ⟨2, 0⟩),
    .define ⟨1, 0⟩ "g" (keeper ⟨3, 0⟩), .decref ⟨2, 0⟩, .decref ⟨3, 0⟩]

/-- The two go with the third, in one order or the other. -/
theorem decref_confluent_siblings : ∃ s₁ s₂,
    (empty.after siblings).dropAllBy .lastFirst [⟨1, 0⟩] = .ok () s₁ ∧
    (empty.after siblings).dropAllBy (fun _ r => r.references) [⟨1, 0⟩] = .ok () s₂ ∧
    s₁.freeList = [2, 3, 1] ∧ s₂.freeList = [3, 2, 1] ∧ s₁.Agrees s₂ := by
  have hrun : ((empty.after siblings).tickets.all fun u =>
    ((empty.after siblings).record? u).all fun r =>
      r.references.all (empty.after siblings).contains &&
        decide ((empty.after siblings).incoming u ≤ r.refcount)) &&
      (((empty.after siblings).record? ⟨1, 0⟩).any fun r =>
        decide ((empty.after siblings).incoming ⟨1, 0⟩ < r.refcount)) &&
      succeedsWith (fun _ s => decide (s.freeList = [2, 3, 1]))
        ((empty.after siblings).dropAllBy .lastFirst [⟨1, 0⟩]) &&
      succeedsWith (fun _ s => decide (s.freeList = [3, 2, 1]))
        ((empty.after siblings).dropAllBy (fun _ r => r.references) [⟨1, 0⟩]) = true := by
          decide +kernel
  simp only [Bool.and_eq_true, decide_eq_true_eq, List.all_eq_true,
    Option.all_eq_true, Option.any_eq_true, mem_tickets_iff] at hrun
  obtain ⟨⟨⟨hrecords, hspare⟩, hlast⟩, hfirst⟩ := hrun
  obtain ⟨s', -, hagree⟩ := decref_confluent siblings ⟨1, 0⟩
    (fun u r hr => (hrecords u (contains_of_record? hr) r hr).1)
      (fun u r hr => (hrecords u (contains_of_record? hr) r hr).2)
    hspare
  obtain ⟨s₁, s₂, hok₁, hok₂, hagrees, -⟩ :=
    hagree .lastFirst (fun _ r => r.references) Order.lastFirst_fair fun _ r => .refl _
  rw [hok₁] at hlast
  rw [hok₂] at hfirst
  exact ⟨s₁, s₂, hok₁, hok₂, of_decide_eq_true hlast, of_decide_eq_true hfirst, hagrees⟩

end LiveLisp.Store
