/-
  The scope store as an arena: what each of its three primitives (`setRecord`, `free`, `alloc`) does
  to the map from tickets to records, and the shape that they keep.

  `WellFormed` is what holds of every store whoever uses it and with whatever tickets: the free list
  names each empty slot once, parents were issued before their children, and so no chain of parents
  comes back to where it began. The creation order is a ghost: `ranked` says that some numbering of
  the tickets falls along every parent link.
-/
import LiveLisp.Scope.Sweep

namespace LiveLisp

/-- What a record says, without the count of those who hold it. -/
structure Scope where
  bindings : NameMap Value
  parent : Option Ticket

def Record.scope (r : Record) : Scope := ⟨r.bindings, r.parent⟩

/-- The generations under which a slot has been handed out: all before the present one, and that one
too while the slot is taken. -/
def Slot.HasIssued (slot : Slot) (generation : Nat) : Prop :=
  generation < slot.generation ∨ generation = slot.generation ∧ slot.record.isSome

namespace Store

/-- What the record of a good ticket says. -/
def scope? (s : Store) (t : Ticket) : Option Scope :=
  (s.record? t).map Record.scope

/-! ## The primitives, seen through tickets -/

theorem contains_iff {s : Store} {t : Ticket} : s.contains t ↔ ∃ r, s.record? t = some r := by
  unfold contains
  exact Option.isSome_iff_exists

theorem contains_of_record? {s : Store} {t : Ticket} {r : Record}
    (h : s.record? t = some r) : s.contains t :=
  contains_iff.mpr ⟨r, h⟩

theorem contains_of_scope? {s : Store} {t : Ticket} {sc : Scope}
    (h : s.scope? t = some sc) : s.contains t := by
  obtain ⟨r, hr, -⟩ := Option.map_eq_some_iff.mp h
  exact contains_of_record? hr

theorem exists_scope?_of_contains {s : Store} {t : Ticket} (h : s.contains t) :
    ∃ sc, s.scope? t = some sc := by
  obtain ⟨r, hr⟩ := contains_iff.mp h
  exact ⟨r.scope, by simp [scope?, hr]⟩

theorem record?_eq_some_iff {s : Store} {t : Ticket} {r : Record} :
    s.record? t = some r ↔ s.slots[t.index]? = some ⟨t.generation, some r⟩ := by
  constructor
  · intro h
    obtain ⟨hi, hget⟩ := record?_eq_some h
    rw [Array.getElem?_eq_getElem hi, hget]
  · intro h
    unfold record?
    rw [h]
    simp

/-- A slot shows a record only to tickets of its own generation. -/
theorem record?_of_slot {s : Store} {t : Ticket} {slot : Slot} (h : s.slots[t.index]? = some slot) :
    s.record? t = if slot.generation = t.generation then slot.record else none := by
  unfold record?
  rw [h]

theorem record?_setSlot {s : Store} {i : Nat} {slot : Slot} (hi : i < s.slots.size) (t : Ticket)
    {s' : Store} (hs : s'.slots = s.slots.setIfInBounds i slot) :
    s'.record? t =
      if t.index = i then (if slot.generation = t.generation then slot.record else none)
        else s.record? t := by
  unfold record?
  rw [hs, Array.getElem?_setIfInBounds]
  by_cases h : i = t.index
  · subst h
    simp [hi]
  · rw [if_neg h, if_neg (Ne.symm h)]

theorem record?_setRecord {s : Store} {t : Ticket} {r : Record}
    (h : s.record? t = some r) (r' : Record) (u : Ticket) :
    (s.setRecord t r').record? u = if u = t then some r' else s.record? u := by
  obtain ⟨hi, hget⟩ := record?_eq_some h
  have hslot : s.slots[t.index]? = some ⟨t.generation, some r⟩ := record?_eq_some_iff.mp h
  rw [record?_setSlot hi u rfl]
  by_cases hu : u.index = t.index
  · rw [if_pos hu]
    by_cases hg : t.generation = u.generation
    · have : u = t := by cases u; cases t; simp_all
      rw [if_pos hg, if_pos this]
    · have hne : u ≠ t := fun e => hg (by rw [e])
      have hslot' : s.slots[u.index]? = some ⟨t.generation, some r⟩ := by rw [hu, hslot]
      rw [if_neg hg, if_neg hne, record?_of_slot hslot', if_neg hg]
  · have hne : u ≠ t := fun e => hu (by rw [e])
    rw [if_neg hu, if_neg hne]

theorem record?_free {s : Store} {t : Ticket} {r : Record} (h : s.record? t = some r) (u : Ticket) :
    (s.free t).record? u = if u = t then none else s.record? u := by
  obtain ⟨hi, hget⟩ := record?_eq_some h
  have hslot : s.slots[t.index]? = some ⟨t.generation, some r⟩ := record?_eq_some_iff.mp h
  rw [record?_setSlot hi u rfl]
  by_cases hu : u.index = t.index
  · rw [if_pos hu]
    by_cases hut : u = t
    · rw [if_pos hut, ite_self]
    · have hg : ¬ t.generation = u.generation := by
        intro e
        apply hut
        cases u; cases t; simp_all
      have hslot' : s.slots[u.index]? = some ⟨t.generation, some r⟩ := by rw [hu, hslot]
      rw [if_neg hut, ite_self, record?_of_slot hslot', if_neg hg]
  · have hne : u ≠ t := fun e => hu (by rw [e])
    rw [if_neg hu, if_neg hne]

/-! ## Weights

  A weight gives each record a number. `total` weighs records by their counts; the number of
  references to a ticket is another weight. A primitive changes one slot, so it changes any weight
  by what that slot's record weighed. -/

theorem sumBy_append {α : Type} (f : α → Nat) (l l' : List α) :
    sumBy f (l ++ l') = sumBy f l + sumBy f l' := by
  induction l with
  | nil => simp [sumBy]
  | cons a l ih =>
    rw [List.cons_append, sumBy, sumBy, ih]
    omega

theorem sumBy_eq_zero {α : Type} {f : α → Nat} {l : List α}
    (h : ∀ a ∈ l, f a = 0) : sumBy f l = 0 := by
  induction l with
  | nil => rfl
  | cons a l ih =>
    rw [sumBy, h a (List.mem_cons_self ..), ih fun b hb => h b (List.mem_cons_of_mem a hb)]

/-- The sum of a weight over all records. -/
def weigh (w : Record → Nat) (s : Store) : Nat :=
  sumBy (fun slot => (slot.record.map w).getD 0) s.slots.toList

theorem weigh_setSlot (w : Record → Nat) {s : Store} (s' : Store) {i : Nat} {old slot : Slot}
    (h : s.slots[i]? = some old) (hs : s'.slots = s.slots.setIfInBounds i slot) :
    weigh w s' + (old.record.map w).getD 0 = weigh w s + (slot.record.map w).getD 0 := by
  obtain ⟨hi, hget⟩ := Array.getElem?_eq_some_iff.mp h
  have hl : i < s.slots.toList.length := by simpa using hi
  have hsum := sumBy_set (fun slot : Slot => (slot.record.map w).getD 0) s.slots.toList i hl slot
  have hget' : s.slots.toList[i] = old := by simpa using hget
  rw [hget'] at hsum
  unfold weigh
  rw [hs, Array.toList_setIfInBounds]
  exact hsum

theorem weigh_setRecord (w : Record → Nat) {s : Store} {t : Ticket} {r : Record}
    (h : s.record? t = some r) (r' : Record) :
    weigh w (s.setRecord t r') + w r = weigh w s + w r' := by
  simpa using weigh_setSlot w (s.setRecord t r') (record?_eq_some_iff.mp h) rfl

theorem weigh_free (w : Record → Nat) {s : Store} {t : Ticket} {r : Record}
    (h : s.record? t = some r) :
    weigh w (s.free t) + w r = weigh w s := by
  simpa using weigh_setSlot w (s.free t) (record?_eq_some_iff.mp h) rfl

theorem le_weigh (w : Record → Nat) {s : Store} {t : Ticket} {r : Record}
    (h : s.record? t = some r) :
    w r ≤ weigh w s := by
  have := weigh_free w h
  omega

theorem weigh_eq_zero {w : Record → Nat} {s : Store} (h : ∀ t r, s.record? t = some r → w r = 0) :
    weigh w s = 0 := by
  unfold weigh
  refine sumBy_eq_zero fun slot hslot => ?_
  obtain ⟨i, hi, hget⟩ := List.getElem_of_mem hslot
  cases hr : slot.record with
  | none => rfl
  | some r =>
    apply h ⟨i, slot.generation⟩ r
    rw [record?_eq_some_iff, ← Array.getElem?_toList, List.getElem?_eq_getElem hi, hget, ← hr]

/-! ## Well-formed stores -/

/-- A ticket that the store has handed out: its record is there, or was removed and will not come
back. -/
def Issued (s : Store) (t : Ticket) : Prop :=
  ∃ slot, s.slots[t.index]? = some slot ∧ slot.HasIssued t.generation

theorem issued_of_contains {s : Store} {t : Ticket} (h : s.contains t) : s.Issued t := by
  obtain ⟨r, hr⟩ := contains_iff.mp h
  exact ⟨_, record?_eq_some_iff.mp hr, .inr ⟨rfl, rfl⟩⟩

theorem issued_setSlot {s : Store} (s' : Store) {i : Nat} {old slot : Slot}
    (h : s.slots[i]? = some old) (hs : s'.slots = s.slots.setIfInBounds i slot)
    (hg : ∀ g, old.HasIssued g → slot.HasIssued g) {u : Ticket}
    (hu : s.Issued u) : s'.Issued u := by
  obtain ⟨here, hhere, hissued⟩ := hu
  unfold Issued
  rw [hs, Array.getElem?_setIfInBounds]
  by_cases hi : i = u.index
  · subst hi
    rw [h] at hhere
    cases hhere
    exact ⟨slot, by rw [if_pos rfl, if_pos (Array.getElem?_eq_some_iff.mp h).1], hg _ hissued⟩
  · exact ⟨here, by rw [if_neg hi, hhere], hissued⟩

structure WellFormed (s : Store) : Prop where
  free_iff : ∀ i, i ∈ s.freeList ↔ ∃ slot, s.slots[i]? = some slot ∧ slot.record = none
  free_nodup : s.freeList.Nodup
  live_eq : s.live = weigh (fun _ => 1) s
  parent_issued : ∀ t r p, s.record? t = some r → r.parent = some p → s.Issued p
  ranked : ∃ rank : Ticket → Nat, ∀ t r p, s.record? t = some r →
    r.parent = some p → rank p < rank t

theorem wellFormed_empty : WellFormed .empty where
  free_iff := by simp [empty]
  free_nodup := List.nodup_nil
  live_eq := rfl
  parent_issued := by simp [record?, empty]
  ranked := ⟨fun _ => 0, by simp [record?, empty]⟩

theorem issued_setRecord {s : Store} {t : Ticket} {r : Record}
    (h : s.record? t = some r) (r' : Record) {u : Ticket} (hu : s.Issued u) :
    (s.setRecord t r').Issued u :=
  issued_setSlot (s.setRecord t r') (record?_eq_some_iff.mp h) rfl (fun _ hg => hg) hu

theorem issued_free {s : Store} {t : Ticket} {r : Record} (h : s.record? t = some r)
    {u : Ticket} (hu : s.Issued u) : (s.free t).Issued u := by
  refine issued_setSlot (s.free t) (record?_eq_some_iff.mp h) rfl (fun g hg => .inl ?_) hu
  rcases hg with hlt | ⟨he, -⟩
  · exact Nat.lt_succ_of_lt hlt
  · exact he ▸ Nat.lt_succ_self _

/-- Changing a record that keeps its parent keeps the shape. -/
theorem WellFormed.setRecord {s : Store} (hw : s.WellFormed) {t : Ticket} {r : Record}
    (h : s.record? t = some r) {r' : Record} (hp : r'.parent = r.parent) :
    (s.setRecord t r').WellFormed where
  free_iff := by
    intro i
    have ht := record?_eq_some_iff.mp h
    show i ∈ s.freeList ↔ _
    rw [hw.free_iff i]
    simp only [Store.setRecord, Array.getElem?_setIfInBounds]
    by_cases hi : t.index = i
    · subst hi
      rw [if_pos rfl, if_pos (Array.getElem?_eq_some_iff.mp ht).1, ht]
      simp
    · rw [if_neg hi]
  free_nodup := hw.free_nodup
  live_eq := by
    have := weigh_setRecord (fun _ => 1) h r'
    show s.live = _
    rw [hw.live_eq]
    omega
  parent_issued := by
    intro u ru p hu hru
    rw [record?_setRecord h] at hu
    apply issued_setRecord h
    split at hu
    · cases hu
      exact hw.parent_issued t r p h (hp ▸ hru)
    · exact hw.parent_issued u ru p hu hru
  ranked := by
    obtain ⟨rank, hrank⟩ := hw.ranked
    refine ⟨rank, ?_⟩
    intro u ru p hu hru
    rw [record?_setRecord h] at hu
    split at hu
    · next e =>
      cases hu
      exact e ▸ hrank t r p h (hp ▸ hru)
    · exact hrank u ru p hu hru

theorem WellFormed.free {s : Store} (hw : s.WellFormed) {t : Ticket} {r : Record}
    (h : s.record? t = some r) :
    (s.free t).WellFormed where
  free_iff := by
    intro i
    have ht := record?_eq_some_iff.mp h
    simp only [Store.free, List.mem_cons, Array.getElem?_setIfInBounds]
    by_cases hi : t.index = i
    · subst hi
      simp [(Array.getElem?_eq_some_iff.mp ht).1]
    · rw [if_neg hi, hw.free_iff i]
      simp [Ne.symm hi]
  free_nodup := by
    have ht := record?_eq_some_iff.mp h
    refine List.nodup_cons.mpr ⟨?_, hw.free_nodup⟩
    rw [hw.free_iff]
    rintro ⟨slot, hslot, hnone⟩
    rw [ht] at hslot
    cases hslot
    cases hnone
  live_eq := by
    have := weigh_free (fun _ => 1) h
    show s.live - 1 = _
    rw [hw.live_eq]
    omega
  parent_issued := by
    intro u ru p hu hru
    rw [record?_free h] at hu
    split at hu
    · cases hu
    · exact issued_free h (hw.parent_issued u ru p hu hru)
  ranked := by
    obtain ⟨rank, hrank⟩ := hw.ranked
    refine ⟨rank, ?_⟩
    intro u ru p hu hru
    rw [record?_free h] at hu
    split at hu
    · cases hu
    · exact hrank u ru p hu hru

/-- The slot that `alloc` fills: empty, or one past the end. Either way the new ticket was never
issued. -/
theorem alloc_cases {s : Store} (hw : s.WellFormed) (r : Record) :
    (∃ index rest generation, s.freeList = index :: rest ∧
      s.slots[index]? = some ⟨generation, none⟩ ∧
      s.alloc r = (⟨index, generation⟩,
        ⟨s.slots.setIfInBounds index ⟨generation, some r⟩, rest, s.live + 1⟩)) ∨
    (s.freeList = [] ∧ s.alloc r = (⟨s.slots.size, 0⟩,
      ⟨s.slots.push ⟨0, some r⟩, [], s.live + 1⟩)) := by
  unfold alloc
  cases hf : s.freeList with
  | nil => exact .inr ⟨rfl, rfl⟩
  | cons index rest =>
    have hfree : index ∈ s.freeList := by
      rw [hf]
      exact List.mem_cons_self
    obtain ⟨⟨generation, record⟩, hslot, hnone⟩ := (hw.free_iff index).mp hfree
    cases hnone
    exact .inl ⟨index, rest, generation, rfl, hslot, by simp [hslot]⟩

theorem not_issued_alloc {s : Store} (hw : s.WellFormed) (r : Record) :
    ¬ s.Issued (s.alloc r).1 := by
  rintro ⟨slot, hslot, hissued⟩
  rcases alloc_cases hw r with ⟨index, rest, generation, -, hempty, ha⟩ | ⟨-, ha⟩
  · rw [ha] at hslot hissued
    rw [hempty] at hslot
    cases hslot
    rcases hissued with hlt | ⟨-, hsome⟩
    · exact Nat.lt_irrefl _ hlt
    · cases hsome
  · rw [ha] at hslot
    simp at hslot

theorem record?_alloc_self {s : Store} (hw : s.WellFormed) (r : Record) :
    s.record? (s.alloc r).1 = none := by
  cases h : s.record? (s.alloc r).1 with
  | none => rfl
  | some old => exact absurd (issued_of_contains (contains_of_record? h)) (not_issued_alloc hw r)

theorem record?_alloc {s : Store} (hw : s.WellFormed) (r : Record) (u : Ticket) :
    (s.alloc r).2.record? u = if u = (s.alloc r).1 then some r else s.record? u := by
  rcases alloc_cases hw r with ⟨index, rest, generation, -, hempty, ha⟩ | ⟨-, ha⟩
  · rw [ha]
    have hi : index < s.slots.size := (Array.getElem?_eq_some_iff.mp hempty).1
    rw [record?_setSlot hi u rfl]
    by_cases hu : u.index = index
    · subst hu
      by_cases hg : generation = u.generation
      · simp [hg]
      · have hne : u ≠ ⟨u.index, generation⟩ := fun e => hg (congrArg Ticket.generation e).symm
        rw [if_pos rfl, if_neg hne]
        simp [hg, record?_of_slot hempty]
    · have hne : u ≠ ⟨index, generation⟩ := fun e => hu (congrArg Ticket.index e)
      rw [if_neg hu, if_neg hne]
  · rw [ha]
    by_cases hu : u.index = s.slots.size
    · by_cases hg : u.generation = 0
      · have e : u = ⟨s.slots.size, 0⟩ := by cases u; simp_all
        rw [if_pos e]
        simp [record?, hu, hg]
      · have hne : u ≠ ⟨s.slots.size, 0⟩ := fun e => hg (congrArg Ticket.generation e)
        rw [if_neg hne]
        simp [record?, hu, Ne.symm hg]
    · have hne : u ≠ ⟨s.slots.size, 0⟩ := fun e => hu (congrArg Ticket.index e)
      rw [if_neg hne]
      simp [record?, Array.getElem?_push, hu]

theorem weigh_alloc (w : Record → Nat) {s : Store} (hw : s.WellFormed) (r : Record) :
    weigh w (s.alloc r).2 = weigh w s + w r := by
  rcases alloc_cases hw r with ⟨index, rest, generation, -, hempty, ha⟩ | ⟨-, ha⟩
  · rw [ha]
    have := weigh_setSlot w ⟨s.slots.setIfInBounds index ⟨generation, some r⟩, rest,
      s.live + 1⟩ hempty rfl
    simpa using this
  · rw [ha]
    simp [weigh, sumBy_append, sumBy]

theorem issued_alloc {s : Store} (hw : s.WellFormed) (r : Record) {u : Ticket} (hu : s.Issued u) :
    (s.alloc r).2.Issued u := by
  rcases alloc_cases hw r with ⟨index, rest, generation, -, hempty, ha⟩ | ⟨-, ha⟩
  · rw [ha]
    refine issued_setSlot ⟨_, rest, s.live + 1⟩ hempty rfl (fun g hg => .inl ?_) hu
    rcases hg with hlt | ⟨-, hsome⟩
    · exact hlt
    · cases hsome
  · rw [ha]
    obtain ⟨slot, hslot, hissued⟩ := hu
    have hlt := (Array.getElem?_eq_some_iff.mp hslot).1
    exact ⟨slot, by simp [Array.getElem?_push, Nat.ne_of_lt hlt, hslot], hissued⟩

/-- A new record may have any parent that was issued before it. Its ticket is nobody's parent yet,
so it can be ranked above its own. -/
theorem WellFormed.alloc {s : Store} (hw : s.WellFormed) (r : Record)
    (hp : ∀ p, r.parent = some p → s.Issued p) :
    (s.alloc r).2.WellFormed where
  free_iff := by
    intro i
    rcases alloc_cases hw r with ⟨index, rest, generation, hf, hempty, ha⟩ | ⟨hf, ha⟩
    · rw [ha]
      have hnodup := hw.free_nodup
      rw [hf] at hnodup
      have hiff := hw.free_iff i
      rw [hf, List.mem_cons] at hiff
      simp only [Array.getElem?_setIfInBounds]
      by_cases hi : index = i
      · subst hi
        have hlt := (Array.getElem?_eq_some_iff.mp hempty).1
        simp [(List.nodup_cons.mp hnodup).1, hlt]
      · rw [if_neg hi, ← hiff]
        simp [Ne.symm hi]
    · rw [ha]
      have hiff := hw.free_iff i
      rw [hf] at hiff
      simp only [Array.getElem?_push]
      split
      · simp
      · exact hiff
  free_nodup := by
    rcases alloc_cases hw r with ⟨index, rest, generation, hf, hempty, ha⟩ | ⟨hf, ha⟩
    · rw [ha]
      have hnodup := hw.free_nodup
      rw [hf] at hnodup
      exact (List.nodup_cons.mp hnodup).2
    · rw [ha]
      exact List.nodup_nil
  live_eq := by
    have hlive : (s.alloc r).2.live = s.live + 1 := by
      rcases alloc_cases hw r with ⟨index, rest, generation, -, -, ha⟩ | ⟨-, ha⟩ <;> rw [ha]
    rw [hlive, weigh_alloc _ hw, hw.live_eq]
  parent_issued := by
    intro u ru p hu hru
    apply issued_alloc hw
    rw [record?_alloc hw] at hu
    split at hu
    · cases hu
      exact hp p hru
    · exact hw.parent_issued u ru p hu hru
  ranked := by
    obtain ⟨rank, hrank⟩ := hw.ranked
    refine ⟨fun u => if u = (s.alloc r).1 then (r.parent.map rank).getD 0 + 1 else rank u, ?_⟩
    intro u ru p hu hru
    rw [record?_alloc hw] at hu
    have hissued : s.Issued p := by
      split at hu
      · cases hu
        exact hp p hru
      · exact hw.parent_issued u ru p hu hru
    have hne : p ≠ (s.alloc r).1 := fun e => not_issued_alloc hw r (e ▸ hissued)
    simp only [if_neg hne]
    split at hu
    · next e =>
      cases hu
      simp [e, hru]
    · next e =>
      rw [if_neg e]
      exact hrank u ru p hu hru

end Store

end LiveLisp
