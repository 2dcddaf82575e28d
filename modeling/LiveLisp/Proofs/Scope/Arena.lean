/-
  The scope store in anyone's hands. Its operations may be called in any order, with tickets that
  are good, that were good once or that were never handed out, and a call may fail half-way; the
  store stays an arena in good order (`arena_kept`).

  Two facts are carried through every call. `Arena` says what a store is like: it is well formed,
  and no record is kept without a count. `Later` says how it goes on: what has been handed out stays
  so, and what is gone stays gone. `Tends` is the rule for one call: from an arena it leads to a
  later arena, and it fails only at a ticket without a record. So no count is ever released below
  zero and no chain of scopes is endless. Nothing is assumed of the counts beyond that they are
  there; stores on which they are right are the business of `Exact`. Slots and generations are
  numbered without end, so a ticket that has been handed out is not handed out again.
-/
import Mathlib.Logic.Relation
import LiveLisp.Proofs.Scope.Collect

namespace LiveLisp

/-- The state that a run ends in, well or badly. -/
def stateOf {ε σ α : Type} : EStateM.Result ε σ α → σ
  | .ok _ s => s
  | .error _ s => s

namespace Store

/-- A call of an operation that may change the store or fail. -/
inductive Call where
  | newScope
  | newScopeIn (parent : Ticket) (bindings : List (String × Value))
  | define (t : Ticket) (name : String) (v : Value)
  | lookup (t : Ticket) (name : String)
  | assign (t : Ticket) (name : String) (v : Value)
  | incref (t : Ticket)
  | decref (t : Ticket)
  | retain (v : Value)
  | release (v : Value)
  | collect (roots : List Ticket)
  | reachable (roots : List Ticket)
  | parentOf (t : Ticket)

/-- A question that leaves the store as it is. -/
def ask {α : Type} (question : Store → Except Error α) : StoreM Unit := fun s =>
  match question s with
  | .ok _ => .ok () s
  | .error e => .error e s

namespace Call

/-- What a call does, whatever it answers. -/
def run : Call → StoreM Unit
  | newScope => do let _ ← Store.newScope
  | newScopeIn parent bindings => do let _ ← Store.newScopeIn parent bindings
  | define t name v => Store.define t name v
  | lookup t name => do let _ ← Store.lookup t name
  | assign t name v => do let _ ← Store.assign t name v
  | incref t => Store.incref t
  | decref t => Store.decref t
  | retain v => Store.retain v
  | release v => Store.release v
  | collect roots => do let _ ← Store.collect roots
  | reachable roots => ask (Store.reachable · roots)
  | parentOf t => ask (Store.parent · t)

/-- The store after a call, whether that has succeeded or failed. -/
def after (call : Call) (s : Store) : Store :=
  stateOf (call.run s)

/-- The tickets that a call has to find good, whatever else it finds. Those of an assigned value are
looked at only where the name is bound. -/
def tickets : Call → List Ticket
  | newScope => []
  | newScopeIn parent bindings => parent :: bindings.flatMap fun (_, v) => v.scopes
  | define t _ v => t :: v.scopes
  | lookup t _ => [t]
  | assign t _ _ => [t]
  | incref t => [t]
  | decref t => [t]
  | retain v => v.scopes
  | release v => v.scopes
  | collect roots => roots
  | reachable roots => roots
  | parentOf t => [t]

end Call

/-- The store after calls, one after the other. -/
def after (s : Store) (calls : List Call) : Store :=
  calls.foldl (fun s call => call.after s) s

/-- `p` is the scope around `t`. -/
def Encloses (s : Store) (p t : Ticket) : Prop :=
  ∃ r, s.record? t = some r ∧ r.parent = some p

/-! ## Arenas -/

/-- A well-formed store that keeps no record without a count. -/
structure Arena (s : Store) : Prop where
  wellFormed : s.WellFormed
  counted : ∀ t r, s.record? t = some r → 0 < r.refcount

/-- Tickets that were handed out still are, and a record that is there was there. -/
def Later (s s' : Store) : Prop :=
  ∀ t, s.Issued t → s'.Issued t ∧ (s'.contains t → s.contains t)

/-- A later arena. -/
structure Leads (s s' : Store) : Prop where
  arena : s'.Arena
  later : s.Later s'

/-- The error says that a ticket has no record, and it has none. -/
def Unknown (e : Error) (s : Store) : Prop :=
  ∃ t, e = .internal (.unknownTicket t) ∧ s.contains t = false

variable {s s' s'' : Store} {t : Ticket} {r : Record}

theorem Later.refl (s : Store) : s.Later s := fun _ h => ⟨h, id⟩

theorem Later.trans (h : s.Later s') (h' : s'.Later s'') : s.Later s'' := fun t ht =>
  have hnext := h t ht
  have hlast := h' t hnext.1
  ⟨hlast.1, fun hc => hnext.2 (hlast.2 hc)⟩

theorem Leads.refl (h : s.Arena) : s.Leads s := ⟨h, .refl s⟩

theorem Leads.trans (h : s.Leads s') (h' : s'.Leads s'') : s.Leads s'' :=
    ⟨h'.arena, h.later.trans h'.later⟩

theorem arena_empty : Arena .empty := ⟨wellFormed_empty, by simp [record?, empty]⟩

/-! ## The primitives -/

namespace Arena

variable (hs : s.Arena)

include hs

theorem setRecord (hr : s.record? t = some r) {r' : Record} (hparent : r'.parent = r.parent)
    (hpos : 0 < r'.refcount) :
    s.Leads (s.setRecord t r') where
  arena := by
    refine ⟨hs.wellFormed.setRecord hr hparent, fun u ru hu => ?_⟩
    rw [record?_setRecord hr] at hu
    split at hu
    · cases hu
      exact hpos
    · exact hs.counted u ru hu
  later := fun u hu => ⟨issued_setRecord hr r' hu, fun hc => by rwa [contains_setRecord hr] at hc⟩

theorem free (hr : s.record? t = some r) : s.Leads (s.free t) := by
  have hleft : ∀ u ru, (s.free t).record? u = some ru → s.record? u = some ru := by
    intro u ru hu
    rw [record?_free hr] at hu
    split at hu
    · cases hu
    · exact hu
  refine ⟨⟨hs.wellFormed.free hr, fun u ru hu => hs.counted u ru (hleft u ru hu)⟩, fun u hu => ?_⟩
  refine ⟨issued_free hr hu, fun hc => ?_⟩
  obtain ⟨ru, hru⟩ := contains_iff.mp hc
  exact contains_of_record? (hleft u ru hru)

/-- The ticket of a new record was handed out to nobody. -/
theorem alloc (hpos : 0 < r.refcount) (hparent : ∀ p, r.parent = some p → s.Issued p) :
    s.Leads (s.alloc r).2 where
  arena := by
    refine ⟨hs.wellFormed.alloc r hparent, fun u ru hu => ?_⟩
    rw [record?_alloc hs.wellFormed] at hu
    split at hu
    · cases hu
      exact hpos
    · exact hs.counted u ru hu
  later := fun u hu => by
    refine ⟨issued_alloc hs.wellFormed r hu, fun hc => ?_⟩
    have hne : u ≠ (s.alloc r).1 := fun e => not_issued_alloc hs.wellFormed r (e ▸ hu)
    unfold contains at hc ⊢
    rwa [record?_alloc hs.wellFormed, if_neg hne] at hc

theorem removeAll (ts : List Ticket) : s.Leads (s.removeAll ts).2 := by
  induction ts generalizing s with
  | nil => exact .refl hs
  | cons t rest ih =>
    unfold Store.removeAll
    cases hr : s.record? t with
    | some r =>
      have hfirst := hs.free hr
      exact hfirst.trans (ih hfirst.arena)
    | none => exact ih hs

end Arena

/-! ## Calls -/

variable {α β : Type}

/-- From an arena it leads to a later one, and if it fails then at a ticket without a record. -/
def Tends (x : StoreM α) (s : Store) : Prop :=
  s.Arena → match x s with
    | .ok _ s' => s.Leads s'
    | .error e s' => s.Leads s' ∧ Unknown e s'

namespace Tends

theorem leads {x : StoreM α} (hx : Tends x s) (hs : s.Arena) : s.Leads (stateOf (x s)) := by
  have h := hx hs
  cases hrun : x s with
  | ok a s' =>
    rw [hrun] at h
    exact h
  | error e s' =>
    rw [hrun] at h
    exact h.1

theorem unknown {x : StoreM α} {e : Error} (hx : Tends x s) (hs : s.Arena)
    (hrun : x s = .error e s') : Unknown e s' := by
  have h := hx hs
  rw [hrun] at h
  exact h.2

theorem bind {x : StoreM α} {f : α → StoreM β} (hx : Tends x s)
    (hf : ∀ a s', x s = .ok a s' → Tends (f a) s') :
    Tends (x >>= f) s := by
  intro hs
  have hfirst := hx hs
  cases hrun : x s with
  | error e s₁ =>
    rw [hrun] at hfirst
    rw [bind_of_error hrun]
    exact hfirst
  | ok a s₁ =>
    rw [hrun] at hfirst
    have hsecond := hf a s₁ hrun hfirst.arena
    rw [bind_of_ok hrun]
    cases hrest : f a s₁ with
    | ok b s₂ =>
      rw [hrest] at hsecond
      exact hfirst.trans hsecond
    | error e s₂ =>
      rw [hrest] at hsecond
      exact ⟨hfirst.trans hsecond.1, hsecond.2⟩

theorem pure (a : α) (s : Store) : Tends (pure a) s := Leads.refl

theorem throw {e : Error} (h : Unknown e s) : Tends (throw e : StoreM α) s :=
    fun hs => ⟨.refl hs, h⟩

theorem get_bind {f : Store → StoreM α} (h : Tends (f s) s) : Tends (get >>= f) s := h

theorem set_bind {f : PUnit → StoreM α} (hset : s.Arena → s.Leads s') (hf : Tends (f ⟨⟩) s') :
    Tends (set s' >>= f) s :=
  bind (x := set s') hset fun _ _ h => by
    cases h
    exact hf

theorem forM {f : α → StoreM PUnit} (h : ∀ a s, Tends (f a) s) (items : List α) (s : Store) :
    Tends (items.forM f) s := by
  induction items generalizing s with
  | nil => exact pure _ s
  | cons a rest ih => exact (h a s).bind fun _ s' _ => ih s'

theorem discard {x : StoreM α} (h : Tends x s) : Tends (do let _ ← x : StoreM Unit) s :=
  h.bind fun _ s' _ => pure () s'

end Tends

theorem unknown_of_record? (h : s.record? t = none) : Unknown (.internal (.unknownTicket t)) s :=
  ⟨t, rfl, by rw [contains, h]; rfl⟩

/-! ### Counts -/

/-- The count that is dropped is there, and the record goes with its last one. -/
theorem dropAll_tends (pending : List Ticket) (s : Store) : Tends (dropAll · pending) s := by
  intro hs
  dsimp only
  fun_induction dropAll s pending with
  | case1 s => exact .refl hs
  | case2 s t rest hnone => exact ⟨.refl hs, unknown_of_record? hnone⟩
  | case3 s t rest r hr hzero =>
    -- in an arena no record has a count of zero
    have := hs.counted t r hr
    omega
  | case4 s t rest r hr hpos hone ih =>
    have hfirst := hs.free hr
    have hrest := ih hfirst.arena
    revert hrest
    cases (s.free t).dropAll (r.references.reverse ++ rest) with
    | ok a s' => exact hfirst.trans
    | error e s' => exact fun hrest => ⟨hfirst.trans hrest.1, hrest.2⟩
  | case5 s t rest r hr hpos hmany ih =>
    have hfirst : s.Leads (s.setRecord t { r with refcount := r.refcount - 1 }) :=
      hs.setRecord hr rfl (Nat.sub_pos_of_lt (by omega))
    have hrest := ih hfirst.arena
    revert hrest
    cases (s.setRecord t { r with refcount := r.refcount - 1 }).dropAll rest with
    | ok a s' => exact hfirst.trans
    | error e s' => exact fun hrest => ⟨hfirst.trans hrest.1, hrest.2⟩

theorem decref_tends (t : Ticket) (s : Store) : Tends (decref t) s := dropAll_tends [t] s

theorem incref_tends (t : Ticket) (s : Store) : Tends (incref t) s := by
  intro hs
  unfold incref
  cases hr : s.record? t with
  | none => exact ⟨.refl hs, unknown_of_record? hr⟩
  | some r => exact hs.setRecord hr rfl (Nat.succ_pos _)

theorem retain_tends (v : Value) (s : Store) : Tends (retain v) s := .forM incref_tends v.scopes s

theorem release_tends (v : Value) (s : Store) : Tends (release v) s := .forM decref_tends v.scopes s

/-! ### Bindings -/

/-- A value takes the place of what a name stood for. -/
theorem Arena.rebind (hs : s.Arena) (hr : s.record? t = some r) (name : String) (v : Value) :
    s.Leads (s.setRecord t { r with bindings := r.bindings.put name v }) :=
  hs.setRecord hr rfl (hs.counted t r hr)

theorem define_tends (t : Ticket) (name : String) (v : Value)
    (s : Store) : Tends (define t name v) s := by
  refine (retain_tends v s).bind fun _ s₁ _ => .get_bind ?_
  cases hr : s₁.record? t with
  | none => exact .throw (unknown_of_record? hr)
  | some r =>
    refine .set_bind (fun hs => hs.rebind hr name v) ?_
    cases r.bindings.get? name with
    | none => exact .pure () _
    | some old => exact release_tends old _

theorem newScope_tends (s : Store) : Tends newScope s := fun hs => hs.alloc Nat.one_pos nofun

theorem issued_of_incref {u : Unit} (h : incref t s = .ok u s') : s'.Issued t := by
  unfold incref at h
  cases hr : s.record? t with
  | none => simp [hr] at h
  | some r =>
    simp only [hr, EStateM.Result.ok.injEq, true_and] at h
    rw [← h]
    exact issued_setRecord hr _ (issued_of_contains (contains_of_record? hr))

/-- The empty scope inside another that `newScopeIn` begins with. -/
def emptyScopeIn (parent : Ticket) : StoreM Ticket := do
  incref parent
  let s ← get
  let (t, s) := s.alloc ⟨1, [], some parent⟩
  set s
  return t

theorem newScopeIn_eq (parent : Ticket) (bindings : List (String × Value)) :
    newScopeIn parent bindings = emptyScopeIn parent >>= fun t => do
      bindings.forM fun (name, v) => define t name v
      return t := by
  simp only [newScopeIn, emptyScopeIn, bind_assoc, pure_bind]

theorem emptyScopeIn_tends (parent : Ticket) (s : Store) : Tends (emptyScopeIn parent) s := by
  refine (incref_tends parent s).bind fun _ s₁ hrun =>
    .get_bind (.set_bind (fun hs => ?_) (.pure _ _))
  refine hs.alloc (r := ⟨1, [], some parent⟩) Nat.one_pos ?_
  rintro _ ⟨⟩
  exact issued_of_incref hrun

theorem newScopeIn_tends (parent : Ticket) (bindings : List (String × Value)) (s : Store) :
    Tends (newScopeIn parent bindings) s := by
  rw [newScopeIn_eq]
  refine (emptyScopeIn_tends parent s).bind fun t s₁ _ => ?_
  exact (Tends.forM (fun pair => define_tends t pair.1 pair.2) bindings s₁).bind fun _ s₂ _ =>
    .pure t s₂

/-! ### Chains of scopes -/

/-- A good ticket ranks below no ticket of its own rank, so a chain passes fewer scopes than there
are slots. -/
theorem below_lt_size (rank : Ticket → Nat) (ht : s.contains t) :
    s.below rank t < s.slots.size := by
  refine Nat.lt_of_lt_of_le ?_ (length_tickets_le s)
  unfold below
  exact List.length_filter_lt_length_iff_exists.mpr ⟨t, mem_tickets_iff.mpr ht, by simp⟩

/-- A look-up fails only at a ticket without a record, if it may look at one scope more than rank
below the first one. -/
theorem unknown_of_ownerWithin {rank : Ticket → Nat}
    (hrank : ∀ t r p, s.record? t = some r → r.parent = some p → rank p < rank t)
    {name : String} {fuel : Nat} {e : Error} (h : s.ownerWithin name fuel t = .error e)
    (hfuel : 0 < fuel) (hbelow : s.contains t → s.below rank t + 1 < fuel) : Unknown e s := by
  induction fuel generalizing t with
  | zero => exact absurd hfuel (Nat.lt_irrefl 0)
  | succ fuel ih =>
    rw [ownerWithin] at h
    cases hr : s.record? t with
    | none =>
      rw [hr] at h
      cases h
      exact unknown_of_record? hr
    | some r =>
      have hlive := hbelow (contains_of_record? hr)
      rw [hr] at h
      dsimp only at h
      split at h
      · cases h
      · split at h
        · next p hp =>
          -- the scope around ranks lower, so there are fewer below it
          refine ih h (by omega) fun hc => ?_
          have := below_lt hc (hrank t r p hr hp)
          omega
        · cases h

theorem unknown_of_ownerOf (hs : s.WellFormed) {name : String} {e : Error}
    (h : s.ownerOf t name = .error e) :
    Unknown e s := by
  obtain ⟨rank, hrank⟩ := hs.ranked
  exact unknown_of_ownerWithin hrank h (Nat.succ_pos _) fun ht =>
    Nat.succ_lt_succ (below_lt_size rank ht)

/-- A look-up that has come to an end ends so however far it may go. -/
theorem ownerWithin_succ {name : String} {fuel : Nat}
    (h : ∀ u, s.ownerWithin name fuel t ≠ .error (.internal (.endlessChain u))) :
    s.ownerWithin name (fuel + 1) t = s.ownerWithin name fuel t := by
  induction fuel generalizing t with
  | zero => exact absurd rfl (h t)
  | succ fuel ih =>
    rw [ownerWithin, ownerWithin]
    rw [ownerWithin] at h
    cases hr : s.record? t with
    | none => rfl
    | some r =>
      rw [hr] at h
      dsimp only at h ⊢
      split
      · rfl
      · next hunbound =>
        rw [if_neg hunbound] at h
        cases hp : r.parent with
        | none => rfl
        | some p =>
          rw [hp] at h
          exact ih h

theorem ownerWithin_eq (hs : s.WellFormed) {name : String} {fuel : Nat}
    (hfuel : s.slots.size < fuel) :
    s.ownerWithin name fuel t = s.ownerOf t name := by
  obtain ⟨more, rfl⟩ := Nat.exists_eq_add_of_le hfuel
  induction more with
  | zero => rfl
  | succ more ih =>
    have hsame := ih (Nat.lt_of_lt_of_le (Nat.lt_succ_self _) (Nat.le_add_right _ _))
    refine (ownerWithin_succ fun u h => ?_).trans hsame
    -- a look-up that may go through all slots does not stop half-way
    obtain ⟨w, hw, -⟩ := unknown_of_ownerOf hs (hsame.symm.trans h)
    cases hw

theorem lookup_tends (t : Ticket) (name : String) (s : Store) : Tends (lookup t name) s := by
  intro hs
  refine Tends.get_bind ?_ hs
  cases howner : s.ownerOf t name with
  | error e => exact .throw (unknown_of_ownerOf hs.wellFormed howner)
  | ok owner =>
    cases owner with
    | none => exact .pure none s
    | some owner =>
      dsimp only
      split
      · next v _ => exact (retain_tends v s).bind fun _ s' _ => .pure (some v) s'
      · exact .pure none s

theorem assign_tends (t : Ticket) (name : String) (v : Value)
    (s : Store) : Tends (assign t name v) s := by
  intro hs
  refine Tends.get_bind ?_ hs
  cases howner : s.ownerOf t name with
  | error e => exact .throw (unknown_of_ownerOf hs.wellFormed howner)
  | ok owner =>
    cases owner with
    | none => exact .pure false s
    | some owner =>
      refine (retain_tends v s).bind fun _ s₁ _ => .get_bind ?_
      dsimp only
      cases hr : s₁.record? owner with
      | none => exact .throw (unknown_of_record? hr)
      | some r =>
        refine .set_bind (fun hs => hs.rebind hr name v) ?_
        cases r.bindings.get? name with
        | none => exact .pure true _
        | some old => exact (release_tends old _).bind fun _ s₂ _ => .pure true s₂

/-! ### Collection -/

theorem unknown_of_mark {marks : Array Bool} {pending : List Ticket} {e : Error}
    (h : s.mark marks pending = .error e) :
    Unknown e s := by
  fun_induction mark s marks pending with
  | case1 => cases h
  | case2 marks t rest hnone =>
    cases h
    exact unknown_of_record? hnone
  | case3 marks t rest r hr hfalse ih => exact ih h
  | case4 marks t rest r hr htrue ih => exact ih h

theorem dropSurvivor_tends (t : Ticket) (s : Store) : Tends (dropSurvivor t) s := by
  refine .get_bind ?_
  split
  · exact decref_tends t s
  · exact .pure () s

theorem collect_tends (roots : List Ticket) (s : Store) : Tends (collect roots) s := by
  refine .get_bind ?_
  cases hmarks : s.marksFrom roots with
  | error e => exact .throw (unknown_of_mark hmarks)
  | ok marks =>
    exact .set_bind (fun hs => hs.removeAll _)
      ((Tends.forM dropSurvivor_tends _ _).bind fun _ s' _ => .pure _ s')

theorem ask_tends {question : Store → Except Error α}
    (h : ∀ e, question s = .error e → Unknown e s) :
    Tends (ask question) s := by
  intro hs
  unfold ask
  cases hanswer : question s with
  | ok a => exact .refl hs
  | error e => exact ⟨.refl hs, h e hanswer⟩

/-- One case for each operation. -/
theorem Call.run_tends (call : Call) (s : Store) : Tends call.run s := by
  cases call with
  | newScope => exact (newScope_tends s).discard
  | newScopeIn parent bindings => exact (newScopeIn_tends parent bindings s).discard
  | define t name v => exact define_tends t name v s
  | lookup t name => exact (lookup_tends t name s).discard
  | assign t name v => exact (assign_tends t name v s).discard
  | incref t => exact incref_tends t s
  | decref t => exact decref_tends t s
  | retain v => exact retain_tends v s
  | release v => exact release_tends v s
  | collect roots => exact (collect_tends roots s).discard
  | reachable roots =>
    refine ask_tends fun e he => ?_
    unfold Store.reachable at he
    cases hmarks : s.marksFrom roots with
    | error e' =>
      rw [hmarks] at he
      cases he
      exact unknown_of_mark hmarks
    | ok marks =>
      rw [hmarks] at he
      cases he
  | parentOf t =>
    refine ask_tends fun e he => ?_
    unfold Store.parent at he
    cases hr : s.record? t with
    | none =>
      rw [hr] at he
      cases he
      exact unknown_of_record? hr
    | some r =>
      rw [hr] at he
      cases he

theorem Arena.after (hs : s.Arena) (calls : List Call) : s.Leads (s.after calls) := by
  induction calls generalizing s with
  | nil => exact .refl hs
  | cons call rest ih =>
    have hfirst : s.Leads (call.after s) := (call.run_tends s).leads hs
    exact hfirst.trans (ih hfirst.arena)

/-! ## Removed tickets -/

/-- The ticket was handed out, and its record is gone. -/
structure Removed (s : Store) (t : Ticket) : Prop where
  issued : s.Issued t
  gone : s.contains t = false

theorem Removed.later (h : s.Removed t) (hlater : s.Later s') : s'.Removed t where
  issued := (hlater t h.issued).1
  gone := by
    cases hc : s'.contains t with
    | false => rfl
    | true => exact ((hlater t h.issued).2 hc).symm.trans h.gone

theorem Removed.record?_eq_none (h : s.Removed t) : s.record? t = none :=
  Option.not_isSome_iff_eq_none.mp fun hsome => Bool.noConfusion (hsome.symm.trans h.gone)

/-- From every arena in which the record of the ticket is gone it fails. -/
def Refuses (x : StoreM α) (t : Ticket) : Prop :=
  ∀ s, s.Arena → s.Removed t → ∃ e s', x s = .error e s'

namespace Refuses

theorem bind_left {x : StoreM α} {f : α → StoreM β} (hx : Refuses x t) : Refuses (x >>= f) t := by
  intro s hs ht
  obtain ⟨e, s', hrun⟩ := hx s hs ht
  exact ⟨e, s', bind_of_error hrun⟩

/-- The ticket stays refused while something else is done first. -/
theorem bind_right {x : StoreM α} {f : α → StoreM β} (hx : ∀ s, Tends x s)
    (hf : ∀ a, Refuses (f a) t) :
    Refuses (x >>= f) t := by
  intro s hs ht
  have hlead := (hx s).leads hs
  cases hrun : x s with
  | error e s₁ => exact ⟨e, s₁, bind_of_error hrun⟩
  | ok a s₁ =>
    rw [hrun] at hlead
    rw [bind_of_ok hrun]
    exact hf a s₁ hlead.arena (ht.later hlead.later)

theorem forM {f : α → StoreM PUnit} (htends : ∀ a s, Tends (f a) s) {a : α}
    {items : List α} (ha : a ∈ items) (h : Refuses (f a) t) : Refuses (items.forM f) t := by
  induction items with
  | nil => cases ha
  | cons b rest ih =>
    rcases List.mem_cons.mp ha with rfl | ha
    · exact bind_left h
    · exact bind_right (htends b) fun _ => ih ha

end Refuses

theorem incref_refuses (t : Ticket) : Refuses (incref t) t := by
  intro s _ ht
  exact ⟨_, s, by rw [incref, ht.record?_eq_none]⟩

theorem decref_refuses (t : Ticket) : Refuses (decref t) t := by
  intro s _ ht
  refine ⟨.internal (.unknownTicket t), s, ?_⟩
  show s.dropAll [t] = _
  unfold dropAll
  split
  · rfl
  · next hr =>
    rw [ht.record?_eq_none] at hr
    cases hr

theorem retain_refuses {v : Value} (h : t ∈ v.scopes) : Refuses (retain v) t :=
    .forM incref_tends h (incref_refuses t)

theorem release_refuses {v : Value} (h : t ∈ v.scopes) : Refuses (release v) t :=
    .forM decref_tends h (decref_refuses t)

theorem define_refuses {u : Ticket} {name : String} {v : Value} (h : t = u ∨ t ∈ v.scopes) :
    Refuses (define u name v) t := by
  rcases h with rfl | h
  · refine .bind_right (retain_tends v) fun _ s _ ht => ⟨.internal (.unknownTicket t), s, ?_⟩
    rw [get_bind, ht.record?_eq_none]
    rfl
  · exact .bind_left (retain_refuses h)

theorem ownerOf_removed (h : s.Removed t) (name : String) :
    s.ownerOf t name = .error (.internal (.unknownTicket t)) := by
  rw [ownerOf, ownerWithin, h.record?_eq_none]

theorem lookup_refuses (t : Ticket) (name : String) : Refuses (lookup t name) t := by
  intro s _ ht
  refine ⟨.internal (.unknownTicket t), s, ?_⟩
  rw [lookup, get_bind, ownerOf_removed ht]
  rfl

theorem assign_refuses (t : Ticket) (name : String) (v : Value) : Refuses (assign t name v) t := by
  intro s _ ht
  refine ⟨.internal (.unknownTicket t), s, ?_⟩
  rw [assign, get_bind, ownerOf_removed ht]
  rfl

/-- An assignment of a value that holds the ticket goes well only where there is nothing to assign.
-/
theorem eq_of_assign_ok {u : Ticket} {name : String} {v : Value} {assigned : Bool}
    (hs : s.Arena) (ht : s.Removed t) (hv : t ∈ v.scopes)
    (h : assign u name v s = .ok assigned s') : assigned = false ∧ s' = s := by
  rw [assign, get_bind] at h
  cases howner : s.ownerOf u name with
  | error e =>
    rw [howner] at h
    cases h
  | ok owner =>
    rw [howner] at h
    cases owner with
    | none =>
      cases h
      exact ⟨rfl, rfl⟩
    | some owner =>
      obtain ⟨e, s₁, hretain⟩ := retain_refuses hv s hs ht
      cases (bind_of_error hretain).symm.trans h

theorem newScopeIn_refuses {parent : Ticket} {bindings : List (String × Value)}
    (h : t = parent ∨ ∃ pair ∈ bindings, t ∈ pair.2.scopes) :
    Refuses (newScopeIn parent bindings) t := by
  rw [newScopeIn_eq]
  rcases h with rfl | ⟨pair, hpair, h⟩
  · exact .bind_left (.bind_left (incref_refuses t))
  · exact .bind_right (emptyScopeIn_tends parent) fun u => .bind_left <|
      .forM (fun pair => define_tends u pair.1 pair.2) hpair (define_refuses (.inr h))

theorem mark_removed (h : s.Removed t) {marks : Array Bool} {pending : List Ticket}
    (ht : t ∈ pending) :
    ∃ e, s.mark marks pending = .error e := by
  have hnot {u : Ticket} {r : Record} {rest : List Ticket} (hr : s.record? u = some r)
    (ht : t ∈ u :: rest) :
      t ∈ rest := by
    refine (List.mem_cons.mp ht).resolve_left ?_
    rintro rfl
    rw [h.record?_eq_none] at hr
    cases hr
  fun_induction mark s marks pending with
  | case1 => cases ht
  | case2 marks u rest hnone => exact ⟨_, rfl⟩
  | case3 marks u rest r hr hfalse ih => exact ih (List.mem_append_right _ (hnot hr ht))
  | case4 marks u rest r hr htrue ih => exact ih (hnot hr ht)

theorem marksFrom_removed (h : s.Removed t) {roots : List Ticket}
    (ht : t ∈ roots) : ∃ e, s.marksFrom roots = .error e :=
  mark_removed h (List.mem_reverse.mpr ht)

theorem collect_refuses {roots : List Ticket} (h : t ∈ roots) : Refuses (collect roots) t := by
  intro s _ ht
  obtain ⟨e, he⟩ := marksFrom_removed ht h
  refine ⟨e, s, ?_⟩
  rw [collect, get_bind, he]
  rfl

/-- Whoever hands in a ticket whose record is gone is refused. -/
theorem Call.run_refuses {call : Call} (h : t ∈ call.tickets) : Refuses call.run t := by
  cases call with
  | newScope => cases h
  | newScopeIn parent bindings =>
    refine .bind_left (newScopeIn_refuses ((List.mem_cons.mp h).imp_right fun h => ?_))
    simpa using h
  | define u name v => exact define_refuses (List.mem_cons.mp h)
  | lookup u name => exact List.mem_singleton.mp h ▸ .bind_left (lookup_refuses t name)
  | assign u name v => exact List.mem_singleton.mp h ▸ .bind_left (assign_refuses t name v)
  | incref u => exact List.mem_singleton.mp h ▸ incref_refuses t
  | decref u => exact List.mem_singleton.mp h ▸ decref_refuses t
  | retain v => exact retain_refuses h
  | release v => exact release_refuses h
  | collect roots => exact .bind_left (collect_refuses h)
  | reachable roots =>
    intro s _ ht
    obtain ⟨e, he⟩ : ∃ e, s.marksFrom roots = .error e := marksFrom_removed ht h
    refine ⟨e, s, ?_⟩
    rw [run, ask, Store.reachable, he]
    rfl
  | parentOf u =>
    intro s _ ht
    rw [List.mem_singleton.mp h] at ht
    refine ⟨.internal (.unknownTicket u), s, ?_⟩
    rw [run, ask, Store.parent, ht.record?_eq_none]

/-- Nothing accepts the ticket: it has no record, each call that needs it fails, and an assignment
of a value that holds it has nothing to assign. -/
structure Rejects (s : Store) (t : Ticket) : Prop where
  gone : s.contains t = false
  fails : ∀ call : Call, t ∈ call.tickets → ∃ e s', call.run s = .error e s'
  unassigned : ∀ u name v assigned s', t ∈ v.scopes → assign u name v s = .ok assigned s' →
    assigned = false ∧ s' = s

theorem Removed.rejects (ht : s.Removed t) (hs : s.Arena) : s.Rejects t where
  gone := ht.gone
  fails := fun _ hcall => Call.run_refuses hcall s hs ht
  unassigned := fun _ _ _ _ _ hv hassign => eq_of_assign_ok hs ht hv hassign

/-! ## Any use -/

theorem countP_isSome_eq_sumBy (slots : List Slot) :
    slots.countP (·.record.isSome) = sumBy (fun slot =>
      (slot.record.map fun _ => 1).getD 0) slots := by
  induction slots with
  | nil => rfl
  | cons slot slots ih =>
    rw [List.countP_cons, sumBy, ih, Nat.add_comm]
    cases slot.record <;> rfl

theorem WellFormed.live_eq_length (hs : s.WellFormed) : s.live = s.tickets.length := by
  have hslots : s.slots.toList.zipIdx.map Prod.fst = s.slots.toList := List.zipIdx_map_fst ..
  rw [hs.live_eq, tickets, List.length_filterMap_eq_countP, weigh, ← countP_isSome_eq_sumBy,
    ← hslots, List.countP_map, hslots]
  refine List.countP_congr fun pair _ => ?_
  simp

/-- On exact counts somebody holds every record that is there: from outside, or another record. -/
theorem Arena.held_or_referred (hs : s.Arena) {held : List Ticket} (h : s.Exact held)
    (ht : s.contains t) : t ∈ held ∨ ∃ u, View.Holds s.scope? u t := by
  obtain ⟨r, hr⟩ := contains_iff.mp ht
  have hpos : 0 < r.refcount := hs.counted t r hr
  rw [h.counted t r hr] at hpos
  by_cases hheld : t ∈ held
  · exact .inl hheld
  refine .inr (Classical.byContradiction fun hnone => ?_)
  rw [List.count_eq_zero.mpr hheld] at hpos
  have hincoming : s.incoming t = 0 :=
    weigh_eq_zero fun u ru hru => List.count_eq_zero.mpr fun hmem =>
      hnone ⟨u, ru.scope, by rw [scope?, hru]; rfl, hmem⟩
  omega

/-- Of the scopes around a scope none is inside it. -/
theorem WellFormed.not_encloses_self (hs : s.WellFormed) (t : Ticket) :
    ¬ Relation.TransGen s.Encloses t t := by
  obtain ⟨rank, hrank⟩ := hs.ranked
  have hless : ∀ {p u}, Relation.TransGen s.Encloses p u → rank p < rank u := by
    intro p u h
    induction h with
    | single h =>
      obtain ⟨r, hr, hp⟩ := h
      exact hrank _ r _ hr hp
    | tail _ h ih =>
      obtain ⟨r, hr, hp⟩ := h
      exact Nat.lt_trans ih (hrank _ r _ hr hp)
  exact fun h => Nat.lt_irrefl _ (hless h)

/-- Whatever calls have been made of a store, with whatever tickets and however they ended: every
record that is there has a count; the free list names each empty slot once, and the live records are
counted; a scope is in none of its own, and a look-up of any name comes to an end within the slots.
Any further call fails at most because a ticket has no record. And once a record is gone, its ticket
is rejected for good. -/
theorem arena_kept (calls : List Call) :
    (∀ t r, (empty.after calls).record? t = some r → 1 ≤ r.refcount) ∧
    (empty.after calls).freeList.Nodup ∧
    (∀ i, i ∈ (empty.after calls).freeList ↔ ∃ slot, (empty.after calls).slots[i]? = some slot ∧
      slot.record = none) ∧
    (empty.after calls).live = (empty.after calls).slots.toList.countP (·.record.isSome) ∧
    (∀ t, ¬ Relation.TransGen (empty.after calls).Encloses t t) ∧
    (∀ t name fuel, (empty.after calls).slots.size < fuel →
      (empty.after calls).ownerWithin name fuel t = (empty.after calls).ownerOf t name) ∧
    (∀ call e s, Call.run call (empty.after calls) = .error e s →
      ∃ t, e = .internal (.unknownTicket t) ∧ s.contains t = false) ∧
    ∀ t, (empty.after calls).contains t →
      ∀ more, ((empty.after calls).after more).contains t = false →
      ∀ later, (((empty.after calls).after more).after later).Rejects t := by
  have hs : (empty.after calls).Arena := (arena_empty.after calls).arena
  refine ⟨hs.counted, hs.wellFormed.free_nodup, hs.wellFormed.free_iff, ?_,
    hs.wellFormed.not_encloses_self,
    fun t name fuel => ownerWithin_eq hs.wellFormed, fun call e s =>
      (call.run_tends _).unknown hs, ?_⟩
  · rw [hs.wellFormed.live_eq, countP_isSome_eq_sumBy]
    rfl
  · intro t ht more hgone later
    have hmore := hs.after more
    have hlater := hmore.arena.after later
    have hremoved : Removed _ t := ⟨(hmore.later t (issued_of_contains ht)).1, hgone⟩
    exact (hremoved.later hlater.later).rejects hlater.arena

end Store

end LiveLisp
