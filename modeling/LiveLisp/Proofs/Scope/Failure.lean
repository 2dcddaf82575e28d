/-
  Calls of the scope store that fail. A failing call leaves the store as it was exactly if it fails
  before it has changed anything: while it only looks, or at the first ticket whose count it would
  move (`unchanged_iff_stopsAtOnce`). Counts are moved one by one and no move is taken back, so a
  call that fails later leaves what it has moved: a value bound in a scope that is gone leaves its
  scopes with a count that nobody holds (`define_gone_counts`).

  How far a failing call gets is read off the counts. Retaining only raises them and releasing only
  lowers them (`Under`), and a store with a higher count somewhere is another store (`Less`).
-/
import LiveLisp.Proofs.Scope.Arena
import LiveLisp.Proofs.Scope.Sweeping

namespace LiveLisp

variable {ε σ α β : Type}

theorem error_of_discard {x : EStateM ε σ α} {s s' : σ} {e : ε} {b : β}
    (h : (x >>= fun _ => pure b) s = .error e s') :
    x s = .error e s' := by
  cases hx : x s with
  | ok a s₁ =>
    rw [bind_of_ok hx] at h
    cases h
  | error e₁ s₁ =>
    rw [bind_of_error hx] at h
    cases h
    rfl

/-- What the first part of a computation makes of a state is carried on by the rest. -/
theorem stateOf_bind {R : σ → σ → Prop} (hrefl : ∀ s, R s s) {x : EStateM ε σ α}
    {f : α → EStateM ε σ β} (hf : ∀ a s, R s (stateOf (f a s))) (s : σ) : R (stateOf (x s))
    (stateOf ((x >>= f) s)) := by
  cases hx : x s with
  | ok a s₁ =>
    rw [bind_of_ok hx]
    exact hf a s₁
  | error e s₁ =>
    rw [bind_of_error hx]
    exact hrefl s₁

theorem stateOf_forM {R : σ → σ → Prop} (hrefl : ∀ s, R s s)
    (htrans : ∀ {s₁ s₂ s₃}, R s₁ s₂ → R s₂ s₃ → R s₁ s₃) {f : α → EStateM ε σ PUnit}
    (hf : ∀ a s, R s (stateOf (f a s))) (items : List α) (s : σ) :
    R s (stateOf (items.forM f s)) := by
  induction items generalizing s with
  | nil => exact hrefl s
  | cons a rest ih => exact htrans (hf a s) (stateOf_bind hrefl (fun _ s₁ => ih s₁) s)

namespace Store

/-! ## Failing at once -/

/-- The same records with the same counts, the same free list and as many live records. -/
structure SameAs (s s' : Store) : Prop where
  records : ∀ t, s'.record? t = s.record? t
  freeList : s'.freeList = s.freeList
  live : s'.live = s.live

/-- The first of the tickets has no record. -/
def firstGone (s : Store) (ts : List Ticket) : Bool :=
  ts.head?.any fun t => !s.contains t

/-- The call fails before it changes anything: while it only looks, or at the first ticket whose
count it would move. -/
def Call.stopsAtOnce (s : Store) : Call → Bool
  | newScope => false
  | newScopeIn parent _ => !s.contains parent
  | define t _ v => s.firstGone (v.scopes ++ [t])
  | lookup t name =>
    match s.ownerOf t name with
    | .error _ => true
    | .ok none => false
    | .ok (some owner) =>
      ((s.record? owner).bind (·.bindings.get? name)).any fun v => s.firstGone v.scopes
  | assign t name v =>
    match s.ownerOf t name with
    | .error _ => true
    | .ok none => false
    | .ok (some _) => s.firstGone v.scopes
  | incref t => !s.contains t
  | decref t => !s.contains t
  | retain v => s.firstGone v.scopes
  | release v => s.firstGone v.scopes
  | collect roots => !(s.marksFrom roots).isOk
  | reachable roots => !(s.marksFrom roots).isOk
  | parentOf t => !s.contains t

variable {s s' s'' s₁ : Store} {t : Ticket} {r : Record} {e : Error} {v : Value} {name : String}

theorem record?_of_gone (h : s.contains t = false) : s.record? t = none :=
  Option.not_isSome_iff_eq_none.mp fun hsome => Bool.noConfusion (hsome.symm.trans h)

theorem incref_of_gone (h : s.contains t = false) :
    incref t s = .error (.internal (.unknownTicket t)) s := by
  rw [incref, record?_of_gone h]

theorem decref_of_gone (h : s.contains t = false) :
    decref t s = .error (.internal (.unknownTicket t)) s := by
  show s.dropAll [t] = _
  unfold dropAll
  split
  · rfl
  · next hr => cases (record?_of_gone h).symm.trans hr

theorem firstGone_cons (s : Store) (t : Ticket) (ts : List Ticket) :
    s.firstGone (t :: ts) = !s.contains t := rfl

/-- A loop over tickets stops at the first one if that is gone. -/
theorem forM_of_firstGone {f : Ticket → StoreM PUnit}
    (hf : ∀ {t}, s.contains t = false → f t s = .error (.internal (.unknownTicket t)) s)
    {ts : List Ticket} (h : s.firstGone ts) : ∃ e, ts.forM f s = .error e s := by
  cases ts with
  | nil => cases h
  | cons t rest =>
    rw [firstGone_cons, Bool.not_eq_true'] at h
    exact ⟨_, bind_of_error (hf h)⟩

theorem retain_of_firstGone (h : s.firstGone v.scopes) : ∃ e, retain v s = .error e s :=
    forM_of_firstGone incref_of_gone h

theorem define_of_firstGone (h : s.firstGone (v.scopes ++ [t])) :
    ∃ e, define t name v s = .error e s := by
  cases hv : v.scopes with
  | nil =>
    rw [hv, List.nil_append, firstGone_cons, Bool.not_eq_true'] at h
    refine ⟨.internal (.unknownTicket t), ?_⟩
    rw [define, bind_of_ok (show retain v s = .ok ⟨⟩ s by rw [retain, hv]; rfl), get_bind,
      record?_of_gone h]
    rfl
  | cons u rest =>
    have hfirst : s.firstGone v.scopes := by
      rw [hv] at h ⊢
      exact h
    obtain ⟨e, he⟩ := retain_of_firstGone hfirst
    exact ⟨e, bind_of_error he⟩

theorem lookup_of_stopsAtOnce (h : (Call.lookup t name).stopsAtOnce s) :
    ∃ e, lookup t name s = .error e s := by
  rw [Call.stopsAtOnce] at h
  rw [lookup, get_bind]
  cases howner : s.ownerOf t name with
  | error e => exact ⟨e, rfl⟩
  | ok owner =>
    rw [howner] at h
    cases owner with
    | none => cases h
    | some owner =>
      obtain ⟨v, hv, hgone⟩ := (Option.any_eq_true _ _).mp h
      obtain ⟨e, he⟩ := retain_of_firstGone hgone
      refine ⟨e, ?_⟩
      simp only [hv]
      exact bind_of_error he

theorem assign_of_stopsAtOnce (h : (Call.assign t name v).stopsAtOnce s) :
    ∃ e, assign t name v s = .error e s := by
  rw [Call.stopsAtOnce] at h
  rw [assign, get_bind]
  cases howner : s.ownerOf t name with
  | error e => exact ⟨e, rfl⟩
  | ok owner =>
    rw [howner] at h
    cases owner with
    | none => cases h
    | some owner =>
      obtain ⟨e, he⟩ := retain_of_firstGone h
      exact ⟨e, bind_of_error he⟩

theorem exists_ok_of_isOk {x : Except Error α} (h : x.isOk = true) : ∃ a, x = .ok a := by
  cases x with
  | ok a => exact ⟨a, rfl⟩
  | error e => cases h

theorem exists_error_of_not_isOk {x : Except Error α} (h : (!x.isOk) = true) :
    ∃ e, x = .error e := by
  cases x with
  | ok a => cases h
  | error e => exact ⟨e, rfl⟩

theorem Call.run_of_stopsAtOnce {call : Call} (h : call.stopsAtOnce s) :
    ∃ e, call.run s = .error e s := by
  have hdiscard {α : Type} {x : StoreM α} (hx : ∃ e, x s = .error e s) :
    ∃ e, (do let _ ← x : StoreM Unit) s = .error e s :=
    hx.imp fun _ => bind_of_error
  cases call with
  | newScope => cases h
  | newScopeIn parent bindings =>
    exact hdiscard ⟨_, bind_of_error (incref_of_gone (Bool.not_eq_true' _ ▸ h))⟩
  | define t name v => exact define_of_firstGone h
  | lookup t name => exact hdiscard (lookup_of_stopsAtOnce h)
  | assign t name v => exact hdiscard (assign_of_stopsAtOnce h)
  | incref t => exact ⟨_, incref_of_gone (Bool.not_eq_true' _ ▸ h)⟩
  | decref t => exact ⟨_, decref_of_gone (Bool.not_eq_true' _ ▸ h)⟩
  | retain v => exact retain_of_firstGone h
  | release v => exact forM_of_firstGone decref_of_gone h
  | collect roots =>
    obtain ⟨e, he⟩ := exists_error_of_not_isOk h
    exact hdiscard ⟨e, by rw [Store.collect, get_bind, he]; rfl⟩
  | reachable roots =>
    obtain ⟨e, he⟩ := exists_error_of_not_isOk h
    exact ⟨e, by rw [run, ask, Store.reachable, he]; rfl⟩
  | parentOf t =>
    have hgone := record?_of_gone (Bool.not_eq_true' _ ▸ h)
    exact ⟨.internal (.unknownTicket t), by rw [run, ask, Store.parent, hgone]⟩

/-! ## Higher and lower counts -/

/-- Every record is there, says the same and counts as much or more. -/
def Under (s s' : Store) : Prop :=
  ∀ t r, s.record? t = some r → ∃ r', s'.record? t = some r' ∧ r'.scope = r.scope ∧
    r.refcount ≤ r'.refcount

/-- Some record is in the second store only, or counts more there. -/
def Less (s s' : Store) : Prop :=
  ∃ t r', s'.record? t = some r' ∧ ∀ r, s.record? t = some r → r.refcount < r'.refcount

theorem Under.refl (s : Store) : s.Under s := fun _ r hr => ⟨r, hr, rfl, Nat.le_refl _⟩

theorem Under.trans (h : s.Under s') (h' : s'.Under s'') : s.Under s'' := by
  intro t r hr
  obtain ⟨r', hr', hscope, hle⟩ := h t r hr
  obtain ⟨r'', hr'', hscope', hle'⟩ := h' t r' hr'
  exact ⟨r'', hr'', hscope'.trans hscope, Nat.le_trans hle hle'⟩

theorem Under.contains (h : s.Under s') (ht : s.contains t) : s'.contains t := by
  obtain ⟨r, hr⟩ := contains_iff.mp ht
  obtain ⟨r', hr', -⟩ := h t r hr
  exact contains_of_record? hr'

theorem Less.trans_under (h : s.Less s') (h' : s'.Under s'') : s.Less s'' := by
  obtain ⟨t, r', hr', hless⟩ := h
  obtain ⟨r'', hr'', -, hle⟩ := h' t r' hr'
  exact ⟨t, r'', hr'', fun r hr => Nat.lt_of_lt_of_le (hless r hr) hle⟩

theorem Under.trans_less (h : s.Under s') (h' : s'.Less s'') : s.Less s'' := by
  obtain ⟨t, r'', hr'', hless⟩ := h'
  refine ⟨t, r'', hr'', fun r hr => ?_⟩
  obtain ⟨r', hr', -, hle⟩ := h t r hr
  exact Nat.lt_of_le_of_lt hle (hless r' hr')

theorem Less.records_ne (h : s.Less s') : ¬ ∀ t, s'.record? t = s.record? t := by
  obtain ⟨t, r', hr', hless⟩ := h
  exact fun hsame => Nat.lt_irrefl _ (hless r' ((hsame t).symm.trans hr'))

theorem Less.not_sameAs (h : s.Less s') : ¬ s.SameAs s' := fun hsame => h.records_ne hsame.records

theorem Less.not_sameAs_of_lower (h : s'.Less s) : ¬ s.SameAs s' :=
    fun hsame => h.records_ne fun t => (hsame.records t).symm

theorem incref_of_record? (hr : s.record? t = some r) :
    incref t s = .ok ⟨⟩ (s.setRecord t { r with refcount := r.refcount + 1 }) := by
  rw [incref, hr]

theorem under_setRecord (hr : s.record? t = some r) {r' : Record} (hscope : r'.scope = r.scope)
    (hle : r.refcount ≤ r'.refcount) : s.Under (s.setRecord t r') := by
  intro u ru hu
  rw [record?_setRecord hr]
  split
  · next hut =>
    subst hut
    cases hr.symm.trans hu
    exact ⟨r', rfl, hscope, hle⟩
  · exact ⟨ru, hu, rfl, Nat.le_refl _⟩

theorem setRecord_under (hr : s.record? t = some r) {r' : Record} (hscope : r'.scope = r.scope)
    (hle : r'.refcount ≤ r.refcount) : (s.setRecord t r').Under s := by
  intro u ru hu
  rw [record?_setRecord hr] at hu
  split at hu
  · next hut =>
    subst hut
    cases hu
    exact ⟨r, hr, hscope.symm, hle⟩
  · exact ⟨ru, hu, rfl, Nat.le_refl _⟩

theorem free_under (hr : s.record? t = some r) : (s.free t).Under s := by
  intro u ru hu
  rw [record?_free hr] at hu
  split at hu
  · cases hu
  · exact ⟨ru, hu, rfl, Nat.le_refl _⟩

theorem incref_under (t : Ticket) (s : Store) : s.Under (stateOf (incref t s)) := by
  cases hr : s.record? t with
  | none =>
    rw [incref, hr]
    exact .refl s
  | some r =>
    rw [incref_of_record? hr]
    exact under_setRecord hr rfl (Nat.le_succ _)

theorem incref_less (ht : s.contains t) : s.Less (stateOf (incref t s)) := by
  obtain ⟨r, hr⟩ := contains_iff.mp ht
  rw [incref_of_record? hr]
  refine ⟨t, { r with refcount := r.refcount + 1 }, (record?_setRecord hr _ t).trans (if_pos rfl),
    fun r₀ hr₀ => ?_⟩
  cases hr.symm.trans hr₀
  exact Nat.lt_succ_self _

theorem dropAll_under (s : Store) (pending : List Ticket) :
    (stateOf (s.dropAll pending)).Under s := by
  fun_induction dropAll s pending with
  | case1 s => exact .refl s
  | case2 s t rest hnone => exact .refl s
  | case3 s t rest r hr hzero => exact .refl s
  | case4 s t rest r hr hpos hone ih => exact ih.trans (free_under hr)
  | case5 s t rest r hr hpos hmany ih => exact ih.trans (setRecord_under hr rfl (Nat.sub_le _ _))

theorem decref_under (t : Ticket) (s : Store) :
    (stateOf (decref t s)).Under s := dropAll_under s [t]

theorem decref_less (hs : s.Arena) (ht : s.contains t) : (stateOf (decref t s)).Less s := by
  obtain ⟨r, hr⟩ := contains_iff.mp ht
  have hcount := hs.counted t r hr
  have hstep : ∃ (s₁ : Store) (rest : List Ticket), s.dropAll [t] = s₁.dropAll rest ∧
    s₁.Less s := by
    by_cases hone : r.refcount = 1
    · refine ⟨s.free t, r.references.reverse ++ [], by grind [dropAll], t, r, hr, fun r₁ hr₁ => ?_⟩
      rw [record?_free hr, if_pos rfl] at hr₁
      cases hr₁
    · refine ⟨s.setRecord t { r with refcount := r.refcount - 1 }, [], by
        grind [dropAll], t, r, hr, fun r₁ hr₁ => ?_⟩
      rw [record?_setRecord hr, if_pos rfl] at hr₁
      cases hr₁
      exact Nat.sub_lt hcount Nat.one_pos
  obtain ⟨s₁, rest, hdrop, hless⟩ := hstep
  show (stateOf (s.dropAll [t])).Less s
  rw [hdrop]
  exact (dropAll_under s₁ rest).trans_less hless

theorem retain_under (v : Value) (s : Store) : s.Under (stateOf (retain v s)) :=
  stateOf_forM .refl .trans incref_under v.scopes s

theorem release_under (v : Value) (s : Store) : (stateOf (release v s)).Under s :=
  stateOf_forM (R := fun s s' => Under s' s) .refl (fun h h' => h'.trans h) decref_under v.scopes s

theorem dropSurvivor_under (t : Ticket) (s : Store) : (stateOf (dropSurvivor t s)).Under s := by
  rw [dropSurvivor, get_bind]
  split
  · exact decref_under t s
  · exact .refl s

/-- Once the first scope of a value has gained its count, some count is higher. -/
theorem retain_less (h : s.firstGone v.scopes = false) (hne : v.scopes ≠ []) :
    s.Less (stateOf (retain v s)) := by
  rw [retain]
  cases hv : v.scopes with
  | nil => exact absurd hv hne
  | cons t rest =>
    rw [hv, firstGone_cons, Bool.not_eq_false'] at h
    exact (incref_less h).trans_under
      (stateOf_bind .refl (fun _ => stateOf_forM .refl .trans incref_under rest) s)

theorem release_less (hs : s.Arena) (h : s.firstGone v.scopes = false) (hne : v.scopes ≠ []) :
    (stateOf (release v s)).Less s := by
  rw [release]
  cases hv : v.scopes with
  | nil => exact absurd hv hne
  | cons t rest =>
    rw [hv, firstGone_cons, Bool.not_eq_false'] at h
    have hrest : (stateOf ((t :: rest).forM decref s)).Under (stateOf (decref t s)) :=
      stateOf_bind (R := fun s s' => Under s' s) .refl
        (fun _ => stateOf_forM (R := fun s s' => Under s' s) .refl
          (fun h h' => h'.trans h) decref_under rest) s
    exact hrest.trans_less (decref_less hs h)

/-! ## Counts that are moved as planned -/

/-- Retaining, when it succeeds, finds every scope of the value and gives each as many counts as the
value holds it. -/
theorem retains_of_ok {ts : List Ticket} {u : PUnit} (h : ts.forM incref s = .ok u s') :
    (∀ t ∈ ts, s.contains t) ∧
      ∀ t, s'.record? t = (s.record? t).map fun r =>
        { r with refcount := r.refcount + ts.count t } := by
  induction ts generalizing s with
  | nil =>
    cases h
    exact ⟨nofun, fun t => by simp⟩
  | cons a rest ih =>
    cases hr : s.record? a with
    | none => cases (bind_of_error (incref_of_gone (by rw [contains, hr]; rfl))).symm.trans h
    | some r =>
      obtain ⟨hlive, hrecords⟩ := ih ((bind_of_ok (incref_of_record? hr)).symm.trans h)
      refine ⟨fun t ht => ?_, fun t => ?_⟩
      · rcases List.mem_cons.mp ht with rfl | ht
        · exact contains_of_record? hr
        · rw [← contains_setRecord hr]
          exact hlive t ht
      · rw [hrecords, record?_setRecord hr]
        by_cases hta : t = a
        · subst hta
          simp only [if_pos, hr, Option.map_some, List.count_cons_self]
          grind
        · rw [if_neg hta, List.count_cons_of_ne (Ne.symm hta)]

/-- Each of these tickets has a record, and every record has more counts than the tickets name it.
-/
structure Spares (s : Store) (ts : List Ticket) : Prop where
  live : ∀ t ∈ ts, s.contains t
  spare : ∀ t r, s.record? t = some r → ts.count t < r.refcount

theorem Arena.spares (hs : s.Arena) : s.Spares [] := ⟨nofun, hs.counted⟩

namespace Spares

variable {ts us : List Ticket}

theorem of_count_le (h : s.Spares ts) (hle : ∀ t, us.count t ≤ ts.count t) : s.Spares us where
  live := fun t ht =>
    h.live t (List.count_pos_iff.mp (Nat.lt_of_lt_of_le (List.count_pos_iff.mpr ht) (hle t)))
  spare := fun t r hr => Nat.lt_of_le_of_lt (hle t) (h.spare t r hr)

theorem rebind (h : s.Spares ts) (hr : s.record? t = some r) (r' : Record)
    (hsame : r'.refcount = r.refcount) :
    (s.setRecord t r').Spares ts where
  live := fun u hu => (contains_setRecord hr r' u).trans (h.live u hu)
  spare := by
    intro u ru hu
    rw [record?_setRecord hr] at hu
    split at hu
    · next hut =>
      subst hut
      cases hu
      exact hsame ▸ h.spare u r hr
    · exact h.spare u ru hu

theorem retained (h : s.Spares ts) {u : PUnit} (hok : us.forM incref s = .ok u s') :
    s'.Spares (us ++ ts) := by
  obtain ⟨hlive, hrecords⟩ := retains_of_ok hok
  have hstays {t : Ticket} (ht : s.contains t) : s'.contains t := by
    obtain ⟨r, hr⟩ := contains_iff.mp ht
    rw [contains, hrecords, hr]
    rfl
  refine ⟨fun t ht => hstays ((List.mem_append.mp ht).elim (hlive t) (h.live t)), fun t r hr => ?_⟩
  rw [hrecords] at hr
  obtain ⟨r₀, hr₀, rfl⟩ := Option.map_eq_some_iff.mp hr
  rw [List.count_append, Nat.add_comm]
  exact Nat.add_lt_add_right (h.spare t r₀ hr₀) _

/-- Counts to spare can be released: no record goes, and what was to spare beside them still is. -/
theorem released (h : s.Spares (us ++ ts)) :
    ∃ s', us.forM decref s = .ok ⟨⟩ s' ∧ s'.Spares ts ∧
      ∀ t, s'.record? t = (s.record? t).map fun r =>
        { r with refcount := r.refcount - us.count t } := by
  induction us generalizing s with
  | nil => exact ⟨s, rfl, h, fun t => by simp⟩
  | cons a rest ih =>
    obtain ⟨r, hr⟩ := contains_iff.mp (h.live a List.mem_cons_self)
    have hmany : 1 < r.refcount := by
      have := h.spare a r hr
      rw [List.cons_append, List.count_cons_self] at this
      omega
    have hnext : (s.setRecord a { r with refcount := r.refcount - 1 }).Spares (rest ++ ts) := by
      refine ⟨fun t ht => (contains_setRecord hr _ t).trans (h.live t (List.mem_cons_of_mem a ht)),
        fun t rt ht => ?_⟩
      rw [record?_setRecord hr] at ht
      split at ht
      · next hta =>
        subst hta
        cases ht
        have := h.spare t r hr
        rw [List.cons_append, List.count_cons_self] at this
        exact Nat.lt_sub_of_add_lt this
      · next hta =>
        have := h.spare t rt ht
        rwa [List.cons_append, List.count_cons_of_ne (Ne.symm hta)] at this
    obtain ⟨s', hok, hspares, hrecords⟩ := ih hnext
    refine ⟨s', (bind_of_ok (decref_of_spare hr hmany)).trans hok, hspares, fun t => ?_⟩
    rw [hrecords, record?_setRecord hr]
    by_cases hta : t = a
    · subst hta
      rw [if_pos rfl, hr, Option.map_some, Option.map_some, List.count_cons_self,
        Nat.sub_sub, Nat.add_comm 1]
    · rw [if_neg hta, List.count_cons_of_ne (Ne.symm hta)]

end Spares

/-! ## Failing later -/

theorem retain_changes (h : s.firstGone v.scopes = false) (hne : v.scopes ≠ [])
    {x : EStateM.Result Error Store PUnit} (hrun : retain v s = x) : ¬ s.SameAs (stateOf x) :=
  hrun ▸ (retain_less h hne).not_sameAs

theorem scopes_ne_nil_of_retain_error (h : retain v s = .error e s') : v.scopes ≠ [] := by
  intro hv
  rw [retain, hv] at h
  cases h

theorem decref_changes (hs : s.Arena) (hrun : decref t s = .error e s')
    (h : s.contains t) : ¬ s.SameAs s' := by
  have hless := decref_less hs h
  rw [hrun] at hless
  exact hless.not_sameAs_of_lower

theorem release_changes (hs : s.Arena) (hrun : release v s = .error e s')
    (h : s.firstGone v.scopes = false) :
    ¬ s.SameAs s' := by
  have hne : v.scopes ≠ [] := by
    intro hv
    rw [release, hv] at hrun
    cases hrun
  have hless := release_less hs h hne
  rw [hrun] at hless
  exact hless.not_sameAs_of_lower

theorem setRecord_self (hr : s.record? t = some r) : s.setRecord t r = s := by
  obtain ⟨hi, hget⟩ := record?_eq_some hr
  rw [setRecord, ← hget, Array.setIfInBounds_def, dif_pos hi, Array.set_getElem_self]

/-- A value has taken the place of another, and the other cannot be let go as a whole. The binding
alone tells the stores apart: if it were the same value, it could be let go, having just been
retained. -/
theorem rebind_changes (hs : s.Arena) {u : PUnit} (hretain : retain v s = .ok u s₁)
    (hr : s₁.record? t = some r) {old : Value} (hold : r.bindings.get? name = some old)
    (hrun : release old (s₁.setRecord t { r with bindings := r.bindings.put name v }) =
      .error e s') :
    ¬ s.SameAs s' := by
  intro hsame
  have hafter : (stateOf
    (release old (s₁.setRecord t { r with bindings := r.bindings.put name v }))).Under _ :=
    release_under old _
  rw [hrun] at hafter
  have hbefore := (retains_of_ok hretain).2 t
  rw [hr] at hbefore
  obtain ⟨r₀, hr₀, rfl⟩ := Option.map_eq_some_iff.mp hbefore.symm
  have hput : r₀.bindings.put name v = r₀.bindings := by
    obtain ⟨r', hr', hscope, -⟩ := hafter t r₀ ((hsame.records t).trans hr₀)
    rw [record?_setRecord hr, if_pos rfl] at hr'
    cases hr'
    exact (Scope.mk.inj hscope).1
  have hv : old = v := by
    have hget := NameMap.get?_put name name v r₀.bindings
    rw [hput, if_pos rfl, show r₀.bindings.get? name = some old from hold] at hget
    exact Option.some.inj hget
  subst hv
  obtain ⟨s₂, hok, -⟩ := (hs.spares.retained hretain).released
  simp only [hput] at hrun
  rw [setRecord_self hr] at hrun
  cases hok.symm.trans hrun

theorem define_changes (hs : s.Arena) (hrun : define t name v s = .error e s')
    (h : s.firstGone (v.scopes ++ [t]) = false) : ¬ s.SameAs s' := by
  have hfirst (hne : v.scopes ≠ []) : s.firstGone v.scopes = false := by
    obtain ⟨u, rest, hv⟩ := List.exists_cons_of_ne_nil hne
    rw [hv] at h ⊢
    exact h
  rw [define] at hrun
  cases hretain : retain v s with
  | error e₁ s₁ =>
    have hne := scopes_ne_nil_of_retain_error hretain
    rw [bind_of_error hretain] at hrun
    cases hrun
    exact retain_changes (hfirst hne) hne hretain
  | ok u s₁ =>
    rw [bind_of_ok hretain, get_bind] at hrun
    cases hr : s₁.record? t with
    | none =>
      rw [hr] at hrun
      cases hrun
      have hne : v.scopes ≠ [] := by
        -- otherwise nothing was retained, and the scope itself was the first to be looked at
        intro hv
        rw [retain, hv] at hretain
        cases hretain
        rw [hv, List.nil_append, firstGone_cons, Bool.not_eq_false', contains, hr] at h
        cases h
      exact retain_changes (hfirst hne) hne hretain
    | some r =>
      simp only [hr, set_bind] at hrun
      cases hold : r.bindings.get? name with
      | none =>
        rw [hold] at hrun
        cases hrun
      | some old =>
        rw [hold] at hrun
        exact rebind_changes hs hretain hr hold hrun

theorem contains_of_ownerWithin {fuel : Nat} {owner : Ticket}
    (h : s.ownerWithin name fuel t = .ok (some owner)) :
    s.contains owner := by
  induction fuel generalizing t with
  | zero => cases h
  | succ fuel ih =>
    rw [ownerWithin] at h
    cases hr : s.record? t with
    | none =>
      rw [hr] at h
      cases h
    | some r =>
      rw [hr] at h
      dsimp only at h
      split at h
      · cases h
        exact contains_of_record? hr
      · split at h
        · exact ih h
        · cases h

theorem lookup_changes (hrun : lookup t name s = .error e s')
    (h : (Call.lookup t name).stopsAtOnce s = false) :
    ¬ s.SameAs s' := by
  rw [Call.stopsAtOnce] at h
  rw [lookup, get_bind] at hrun
  cases howner : s.ownerOf t name with
  | error e => simp [howner] at h
  | ok owner =>
    rw [howner] at h hrun
    cases owner with
    | none => cases hrun
    | some owner =>
      dsimp only at h hrun
      cases hv : (s.record? owner).bind (·.bindings.get? name) with
      | none =>
        rw [hv] at hrun
        cases hrun
      | some v =>
        rw [hv] at h hrun
        have hretain := error_of_discard hrun
        exact retain_changes h (scopes_ne_nil_of_retain_error hretain) hretain

theorem assign_changes (hs : s.Arena) (hrun : assign t name v s = .error e s')
    (h : (Call.assign t name v).stopsAtOnce s = false) : ¬ s.SameAs s' := by
  rw [Call.stopsAtOnce] at h
  rw [assign, get_bind] at hrun
  cases howner : s.ownerOf t name with
  | error e => simp [howner] at h
  | ok owner =>
    rw [howner] at h hrun
    cases owner with
    | none => cases hrun
    | some owner =>
      dsimp only at h hrun
      cases hretain : retain v s with
      | error e₁ s₁ =>
        rw [bind_of_error hretain] at hrun
        cases hrun
        exact retain_changes h (scopes_ne_nil_of_retain_error hretain) hretain
      | ok u s₁ =>
        rw [bind_of_ok hretain, get_bind] at hrun
        have howned : s₁.contains owner := by
          have hunder := retain_under v s
          rw [hretain] at hunder
          exact hunder.contains (contains_of_ownerWithin howner)
        obtain ⟨r, hr⟩ := contains_iff.mp howned
        simp only [hr, set_bind] at hrun
        cases hold : r.bindings.get? name with
        | none =>
          rw [hold] at hrun
          cases hrun
        | some old =>
          rw [hold] at hrun
          exact rebind_changes hs hretain hr hold (error_of_discard hrun)

/-! ### A new scope -/

/-- The scope is there, and what it binds could be released. -/
def Covers (s : Store) (t : Ticket) : Prop :=
  ∃ r, s.record? t = some r ∧ s.Spares r.bindings.scopes

theorem release_displaced (name : String) (m : NameMap Value) :
    (match m.get? name with | some old => release old | none => pure ()) =
    (m.scopesAt name).forM decref := by
  unfold NameMap.scopesAt
  cases m.get? name <;> rfl

/-- Binding a name in such a scope leaves it such a scope, or fails with the scope still there. -/
theorem define_covers (name : String) (v : Value) (h : s.Covers t) :
    match define t name v s with
    | .ok _ s' => s'.Covers t
    | .error _ s' => s'.contains t := by
  obtain ⟨r, hr, hspares⟩ := h
  have hunder := retain_under v s
  cases hretain : retain v s with
  | error e s₁ =>
    rw [hretain] at hunder
    rw [define, bind_of_error hretain]
    exact hunder.contains (contains_of_record? hr)
  | ok u s₁ =>
    rw [hretain] at hunder
    obtain ⟨r₁, hr₁ : s₁.record? t = some r₁, hscope, -⟩ := hunder t r hr
    have hbindings : r₁.bindings = r.bindings := (Scope.mk.inj hscope).1
    have hspares₁ :
      s₁.Spares (r₁.bindings.scopesAt name ++ NameMap.scopes (r₁.bindings.put name v)) := by
      refine (hspares.retained hretain).of_count_le fun a => ?_
      have := NameMap.count_scopes_put a name v r₁.bindings
      rw [List.count_append, List.count_append, ← hbindings]
      omega
    obtain ⟨s₂, hok, hspares₂, hrecords⟩ :=
      (hspares₁.rebind hr₁ { r₁ with bindings := r₁.bindings.put name v } rfl).released
    have hdefine : define t name v s = .ok ⟨⟩ s₂ := by
      rw [define, bind_of_ok hretain, get_bind, hr₁]
      exact (congrFun (release_displaced name r₁.bindings) _).trans hok
    have ht := hrecords t
    rw [record?_setRecord hr₁, if_pos rfl, Option.map_some] at ht
    rw [hdefine]
    exact ⟨_, ht, hspares₂⟩

theorem emptyScopeIn_covers (hs : s.Arena) {parent : Ticket} (h : s.contains parent) :
    ∃ t s₁, emptyScopeIn parent s = .ok t s₁ ∧ s.contains t = false ∧ s₁.Covers t := by
  obtain ⟨r, hr⟩ := contains_iff.mp h
  let raised := s.setRecord parent { r with refcount := r.refcount + 1 }
  have hraised : raised.WellFormed := hs.wellFormed.setRecord hr rfl
  have hok : emptyScopeIn parent s = .ok (raised.alloc ⟨1, [], some parent⟩).1
    (raised.alloc ⟨1, [], some parent⟩).2 :=
    bind_of_ok (incref_of_record? hr)
  have harena := emptyScopeIn_tends parent s hs
  rw [hok] at harena
  refine ⟨_, _, hok, ?_, ⟨1, [], some parent⟩, ?_, harena.arena.spares⟩
  · rw [← contains_setRecord hr, contains, record?_alloc_self hraised]
    rfl
  · rw [record?_alloc hraised, if_pos rfl]

theorem newScopeIn_changes (hs : s.Arena) {parent : Ticket} {bindings : List (String × Value)}
    (hrun : newScopeIn parent bindings s = .error e s')
    (h : s.contains parent) : ¬ s.SameAs s' := by
  obtain ⟨t, s₁, hnew, hgone, hcovers⟩ := emptyScopeIn_covers hs h
  have hloop : ∀ (bindings : List (String × Value)) (s₁ : Store), s₁.Covers t →
      (stateOf ((bindings.forM fun pair => define t pair.1 pair.2) s₁)).contains t := by
    intro bindings
    induction bindings with
    | nil =>
      rintro s₁ ⟨r, hr, -⟩
      exact contains_of_record? hr
    | cons pair rest ih =>
      intro s₁ hcovers
      have hfirst := define_covers pair.1 pair.2 hcovers
      show (stateOf ((define t pair.1 pair.2 >>= fun _ => rest.forM fun pair =>
        define t pair.1 pair.2) s₁)).contains t
      cases hdefine : define t pair.1 pair.2 s₁ with
      | error e s₂ =>
        rw [hdefine] at hfirst
        rw [bind_of_error hdefine]
        exact hfirst
      | ok u s₂ =>
        rw [hdefine] at hfirst
        rw [bind_of_ok hdefine]
        exact ih s₂ hfirst
  rw [newScopeIn_eq, bind_of_ok hnew] at hrun
  have hfails : (bindings.forM fun pair => define t pair.1 pair.2) s₁ = .error e s' :=
    error_of_discard hrun
  have hstays := hloop bindings s₁ hcovers
  rw [hfails] at hstays
  obtain ⟨r, hr⟩ := contains_iff.mp hstays
  refine Less.not_sameAs ⟨t, r, hr, fun r₀ hr₀ => ?_⟩
  cases (record?_of_gone hgone).symm.trans hr₀

/-! ### Collection -/

theorem collect_changes {roots : List Ticket} (hrun : collect roots s = .error e s')
    (h : (s.marksFrom roots).isOk) :
    ¬ s.SameAs s' := by
  rw [collect, get_bind] at hrun
  obtain ⟨marks, hmarks⟩ := exists_ok_of_isOk h
  simp only [hmarks, set_bind] at hrun
  have hloop := error_of_discard hrun
  cases hdead : s.tickets.filter fun t => !isMarked marks t with
  | nil =>
    rw [hdead] at hloop
    cases hloop
  | cons t rest =>
    -- the first record that was removed stays away
    rw [hdead] at hloop
    have hmem : t ∈ s.tickets.filter fun t => !isMarked marks t := hdead ▸ List.mem_cons_self
    obtain ⟨r, hr⟩ := contains_iff.mp (mem_tickets_iff.mp (List.mem_filter.mp hmem).1)
    have hless : (s.removeAll (t :: rest)).2.Less s := by
      refine ⟨t, r, hr, fun r₀ hr₀ => ?_⟩
      rw [record?_removeAll, if_pos List.mem_cons_self] at hr₀
      cases hr₀
    have hunder :=
      stateOf_forM (R := fun s s' => Under s' s) .refl (fun h h' => h'.trans h) dropSurvivor_under
      ((s.removeAll (t :: rest)).1.flatMap Record.references) (s.removeAll (t :: rest)).2
    rw [hloop] at hunder
    exact (hunder.trans_less hless).not_sameAs_of_lower

/-! ## Any call -/

/-- One case for each operation. -/
theorem Call.run_changes (hs : s.Arena) {call : Call} (hrun : call.run s = .error e s')
    (h : call.stopsAtOnce s = false) : ¬ s.SameAs s' := by
  cases call with
  | newScope => cases hrun
  | newScopeIn parent bindings =>
    exact newScopeIn_changes hs (error_of_discard hrun) (Bool.not_eq_false' _ ▸ h)
  | define t name v => exact define_changes hs hrun h
  | lookup t name => exact lookup_changes (error_of_discard hrun) h
  | assign t name v => exact assign_changes hs (error_of_discard hrun) h
  | incref t =>
    obtain ⟨r, hr⟩ := contains_iff.mp (Bool.not_eq_false' _ ▸ h)
    cases (incref_of_record? hr).symm.trans hrun
  | decref t => exact decref_changes hs hrun (Bool.not_eq_false' _ ▸ h)
  | retain v => exact retain_changes h (scopes_ne_nil_of_retain_error hrun) hrun
  | release v => exact release_changes hs hrun h
  | collect roots => exact collect_changes (error_of_discard hrun) (Bool.not_eq_false' _ ▸ h)
  | reachable roots =>
    obtain ⟨marks, hmarks⟩ := exists_ok_of_isOk (Bool.not_eq_false' _ ▸ h)
    rw [run, ask, Store.reachable, hmarks] at hrun
    cases hrun
  | parentOf t =>
    obtain ⟨r, hr⟩ := contains_iff.mp (Bool.not_eq_false' _ ▸ h)
    rw [run, ask, Store.parent, hr] at hrun
    cases hrun

/-- Whatever calls have been made of a store, if a further call fails then every record, count,
parent and binding, the free list and the number of live records are as they were before exactly if
the call stops at once; and then the store is the very same. -/
theorem unchanged_iff_stopsAtOnce (calls : List Call) (call : Call) {e : Error} {s' : Store}
    (hrun : call.run (empty.after calls) = .error e s') :
    ((empty.after calls).SameAs s' ↔ call.stopsAtOnce (empty.after calls)) ∧
      (call.stopsAtOnce (empty.after calls) → s' = empty.after calls) := by
  have hstop : call.stopsAtOnce (empty.after calls) → s' = empty.after calls := by
    intro h
    obtain ⟨e', he⟩ := Call.run_of_stopsAtOnce h
    cases he.symm.trans hrun
    rfl
  refine ⟨⟨fun hsame => ?_, fun h => ?_⟩, hstop⟩
  · refine Bool.not_eq_false _ ▸ fun h => ?_
    exact Call.run_changes (arena_empty.after calls).arena hrun h hsame
  · rw [hstop h]
    exact ⟨fun _ => rfl, rfl, rfl⟩

/-- Two scopes, of which the second is gone. -/
def oneGone : List Call := [.newScope, .newScope, .decref ⟨1, 0⟩]

/-- Two functions are retained, of which one belongs to the scope that is gone. If it comes first
then nothing happens; if it comes last then the other has been given a count. -/
theorem unchanged_iff_stopsAtOnce_pair :
    (∃ e, (Call.retain (.list [keeper ⟨1, 0⟩, keeper ⟨0, 0⟩])).run (empty.after oneGone) =
      .error e (empty.after oneGone)) ∧
    ∃ e s', (Call.retain (.list [keeper ⟨0, 0⟩, keeper ⟨1, 0⟩])).run (empty.after oneGone) =
      .error e s' ∧
      ¬ (empty.after oneGone).SameAs s' := by
  constructor
  · have hfails : failsWith (fun _ _ => true)
        ((Call.retain (.list [keeper ⟨1, 0⟩, keeper ⟨0, 0⟩])).run (empty.after oneGone)) =
          true := by decide +kernel
    obtain ⟨e, s', hrun, -⟩ := failsWith_iff.mp hfails
    have hsame := (unchanged_iff_stopsAtOnce oneGone _ hrun).2 (by decide +kernel)
    exact ⟨e, hsame ▸ hrun⟩
  · have hfails : failsWith (fun _ _ => true)
        ((Call.retain (.list [keeper ⟨0, 0⟩, keeper ⟨1, 0⟩])).run (empty.after oneGone)) =
          true := by decide +kernel
    obtain ⟨e, s', hrun, -⟩ := failsWith_iff.mp hfails
    refine ⟨e, s', hrun, fun hsame => ?_⟩
    have hstops := (unchanged_iff_stopsAtOnce oneGone _ hrun).1.mp hsame
    revert hstops
    decide +kernel

/-- A function of the scope that is left is bound in the scope that is gone. That fails, and the
scope that is left has one count more than it had. -/
theorem define_gone_counts : ∃ e s',
    (Call.define ⟨1, 0⟩ "x" (keeper ⟨0, 0⟩)).run (empty.after oneGone) = .error e s' ∧
    (empty.after oneGone).refcount? ⟨0, 0⟩ = some 1 ∧ s'.refcount? ⟨0, 0⟩ = some 2 ∧
    ¬ (empty.after oneGone).SameAs s' := by
  have hfails : failsWith (fun _ s' => decide (s'.refcount? ⟨0, 0⟩ = some 2))
      ((Call.define ⟨1, 0⟩ "x" (keeper ⟨0, 0⟩)).run (empty.after oneGone)) = true := by
        decide +kernel
  have hbefore : (empty.after oneGone).refcount? ⟨0, 0⟩ = some 1 := by decide +kernel
  obtain ⟨e, s', hrun, hafter⟩ := failsWith_iff.mp hfails
  have hafter := of_decide_eq_true hafter
  refine ⟨e, s', hrun, hbefore, hafter, fun hsame => ?_⟩
  rw [refcount?, hsame.records] at hafter
  cases hbefore.symm.trans hafter

end Store

end LiveLisp
