/-
  Machines over records in different orders. When a record is removed, the scopes that it held are
  released in the order of its bindings; so two machines whose records differ in that order come to
  use other slots and other tickets. They still resemble each other: both follow one ideal machine,
  up to the order of its bindings. Steps, collections and tearing down keep it so
  (`Machine.Resembles.step`), and nothing that can be seen of machines tells them apart.

  That goes for how many scopes are there, too (`Resembles.live`). A scope is there as long as
  somebody holds it, and one that is gone without having been swept has no endless chain of holders;
  so the holders and what has been swept decide which scopes are there (`hasNumber_of_resembles`).
-/
import LiveLisp.Proofs.Ideal.Order
import LiveLisp.Proofs.Machine.StoreUse
import LiveLisp.Proofs.Scope.Sweeping

namespace LiveLisp

variable {σ : Type}

/-! ## Which scopes are there -/

section Numbers

variable {swept swept' : Nat → Prop} {ρ ρ' : Ticket → Ticket} {scopes scopes' : Array Scope}

/-- The numbers of the good tickets. -/
def Store.numbers (s : Store) (ρ : Ticket → Ticket) : List Nat :=
  s.tickets.map fun t => (ρ t).index

theorem Store.mem_numbers_iff {s : Store} {i : Nat} :
    i ∈ s.numbers ρ ↔ View.HasNumber s.scope? ρ i := by
  refine ⟨fun h => ?_, fun h => ?_⟩
  · obtain ⟨t, ht, rfl⟩ := List.mem_map.mp h
    obtain ⟨sc, hsc⟩ := exists_scope?_of_contains (mem_tickets_iff.mp ht)
    exact ⟨t, sc, hsc, rfl⟩
  · obtain ⟨t, sc, ht, rfl⟩ := h
    exact List.mem_map.mpr ⟨t, mem_tickets_iff.mpr (contains_of_scope? ht), rfl⟩

theorem Mirrors.nodup_numbers {s : Store} (h : Mirrors swept ρ s.scope? scopes) :
    (s.numbers ρ).Nodup := by
  refine (Store.nodup_tickets s).map_on fun t ht u hu heq => ?_
  obtain ⟨sct, hsct⟩ := Store.exists_scope?_of_contains (Store.mem_tickets_iff.mp ht)
  obtain ⟨scu, hscu⟩ := Store.exists_scope?_of_contains (Store.mem_tickets_iff.mp hu)
  exact h.apart t u sct scu hsct hscu heq

/-- Two stores with scopes under the same numbers have as many. -/
theorem Mirrors.length_tickets_eq {s s' : Store} (h : Mirrors swept ρ s.scope? scopes)
    (h' : Mirrors swept' ρ' s'.scope? scopes')
    (hsame : ∀ i, View.HasNumber s.scope? ρ i ↔ View.HasNumber s'.scope? ρ' i) :
    s.tickets.length = s'.tickets.length := by
  have hperm : (s.numbers ρ).Perm (s'.numbers ρ') := by
    refine (List.perm_ext_iff_of_nodup h.nodup_numbers h'.nodup_numbers).mpr fun i => ?_
    rw [Store.mem_numbers_iff, Store.mem_numbers_iff, hsame]
  simpa only [Store.numbers, List.length_map] using hperm.length_eq

variable {m m' : Machine} (hm : Mirrors swept ρ m.memory.store.scope? scopes)
  (hm' : Mirrors swept ρ' m'.memory.store.scope? scopes')
  (hsame : (m.image ρ scopes).Reordered (m'.image ρ' scopes'))

include hsame

theorem roots_of_reordered : m.roots.map ρ = m'.roots.map ρ' := by
  have hcontext : m.context.rename ρ = m'.context.rename ρ' := hsame.context
  have hfunctions : m.memory.functions.rename ρ = m'.memory.functions.rename ρ' := hsame.functions
  unfold Machine.roots
  rw [List.map_append, List.map_append, ← Context.scopes_rename, ← Context.scopes_rename,
    ← FunctionTable.scopes_rename, ← FunctionTable.scopes_rename, hcontext, hfunctions]

/-- A root of the one is a root of the other. -/
theorem exists_root {t : Ticket} (ht : t ∈ m.roots) :
    ∃ t' ∈ m'.roots, (ρ' t').index = (ρ t).index := by
  have hmem : ρ t ∈ m'.roots.map ρ' := roots_of_reordered hsame ▸ List.mem_map_of_mem ht
  obtain ⟨t', ht', heq⟩ := List.mem_map.mp hmem
  exact ⟨t', ht', congrArg Ticket.index heq⟩

include hm hm'

/-- What is there in the one is there in the other. For if it had gone from there, so would its
holders have, and theirs, without an end. -/
theorem hasNumber_of_reordered (hx : m.memory.store.Exact m.roots)
    (hx' : m'.memory.store.Exact m'.roots)
    (hcounted : m'.memory.store.Arena) {i : Nat} (hi : View.HasNumber m'.memory.store.scope? ρ' i) :
    View.HasNumber m.memory.store.scope? ρ i := by
  by_contra hnone
  have hsize : scopes.size = scopes'.size := hsame.scopes.size
  have hlt : i < scopes.size := by
    obtain ⟨t', sc', ht', rfl⟩ := hi
    exact hsize ▸ hm'.index_lt ht'
  have hacc := hm.gone i hlt (hm'.unswept i hi) hnone
  induction hacc with
  | intro i _ ih =>
    obtain ⟨t', sc', ht', rfl⟩ := hi
    rcases hcounted.held_or_referred hx' (Store.contains_of_scope? ht') with hroot | ⟨u', hu'⟩
    · obtain ⟨t, ht, heq⟩ := exists_root hsame.symm hroot
      obtain ⟨sc, hsc⟩ := Store.exists_scope?_of_contains (hx.held_live t ht)
      exact hnone ⟨t, sc, hsc, heq⟩
    · have hholds := hsame.symm.scopes.holds (hm'.holds hu')
      obtain ⟨scu', hscu', -⟩ := hu'
      refine ih _ hholds ⟨u', scu', hscu', rfl⟩ (fun hthere => ?_) (hsize ▸ hm'.index_lt hscu')
      exact hnone (hm.hasNumber_of_holds hthere hholds)

variable {s s' : Store} {k k' : Nat} (hs : m.memory.store.Swept m.roots k s)
  (hs' : m'.memory.store.Swept m'.roots k' s')

include hs hs'

/-- What the one keeps when it collects the other keeps. -/
theorem hasNumber_of_swept {i : Nat} (hi : View.HasNumber s.scope? ρ i) :
    View.HasNumber s'.scope? ρ' i := by
  obtain ⟨t, sct, hsct, rfl⟩ := hi
  have ht := (hs.contains_iff t).mp (Store.contains_of_scope? hsct)
  clear sct hsct
  induction ht with
  | @root t ht =>
    obtain ⟨t', ht', heq⟩ := exists_root hsame ht
    obtain ⟨sc', hsc'⟩ := Store.exists_scope?_of_contains (hs'.exact.held_live t' ht')
    exact ⟨t', sc', hsc', heq⟩
  | @onward t u r _ hr hu ih =>
    obtain ⟨t', sc', ht', heq⟩ := ih
    have hscope : s.scope? t = some r.scope := by
      rw [Store.scope?, hr]
      rfl
    have hholds := hsame.scopes.holds (hm.holds ⟨r.scope, hs.within t r.scope hscope, hu⟩)
    rw [← heq] at hholds
    obtain ⟨u', ⟨sc, hsc, hu'⟩, hnumber⟩ := hm'.exists_held (hs'.within t' sc' ht') hholds
    cases (hs'.within t' sc' ht').symm.trans hsc
    obtain ⟨scu, hscu⟩ := hs'.exact.closed t' u' ⟨sc', ht', hu'⟩
    exact ⟨u', scu, hscu, hnumber⟩

/-- Afterwards the same has been swept from both. -/
theorem mirrors_swept : ∃ gone, Mirrors gone ρ s.scope? scopes ∧ Mirrors gone ρ' s'.scope? scopes' ∧
    ∀ i, View.HasNumber s.scope? ρ i ↔ View.HasNumber s'.scope? ρ' i := by
  have hnumber : ∀ i, View.HasNumber s.scope? ρ i ↔ View.HasNumber s'.scope? ρ' i := fun i =>
    ⟨hasNumber_of_swept hm hm' hsame hs hs', hasNumber_of_swept hm' hm hsame.symm hs' hs⟩
  have hsize : scopes.size = scopes'.size := hsame.scopes.size
  refine ⟨fun i => i < scopes.size ∧ ¬ View.HasNumber s.scope? ρ i,
    hm.sweep hs.within hs.exact.closed fun _ => .rfl,
    hm'.sweep hs'.within hs'.exact.closed fun i => ?_, hnumber⟩
  rw [← hnumber, ← hsize]

end Numbers

/-! ## Machines -/

/-- Two machines that follow one ideal machine, up to the order of bindings, in which the same
scopes have been swept; and neither keeps a record that nobody holds. -/
structure Machine.Resembles (m m' : Machine) : Prop where
  follow : ∃ swept r r', m.FollowsSince swept r ∧ m'.FollowsSince swept r' ∧ r.Sound ∧
    r.Reordered r'
  counted : m.memory.store.Arena
  counted' : m'.memory.store.Arena

namespace Machine

variable {m m' m'' : Machine}

theorem start_resembles {code : Code} (hcode : code.Sound) :
    (Machine.start code).Resembles (Machine.start code) := by
  have hcounted : (Machine.start code).memory.store.Arena :=
    Store.Becomes.arena ⟨[.newScope], rfl⟩ Store.arena_empty
  exact ⟨⟨_, _, _, start_followsSince code, start_followsSince code, Ideal.start_sound hcode,
    .refl _⟩, hcounted, hcounted⟩

theorem Reorders.arena (h : m.Reorders m') (hm : m.memory.store.Arena) :
    m'.memory.store.Arena := by
  obtain ⟨store, horder, rfl⟩ := h
  induction horder with
  | refl => exact hm
  | @record s t r bindings _ hr _ ih =>
    have hleads : s.Leads (s.setRecord t { r with bindings }) :=
      ih.setRecord hr rfl (ih.counted t r hr)
    exact hleads.arena

theorem arena_of_step {host : Host σ} {w w' : σ} (hm : m.memory.store.Arena)
    (hstep : Exec.step host ⟨m, w⟩ = .ok () ⟨m', w'⟩) : m'.memory.store.Arena := by
  have huses := Exec.uses_step host ⟨m, w⟩
  unfold UsesStore at huses
  rw [hstep] at huses
  exact huses.arena hm

theorem arena_of_run {α : Type} {x : MachineM α} {a : α} (hx : UsesStore itsStore x m)
    (hm : m.memory.store.Arena) (hrun : x m = .ok a m') : m'.memory.store.Arena := by
  unfold UsesStore at hx
  rw [hrun] at hx
  exact hx.arena hm

namespace Resembles

theorem reorder (h : m.Resembles m') (horder : m'.Reorders m'') : m.Resembles m'' := by
  obtain ⟨swept, r, r', hm, hm', hr, hsame⟩ := h.follow
  obtain ⟨r'', hm'', hsame'⟩ := hm'.reorder horder
  exact ⟨⟨swept, r, r'', hm, hm'', hr, hsame.trans hsame'⟩, h.counted, horder.arena h.counted'⟩

/-- The stacks are the same up to the names of scopes. -/
theorem context (h : m.Resembles m') : ∃ ρ ρ', m.context.rename ρ = m'.context.rename ρ' := by
  obtain ⟨_, _, _, ⟨-, ρ, scopes, -, rfl⟩, ⟨-, ρ', scopes', -, rfl⟩, -, hsame⟩ := h.follow
  exact ⟨ρ, ρ', hsame.context⟩

theorem done (h : m.Resembles m') : m.context.done = m'.context.done := by
  obtain ⟨ρ, ρ', hcontext⟩ := h.context
  have hdone : (m.context.rename ρ).done = (m'.context.rename ρ').done := by rw [hcontext]
  exact hdone

theorem pendingCall? (h : m.Resembles m') :
    m.context.pendingCall? = m'.context.pendingCall? := by
  obtain ⟨ρ, ρ', hcontext⟩ := h.context
  rw [← Context.pendingCall?_rename ρ m.context, hcontext, Context.pendingCall?_rename]

/-- As many scopes are there in both. -/
theorem live (h : m.Resembles m') : m.memory.store.live = m'.memory.store.live := by
  obtain ⟨_, _, _, ⟨hx, ρ, scopes, hm, rfl⟩, ⟨hx', ρ', scopes', hm', rfl⟩, -, hsame⟩ := h.follow
  rw [hx.wellFormed.live_eq_length, hx'.wellFormed.live_eq_length]
  exact hm.length_tickets_eq hm' fun i =>
    ⟨hasNumber_of_reordered hm' hm hsame.symm hx' hx h.counted,
      hasNumber_of_reordered hm hm' hsame hx hx' h.counted'⟩

/-- Both take the next step, or both fail with the same error, and the world goes on the same. -/
theorem step {host : Host σ} {w : σ} (h : m.Resembles m') (hhonest : host.HonestIn w)
    (hblind : host.BlindIn w) :
    (∃ n n', Exec.step host ⟨m, w⟩ = .ok () ⟨n, (host.reply m.context w).2⟩ ∧
      Exec.step host ⟨m', w⟩ = .ok () ⟨n', (host.reply m.context w).2⟩ ∧ n.Resembles n') ∨
    ∃ e, Exec.step host ⟨m, w⟩ = .error e ⟨m, (host.reply m.context w).2⟩ ∧
      Exec.step host ⟨m', w⟩ = .error e ⟨m', (host.reply m.context w).2⟩ := by
  obtain ⟨swept, _, _, ⟨hx, ρ, scopes, hm, rfl⟩, ⟨hx', ρ', scopes', hm', rfl⟩, hr, hsame⟩ :=
    h.follow
  have hr' := hsame.sound hr
  have hcontext : m.context.rename ρ = m'.context.rename ρ' := hsame.context
  -- the host gives both the same reply, up to the names of scopes
  have hreply := hblind.reply ρ m.context
  rw [hcontext, hblind.reply ρ' m'.context, Prod.mk.injEq] at hreply
  obtain ⟨hanswer, hworld⟩ := hreply
  have hstep := step_image hx hm hr fun v hv => hhonest.reply hv
  have hstep' := step_image hx' hm' hr' fun v hv => hhonest.reply hv
  have hends := hsame.step host.owner? ((host.reply m.context w).1.map (Value.rename ρ))
  rw [hanswer, hworld] at hstep'
  generalize (m.image ρ scopes).step host.owner? _ = outcome at hstep hends
  generalize (m'.image ρ' scopes').step host.owner? _ = outcome' at hstep' hends
  cases outcome with
  | ok q =>
    cases outcome' with
    | ok q' =>
      obtain ⟨n, hrun, hn, hq⟩ := hstep
      obtain ⟨n', hrun', hn', -⟩ := hstep'
      exact .inl ⟨n, n', hrun, hrun', ⟨swept, q, q', hn, hn', hq, hends⟩,
        arena_of_step h.counted hrun, arena_of_step h.counted' hrun'⟩
    | error e' => exact hends.elim
  | error e =>
    cases outcome' with
    | ok q' => exact hends.elim
    | error e' =>
      cases hends
      exact .inr ⟨e, hstep.1, hstep'.1⟩

/-- Both remove as many scopes, and keep the same. -/
theorem collectGarbage (h : m.Resembles m') :
    ∃ n n' k, Machine.collectGarbage m = .ok k n ∧ Machine.collectGarbage m' = .ok k n' ∧
      n.Resembles n' := by
  have hlive := h.live
  obtain ⟨swept, _, _, ⟨hx, ρ, scopes, hm, rfl⟩, ⟨hx', ρ', scopes', hm', rfl⟩, hr, hsame⟩ :=
    h.follow
  obtain ⟨k, s, hok, hs⟩ := Store.collect_swept hx
  obtain ⟨k', s', hok', hs'⟩ := Store.collect_swept hx'
  obtain ⟨gone, hmirrors, hmirrors', hnumber⟩ := mirrors_swept hm hm' hsame hs hs'
  have hcount : k = k' := by
    rw [hx.wellFormed.live_eq_length, hx'.wellFormed.live_eq_length] at hlive
    have hleft := hmirrors.length_tickets_eq hmirrors' hnumber
    have hremoved := hs.length_tickets
    have hremoved' := hs'.length_tickets
    omega
  subst hcount
  have hrun : Machine.collectGarbage m = .ok k ⟨m.context, ⟨m.memory.functions, s⟩, m.built⟩ :=
    onStore_of_ok hok
  have hrun' : Machine.collectGarbage m' =
      .ok k ⟨m'.context, ⟨m'.memory.functions, s'⟩, m'.built⟩ := onStore_of_ok hok'
  refine ⟨_, _, k, hrun, hrun', ⟨gone, m.image ρ scopes, m'.image ρ' scopes',
    ⟨hs.exact, ρ, scopes, hmirrors, rfl⟩, ⟨hs'.exact, ρ', scopes', hmirrors', rfl⟩, hr, hsame⟩,
    arena_of_run (uses_collectGarbage m) h.counted hrun,
    arena_of_run (uses_collectGarbage m') h.counted' hrun'⟩

/-- Functions let go of their environments in both. -/
theorem retire (h : m.Resembles m') :
    ∃ n n', onMemory Memory.retire m = .ok () n ∧ onMemory Memory.retire m' = .ok () n' ∧
      n.Resembles n' := by
  obtain ⟨swept, r, r', hm, hm', hr, hsame⟩ := h.follow
  obtain ⟨n, hrun, hn, -⟩ := retire_followsSince hm
  obtain ⟨n', hrun', hn', -⟩ := retire_followsSince hm'
  refine ⟨n, n', hrun, hrun', ⟨swept, _, _, hn, hn', Ideal.retire_sound hr, ?_⟩, ?_, ?_⟩
  · exact ⟨hsame.context, congrArg FunctionTable.retire hsame.functions, hsame.scopes, hsame.built⟩
  · exact arena_of_run (uses_onMemory Memory.uses_retire m) h.counted hrun
  · exact arena_of_run (uses_onMemory Memory.uses_retire m') h.counted' hrun'

theorem finish (h : m.Resembles m') :
    ∃ n n' k, Machine.finish m = .ok k n ∧ Machine.finish m' = .ok k n' ∧ n.Resembles n' := by
  obtain ⟨n₁, n₁', hretire, hretire', h₁⟩ := h.retire
  obtain ⟨n, n', k, hcollect, hcollect', hn⟩ := h₁.collectGarbage
  exact ⟨n, n', k, (bind_of_ok hretire).trans hcollect, (bind_of_ok hretire').trans hcollect', hn⟩

end Resembles

end Machine

end LiveLisp
