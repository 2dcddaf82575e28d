/-
  When a real machine follows an ideal one. A map `ρ` takes each good ticket to a scope number;
  stacks, function table and all that the records say are the same up to `ρ`, and two good tickets
  never go to one number.

  Removing records changes nothing here, since only good tickets are looked at (`Mirrors.mono`); a
  new record extends `ρ` by one ticket that nobody mentions yet (`Mirrors.add`). So all that memory
  management does is invisible.

  The ideal machine never forgets a scope, and it is kept track of why the real one has. Some have
  been swept by a collection, and `swept` says which; all others went with their last holder, so no
  endless chain of holders leads to them (`Mirrors.gone`).
-/
import LiveLisp.Proofs.Ideal.Rename
import LiveLisp.Proofs.Scope.Collect

namespace LiveLisp

/-- Among numbered scopes one that has not been swept holds another. -/
def Ideal.Holds (swept : Nat → Prop) (scopes : Array Scope) (i j : Nat) : Prop :=
  ¬ swept i ∧ ∃ sc, scopes[i]? = some sc ∧ ∃ u ∈ sc.references, u.index = j

/-- A ticket with this number is good. -/
def View.HasNumber (f : View) (ρ : Ticket → Ticket) (i : Nat) : Prop :=
  ∃ t sc, f t = some sc ∧ (ρ t).index = i

/-- The scopes of a store, under the numbers that `ρ` gives their tickets. -/
structure Mirrors (swept : Nat → Prop) (ρ : Ticket → Ticket) (f : View) (scopes : Array Scope) :
    Prop where
  content : ∀ t sc, f t = some sc → scopes[(ρ t).index]? = some (sc.rename ρ)
  apart : ∀ t u sct scu, f t = some sct → f u = some scu → (ρ t).index = (ρ u).index → t = u
  ordered : ∀ (i : Nat) sc p, scopes[i]? = some sc → sc.parent = some p → p.index < i
  closed : f.Closed
  unswept : ∀ i, f.HasNumber ρ i → ¬ swept i
  swept_lt : ∀ i, swept i → i < scopes.size
  gone : ∀ i, i < scopes.size → ¬ swept i → ¬ f.HasNumber ρ i → Acc (Ideal.Holds swept scopes) i

namespace Mirrors

variable {swept : Nat → Prop} {ρ : Ticket → Ticket} {f g : View} {scopes scopes' : Array Scope}

theorem index_lt (h : Mirrors swept ρ f scopes) {t : Ticket} {sc : Scope} (ht : f t = some sc) :
    (ρ t).index < scopes.size :=
  (Array.getElem?_eq_some_iff.mp (h.content t sc ht)).1

/-- What a good ticket's scope holds are the numbers of the tickets that its record holds. -/
theorem exists_held (h : Mirrors swept ρ f scopes) {t : Ticket} {sc : Scope} (ht : f t = some sc)
    {j : Nat} (hj : Ideal.Holds swept scopes (ρ t).index j) :
    ∃ u, f.Holds t u ∧ (ρ u).index = j := by
  obtain ⟨-, sc', hsc', u', hu', rfl⟩ := hj
  cases (h.content t sc ht).symm.trans hsc'
  rw [Scope.references_rename] at hu'
  obtain ⟨u, hu, rfl⟩ := List.mem_map.mp hu'
  exact ⟨u, ⟨sc, ht, hu⟩, rfl⟩

theorem holds (h : Mirrors swept ρ f scopes) {t u : Ticket} (ht : f.Holds t u) :
    Ideal.Holds swept scopes (ρ t).index (ρ u).index := by
  obtain ⟨sc, hsc, hu⟩ := ht
  refine ⟨h.unswept _ ⟨t, sc, hsc, rfl⟩, sc.rename ρ, h.content t sc hsc, ρ u, ?_, rfl⟩
  rw [Scope.references_rename]
  exact List.mem_map_of_mem hu

/-- Whoever is held by what is there is there. -/
theorem hasNumber_of_holds (h : Mirrors swept ρ f scopes) {i j : Nat} (hi : f.HasNumber ρ i)
    (hij : Ideal.Holds swept scopes i j) : f.HasNumber ρ j := by
  obtain ⟨t, sc, ht, rfl⟩ := hi
  obtain ⟨u, hu, rfl⟩ := h.exists_held ht hij
  obtain ⟨scu, hscu⟩ := h.closed t u hu
  exact ⟨u, scu, hscu, rfl⟩

/-- What has gone stays so, as long as it is only what is there that is held anew. -/
theorem acc_of_holds (h : Mirrors swept ρ f scopes)
    (hholds : ∀ i j, Ideal.Holds swept scopes' i j →
      Ideal.Holds swept scopes i j ∨ f.HasNumber ρ j)
    {i : Nat} (hacc : Acc (Ideal.Holds swept scopes) i) (hi : ¬ f.HasNumber ρ i) :
    Acc (Ideal.Holds swept scopes') i := by
  induction hacc with
  | intro i _ ih =>
    refine .intro i fun j hji => ?_
    have hheld := (hholds j i hji).resolve_right hi
    exact ih j hheld fun hj => hi (h.hasNumber_of_holds hj hheld)

theorem mono (h : Mirrors swept ρ f scopes) (hremains : View.Remains g f) :
    Mirrors swept ρ g scopes where
  content t sc ht := h.content t sc (hremains.within t sc ht)
  apart t u sct scu ht hu :=
    h.apart t u sct scu (hremains.within t sct ht) (hremains.within u scu hu)
  ordered := h.ordered
  closed := hremains.closed
  unswept := by
    rintro i ⟨t, sc, ht, hi⟩
    exact h.unswept i ⟨t, sc, hremains.within t sc ht, hi⟩
  swept_lt := h.swept_lt
  gone i hi hswept hnone := by
    by_cases hbefore : f.HasNumber ρ i
    · obtain ⟨t, sc, ht, rfl⟩ := hbefore
      have hgone : g t = none := by
        cases hg : g t with
        | none => rfl
        | some sc' => exact absurd ⟨t, sc', hg, rfl⟩ hnone
      have hacc := hremains.gone t sc ht hgone
      clear hi hswept hnone hgone
      -- its holders are those that its record had, and some that had gone already
      induction hacc generalizing sc with
      | intro t _ ih =>
        refine .intro _ fun j hj => ?_
        by_cases hthere : f.HasNumber ρ j
        · obtain ⟨u, scu, hu, rfl⟩ := hthere
          obtain ⟨t', ht', hsame⟩ := h.exists_held hu hj
          obtain ⟨sct', hsct'⟩ := h.closed u t' ht'
          cases h.apart t' t sct' sc hsct' ht hsame
          exact ih u ht' scu hu
        · obtain ⟨hunswept, scj, hscj, -⟩ := hj
          exact h.gone j (Array.getElem?_eq_some_iff.mp hscj).1 hunswept hthere
    · exact h.gone i hi hswept hbefore

/-- A collection takes what it takes at once, and what is gone then has been swept. -/
theorem sweep (h : Mirrors swept ρ f scopes) (hwithin : View.Within g f) (hclosed : g.Closed)
    {swept' : Nat → Prop} (hswept : ∀ i, swept' i ↔ i < scopes.size ∧ ¬ g.HasNumber ρ i) :
    Mirrors swept' ρ g scopes where
  content t sc ht := h.content t sc (hwithin t sc ht)
  apart t u sct scu ht hu := h.apart t u sct scu (hwithin t sct ht) (hwithin u scu hu)
  ordered := h.ordered
  closed := hclosed
  unswept i hi hswept' := ((hswept i).mp hswept').2 hi
  swept_lt i hi := ((hswept i).mp hi).1
  gone i hi hunswept hnone := absurd ((hswept i).mpr ⟨hi, hnone⟩) hunswept

/-- The owner of a name is found in the same place. -/
theorem ownerOf_eq (h : Mirrors swept ρ f scopes) {name : String} {t : Ticket} {o : Option Ticket}
    (ho : View.Owns f name t o) : Ideal.ownerOf scopes name (ρ t) = o.map ρ := by
  induction ho with
  | @here t sc ht hc =>
    rw [Ideal.ownerOf, h.content t sc ht]
    simp [Scope.rename, hc]
  | @outward t p sc o ht hc hp _ ih =>
    have hcontent := h.content t sc ht
    have hlt : (ρ p).index < (ρ t).index := h.ordered _ _ _ hcontent (by simp [Scope.rename, hp])
    rw [Ideal.ownerOf, hcontent]
    simp [Scope.rename, hc, hp, hlt, ih]
  | @nowhere t sc ht hc hp =>
    rw [Ideal.ownerOf, h.content t sc ht]
    simp [Scope.rename, hc, hp]

/-- With other bindings in one scope, that hold what is there. -/
theorem rebind (h : Mirrors swept ρ f scopes) {t : Ticket} {sct : Scope} (ht : f t = some sct)
    {sc : Scope} (hparent : sc.parent = sct.parent)
    (hlive : ∀ u ∈ sc.references, ∃ scu, f u = some scu) :
    Mirrors swept ρ (f.add t sc) (scopes.modify (ρ t).index fun _ => sc.rename ρ) := by
  have hold : ∀ {u scu}, f.add t sc u = some scu → ∃ scu', f u = some scu' := by
    intro u scu hu
    unfold View.add at hu
    split at hu
    · next e => exact ⟨sct, e ▸ ht⟩
    · exact ⟨scu, hu⟩
  have hnew : ∀ {u scu}, f u = some scu → ∃ scu', f.add t sc u = some scu' := by
    intro u scu hu
    unfold View.add
    split
    · exact ⟨sc, rfl⟩
    · exact ⟨scu, hu⟩
  have hnumber : ∀ {i}, (f.add t sc).HasNumber ρ i ↔ f.HasNumber ρ i := by
    refine fun {i} => ⟨fun hi => ?_, fun hi => ?_⟩
    · obtain ⟨u, scu, hu, rfl⟩ := hi
      obtain ⟨scu', hu'⟩ := hold hu
      exact ⟨u, scu', hu', rfl⟩
    · obtain ⟨u, scu, hu, rfl⟩ := hi
      obtain ⟨scu', hu'⟩ := hnew hu
      exact ⟨u, scu', hu', rfl⟩
  constructor
  · intro u scu hu
    rw [Array.getElem?_modify]
    unfold View.add at hu
    split at hu
    · next e =>
      cases hu
      rw [e, if_pos rfl, h.content t sct ht]
      rfl
    · next e =>
      have hne : ¬ (ρ t).index = (ρ u).index := fun he => e (h.apart t u sct scu ht hu he).symm
      rw [if_neg hne, h.content u scu hu]
  · intro u w scu scw hu hw
    obtain ⟨scu', hu'⟩ := hold hu
    obtain ⟨scw', hw'⟩ := hold hw
    exact h.apart u w scu' scw' hu' hw'
  · intro i sci p hi hp
    rw [Array.getElem?_modify] at hi
    split at hi
    · next e =>
      obtain ⟨_, -, rfl⟩ := Option.map_eq_some_iff.mp hi
      rw [Scope.rename, hparent] at hp
      exact e ▸ h.ordered _ _ p (h.content t sct ht) hp
    · exact h.ordered i sci p hi hp
  · rintro u w ⟨scu, hu, hw⟩
    unfold View.add at hu
    split at hu
    · cases hu
      obtain ⟨scw, hscw⟩ := hlive w hw
      exact hnew hscw
    · obtain ⟨scw, hscw⟩ := h.closed u w ⟨scu, hu, hw⟩
      exact hnew hscw
  · exact fun i hi => h.unswept i (hnumber.mp hi)
  · intro i hi
    rw [Array.size_modify]
    exact h.swept_lt i hi
  · intro i hi hunswept hnone
    rw [Array.size_modify] at hi
    rw [hnumber] at hnone
    refine h.acc_of_holds (fun j k hjk => ?_) (h.gone i hi hunswept hnone) hnone
    obtain ⟨hj, scj, hscj, u, hu, rfl⟩ := hjk
    rw [Array.getElem?_modify] at hscj
    split at hscj
    · obtain ⟨_, -, rfl⟩ := Option.map_eq_some_iff.mp hscj
      rw [Scope.references_rename] at hu
      obtain ⟨w, hw, rfl⟩ := List.mem_map.mp hu
      obtain ⟨scw, hscw⟩ := hlive w hw
      exact .inr ⟨w, scw, hscw, rfl⟩
    · exact .inl ⟨hj, scj, hscj, u, hu, rfl⟩

theorem bind (h : Mirrors swept ρ f scopes) {t : Ticket} {sct : Scope} (ht : f t = some sct)
    (name : String) {v : Value} (hv : ∀ u ∈ v.scopes, ∃ sc, f u = some sc) :
    Mirrors swept ρ (f.bind t name v) (scopes.modify (ρ t).index fun sc =>
      { sc with bindings := sc.bindings.put name (v.rename ρ) }) := by
  have hview : f.bind t name v = f.add t { sct with bindings := sct.bindings.put name v } := by
    funext u
    unfold View.bind View.add
    rw [ht, Option.map_some]
  have hscopes : (scopes.modify (ρ t).index fun sc =>
        { sc with bindings := sc.bindings.put name (v.rename ρ) }) =
      scopes.modify (ρ t).index fun _ =>
        { sct with bindings := sct.bindings.put name v : Scope }.rename ρ := by
    refine Array.ext_getElem? fun i => ?_
    rw [Array.getElem?_modify, Array.getElem?_modify]
    split
    · next e =>
      rw [← e, h.content t sct ht]
      simp [Scope.rename]
    · rfl
  rw [hview, hscopes]
  refine h.rebind ht rfl fun u hu => ?_
  rcases Scope.mem_references_put hu with hu | hu
  · exact h.closed t u ⟨sct, ht, hu⟩
  · exact hv u hu

end Mirrors

/-- With one ticket more in the map. -/
def extendMap (ρ : Ticket → Ticket) (t : Ticket) (number : Nat) : Ticket → Ticket := fun u =>
  if u = t then ⟨number, 0⟩ else ρ u

theorem extendMap_self (ρ : Ticket → Ticket) (t : Ticket) (number : Nat) :
    extendMap ρ t number t = ⟨number, 0⟩ :=
  if_pos rfl

theorem extendMap_of_ne {ρ : Ticket → Ticket} {t u : Ticket} {number : Nat} (h : u ≠ t) :
    extendMap ρ t number u = ρ u :=
  if_neg h

/-- A new scope gets the next number. Nobody mentioned its ticket before, so nothing else is
renamed. -/
theorem Mirrors.add {swept : Nat → Prop} {ρ : Ticket → Ticket} {f : View} {scopes : Array Scope}
    (h : Mirrors swept ρ f scopes) {t : Ticket} {sc : Scope} (ht : f t = none)
    (hlive : ∀ u ∈ sc.references, ∃ scu, f u = some scu) :
    Mirrors swept (extendMap ρ t scopes.size) (f.add t sc) (scopes.push (sc.rename ρ)) := by
  have hother : ∀ {u scu}, f u = some scu → u ≠ t := by
    rintro u scu hu rfl
    cases ht.symm.trans hu
  have hsame : ∀ {sc' : Scope}, (∀ u ∈ sc'.references, ∃ scu, f u = some scu) →
      sc'.rename (extendMap ρ t scopes.size) = sc'.rename ρ := by
    refine fun hlive' => Scope.rename_congr fun u hu => ?_
    obtain ⟨scu, hscu⟩ := hlive' u hu
    exact extendMap_of_ne (hother hscu)
  have hindex : ∀ {u scu}, f u = some scu →
      (extendMap ρ t scopes.size u).index = (ρ u).index ∧ (ρ u).index < scopes.size :=
    fun hu => ⟨by rw [extendMap_of_ne (hother hu)], h.index_lt hu⟩
  have hkept : ∀ {u scu}, f u = some scu → f.add t sc u = some scu :=
    fun hu => by rw [View.add, if_neg (hother hu), hu]
  have hnumber : ∀ {i}, (f.add t sc).HasNumber (extendMap ρ t scopes.size) i ↔
      i = scopes.size ∨ f.HasNumber ρ i := by
    refine fun {i} => ⟨fun hi => ?_, fun hi => ?_⟩
    · obtain ⟨u, scu, hu, rfl⟩ := hi
      unfold View.add at hu
      split at hu
      · next e => exact .inl (by rw [e, extendMap_self])
      · exact .inr ⟨u, scu, hu, (hindex hu).1.symm⟩
    · rcases hi with rfl | ⟨u, scu, hu, rfl⟩
      · exact ⟨t, sc, if_pos rfl, by rw [extendMap_self]⟩
      · exact ⟨u, scu, hkept hu, (hindex hu).1⟩
  constructor
  · intro u scu hu
    unfold View.add at hu
    split at hu
    · next e =>
      cases hu
      rw [e, extendMap_self, hsame hlive]
      simp
    · obtain ⟨heq, hlt⟩ := hindex hu
      have hne : (ρ u).index ≠ scopes.size := by omega
      rw [heq, hsame fun w hw => h.closed u w ⟨scu, hu, hw⟩, Array.getElem?_push, if_neg hne,
        h.content u scu hu]
  · intro u w scu scw hu hw he
    unfold View.add at hu hw
    split at hu
    · next eu =>
      split at hw
      · next ew => rw [eu, ew]
      · have := hindex hw
        rw [eu, extendMap_self] at he
        simp only at he
        omega
    · split at hw
      · next ew =>
        have := hindex hu
        rw [ew, extendMap_self] at he
        simp only at he
        omega
      · rw [(hindex hu).1, (hindex hw).1] at he
        exact h.apart u w scu scw hu hw he
  · intro i sci p hi hp
    rw [Array.getElem?_push] at hi
    split at hi
    · next e =>
      cases hi
      obtain ⟨q, hq, rfl⟩ := Option.map_eq_some_iff.mp hp
      obtain ⟨scq, hscq⟩ := hlive q (List.mem_append_left _ (by simp [hq]))
      exact e ▸ h.index_lt hscq
    · exact h.ordered i sci p hi hp
  · rintro u w ⟨scu, hu, hw⟩
    have hheld : ∃ scw, f w = some scw := by
      unfold View.add at hu
      split at hu
      · cases hu
        exact hlive w hw
      · exact h.closed u w ⟨scu, hu, hw⟩
    obtain ⟨scw, hscw⟩ := hheld
    exact ⟨scw, hkept hscw⟩
  · intro i hi hswept
    have hlt := h.swept_lt i hswept
    rcases hnumber.mp hi with rfl | hi
    · exact absurd hlt (Nat.lt_irrefl _)
    · exact h.unswept i hi hswept
  · intro i hi
    rw [Array.size_push]
    exact Nat.lt_succ_of_lt (h.swept_lt i hi)
  · intro i hi hunswept hnone
    rw [hnumber, not_or] at hnone
    rw [Array.size_push] at hi
    refine h.acc_of_holds (fun j k hjk => ?_)
      (h.gone i (Nat.lt_of_le_of_ne (Nat.le_of_lt_succ hi) hnone.1) hunswept hnone.2) hnone.2
    obtain ⟨hj, scj, hscj, u, hu, rfl⟩ := hjk
    rw [Array.getElem?_push] at hscj
    split at hscj
    · cases hscj
      rw [Scope.references_rename] at hu
      obtain ⟨w, hw, rfl⟩ := List.mem_map.mp hu
      obtain ⟨scw, hscw⟩ := hlive w hw
      exact .inr ⟨w, scw, hscw, rfl⟩
    · exact .inl ⟨hj, scj, hscj, u, hu, rfl⟩

/-! ## Machines -/

/-- The ideal machine that a map of tickets makes of a real one, given the scopes. -/
def Machine.image (ρ : Ticket → Ticket) (m : Machine) (scopes : Array Scope) : Ideal :=
  ⟨m.context.rename ρ, m.memory.functions.rename ρ, scopes, m.built⟩

/-- The counts of a machine are exact, some map of tickets makes it the ideal machine `r`, and the
scopes with these numbers have been swept. -/
structure Machine.FollowsSince (swept : Nat → Prop) (m : Machine) (r : Ideal) : Prop where
  exact : m.memory.store.Exact m.roots
  mirrored : ∃ ρ scopes, Mirrors swept ρ m.memory.store.scope? scopes ∧ r = m.image ρ scopes

/-- A machine follows an ideal one, whatever collections have swept. -/
def Machine.Follows (m : Machine) (r : Ideal) : Prop :=
  ∃ swept, m.FollowsSince swept r

theorem Machine.Follows.exact {m : Machine} {r : Ideal} (h : m.Follows r) :
    m.memory.store.Exact m.roots := by
  obtain ⟨_, h⟩ := h
  exact h.exact

theorem Machine.follows_of {swept : Nat → Prop} {ρ : Ticket → Ticket} {m : Machine}
    {scopes : Array Scope} (hx : m.memory.store.Exact m.roots)
    (hm : Mirrors swept ρ m.memory.store.scope? scopes) : m.FollowsSince swept (m.image ρ scopes) :=
  ⟨hx, ρ, scopes, hm, rfl⟩

theorem mirrors_start :
    Mirrors (fun _ => False) id (Store.empty.alloc ⟨1, [], none⟩).2.scope? #[⟨[], none⟩] := by
  have hview : ∀ t sc, (Store.empty.alloc ⟨1, [], none⟩).2.scope? t = some sc → t = ⟨0, 0⟩ ∧
    sc = ⟨[], none⟩ := by
    intro t sc ht
    rw [Store.scope?_alloc Store.wellFormed_empty] at ht
    unfold View.add at ht
    split at ht
    · next e =>
      cases ht
      exact ⟨e, rfl⟩
    · simp [Store.scope?, Store.record?, Store.empty] at ht
  constructor
  · intro t sc ht
    obtain ⟨rfl, rfl⟩ := hview t sc ht
    rfl
  · intro t u sct scu ht hu _
    rw [(hview t sct ht).1, (hview u scu hu).1]
  · intro i sc p hi hp
    obtain ⟨hlt, rfl⟩ := Array.getElem?_eq_some_iff.mp hi
    have hzero : i = 0 := by simpa using hlt
    subst hzero
    cases hp
  · exact (Store.allocIn_exact none Store.exact_empty).closed
  · exact fun _ _ => id
  · exact fun _ => False.elim
  · intro i hi _ hnone
    have hzero : i = 0 := by simpa using hi
    refine absurd ⟨⟨0, 0⟩, ⟨[], none⟩, ?_, hzero.symm⟩ hnone
    rw [Store.scope?_alloc Store.wellFormed_empty]
    rfl

/-- A new machine has one scope, under the same name in both. -/
theorem Machine.start_followsSince (code : Code) :
    (Machine.start code).FollowsSince (fun _ => False) (Ideal.start code) :=
  ⟨Store.allocIn_exact none Store.exact_empty, id, #[⟨[], none⟩], mirrors_start, rfl⟩

theorem Machine.start_follows (code : Code) : (Machine.start code).Follows (Ideal.start code) :=
  ⟨_, start_followsSince code⟩

end LiveLisp
