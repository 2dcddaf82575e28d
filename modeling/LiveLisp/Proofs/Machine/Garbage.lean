/-
  Garbage without a cycle is freed at once. A scope that nothing outside the store leads to is still
  there only because of a ring of such scopes that hold each other, so a machine without such a ring
  has exactly the scopes that it can reach, without any collection (`garbage_circular`).

  Behind it are two facts about every reached machine: a record that is there has a count
  (`Reached.arena`), and the count is that of those who hold it (`Sound.exact`). So garbage is
  always referred to, and by garbage only; and who goes from referrer to referrer among finitely
  many scopes comes round in the end.
-/
import Mathlib.Data.Set.Finite.List
import Mathlib.Order.WellFounded
import Mathlib.Logic.Relation
import LiveLisp.Proofs.Machine.Frames
import LiveLisp.Proofs.Machine.StoreUse
import LiveLisp.Proofs.Machine.TornDown

namespace LiveLisp

open Relation

/-- Who can always go back within a finite set comes to a cycle. -/
theorem exists_cycle_before {α : Type} {R : α → α → Prop} {S : Set α} (hfinite : S.Finite)
    (hback : ∀ a ∈ S, ∃ b ∈ S, R b a) {a : α} (ha : a ∈ S) : ∃ b, TransGen R b b ∧
    ReflTransGen R b a := by
  by_contra hnone
  push Not at hnone
  -- those from which one comes to `a`: none is on a cycle, so one of them has no other before it
  let before : α → Prop := fun b => b ∈ S ∧ ReflTransGen R b a
  have hfin : Finite { b // before b } := hfinite.subset fun _ hb => hb.1
  let leads (b c : { b // before b }) : Prop := TransGen R b.1 c.1
  have htrans : IsTrans _ leads := ⟨fun _ _ _ => TransGen.trans⟩
  have hirrefl : Std.Irrefl leads := ⟨fun b hb => hnone b.1 hb b.2.2⟩
  have hwf : WellFounded leads := Finite.wellFounded_of_trans_of_irrefl leads
  obtain ⟨⟨first, hfirst, hfrom⟩, -, hleast⟩ := hwf.has_min Set.univ ⟨⟨a, ha, .refl⟩, trivial⟩
  obtain ⟨b, hb, hstep⟩ := hback first hfirst
  exact hleast ⟨b, hb, .head hstep hfrom⟩ trivial (.single hstep)

namespace Store

/-- One scope holds another: its record names it as its parent, or binds a closure that was made in
it. -/
def Refers (s : Store) (t u : Ticket) : Prop :=
  ∃ r, s.record? t = some r ∧ u ∈ r.references

/-- A scope that is there and that the roots do not reach. -/
structure Garbage (s : Store) (roots : List Ticket) (t : Ticket) : Prop where
  live : s.contains t
  unreached : ¬ s.Reaches roots t

/-- One piece of garbage holds another. -/
def RefersInGarbage (s : Store) (roots : List Ticket) (t u : Ticket) : Prop :=
  s.Garbage roots t ∧ s.Garbage roots u ∧ s.Refers t u

variable {s : Store} {roots : List Ticket} {t u : Ticket}

/-- What holds garbage is garbage. -/
theorem Garbage.of_refers (h : s.Garbage roots u) (hrefers : s.Refers t u) : s.Garbage roots t := by
  obtain ⟨r, hr, hu⟩ := hrefers
  exact ⟨contains_of_record? hr, fun ht => h.unreached (.onward ht hr hu)⟩

/-- It is not held as a root, so a record must hold it. -/
theorem Garbage.exists_refers (h : s.Garbage roots t) (hs : s.Arena)
    (hexact : s.Exact roots) : ∃ u, s.Refers u t := by
  rcases hs.held_or_referred hexact h.live with hroot | ⟨u, sc, hsc, ht⟩
  · exact absurd (.root hroot) h.unreached
  · obtain ⟨r, hr, rfl⟩ := scope?_eq_some hsc
    exact ⟨u, r, hr, ht⟩

/-- Roots that are all one scope, which holds no other, reach nothing else. -/
theorem Reaches.eq_of_alone (hroots : ∀ a ∈ roots, a = t)
    (halone : ∀ r, s.record? t = some r → r.references = []) (h : s.Reaches roots u) : u = t := by
  induction h with
  | root hu => exact hroots _ hu
  | onward _ hr hu ih =>
    subst ih
    rw [halone _ hr] at hu
    cases hu

theorem finite_garbage (s : Store) (roots : List Ticket) : { t | s.Garbage roots t }.Finite :=
  s.tickets.finite_toSet.subset fun _ ht => mem_tickets_iff.mpr ht.live

/-- On exact counts every piece of garbage hangs on a cycle of garbage. -/
theorem Garbage.circular (h : s.Garbage roots t) (hs : s.Arena) (hexact : s.Exact roots) :
    ∃ u, TransGen (s.RefersInGarbage roots) u u ∧ ReflTransGen (s.RefersInGarbage roots) u t := by
  refine exists_cycle_before (s.finite_garbage roots) (fun a ha => ?_) h
  obtain ⟨b, hb⟩ := Garbage.exists_refers ha hs hexact
  exact ⟨b, ha.of_refers hb, ha.of_refers hb, ha, hb⟩

end Store

namespace Machine

/-- Whatever a reached machine keeps without reaching it hangs on a cycle of such scopes. So if
there is no such cycle, the machine keeps exactly what it reaches from its stacks and its functions.
-/
theorem garbage_circular {m : Machine} (h : m.Reached) :
    (∀ t, m.memory.store.contains t → ¬ m.memory.store.Reaches m.roots t →
      ∃ u, TransGen (m.memory.store.RefersInGarbage m.roots) u u ∧
        ReflTransGen m.memory.store.Refers u t) ∧
    ((∀ u, ¬ TransGen (m.memory.store.RefersInGarbage m.roots) u u) →
      ∀ t, m.memory.store.contains t ↔ m.memory.store.Reaches m.roots t) := by
  have hexact := h.sound.exact
  have hcircular (t : Ticket) (ht : m.memory.store.Garbage m.roots t) := ht.circular h.arena hexact
  refine ⟨fun t hlive hunreached => ?_, fun hnone t => ⟨fun hlive => ?_, fun hreached => ?_⟩⟩
  · obtain ⟨u, hcycle, hpath⟩ := hcircular t ⟨hlive, hunreached⟩
    exact ⟨u, hcycle, ReflTransGen.mono (fun _ _ hstep => hstep.2.2) _ _ hpath⟩
  · by_contra hunreached
    obtain ⟨u, hcycle, -⟩ := hcircular t ⟨hlive, hunreached⟩
    exact hnone u hcycle
  · exact hreached.contains hexact.refs_live hexact.held_live

theorem reached_after {σ : Type} {host : Host σ} {code : Code} (hcode : code.Compiled)
    (hhonest : ∀ w, host.HonestIn w) (w : σ) (n : Nat) :
    (Exec.after host n ⟨start code, w⟩).machine.Reached :=
  after_keeps (E := fun _ => True) hhonest (fun _ h => h.sound)
    (fun _ _ w _ h _ hstep => h.step (hhonest w) hstep)
    (.start hcode) w (fun _ => trivial) n

/-- A function bound in the scope of a call, of which nothing else is left: once the value of the
call has been dropped, the scope is garbage that holds itself. -/
theorem garbage_circular_selfBound : ∃ m : Machine, m.Reached ∧
    m.memory.store.Garbage m.roots ⟨1, 0⟩ ∧
    m.memory.store.Refers ⟨1, 0⟩ ⟨1, 0⟩ ∧
    (∀ t, m.memory.store.contains t → ¬ m.memory.store.Reaches m.roots t →
      ∃ u, TransGen (m.memory.store.RefersInGarbage m.roots) u u ∧
        ReflTransGen m.memory.store.Refers u t) ∧
    ((∀ u, ¬ TransGen (m.memory.store.RefersInGarbage m.roots) u u) →
      ∀ t, m.memory.store.contains t ↔ m.memory.store.Reaches m.roots t) := by
  have hrun : yields (fun root => yields (fun code =>
        let m := (Exec.after speaking 10 ⟨start code, {}⟩).machine
        m.roots.all (decide <| · = ⟨0, 0⟩) && (m.memory.store.record? ⟨0, 0⟩).all
          (·.references.isEmpty) &&
        (m.memory.store.record? ⟨1, 0⟩).any (decide <| ⟨1, 0⟩ ∈ ·.references))
      (Code.ofProgram 0 root)) (Node.ofProgram "((lambda () (define f (lambda () f)))) 1") =
        true := by decide +kernel
  obtain ⟨root, hroot, hrun⟩ := yields_iff.mp hrun
  obtain ⟨code, hcode, hrun⟩ := yields_iff.mp hrun
  simp only [Bool.and_eq_true, List.all_eq_true, Option.all_eq_true,
    Option.any_eq_true, decide_eq_true_eq, List.isEmpty_iff] at hrun
  obtain ⟨⟨hroots, halone⟩, r, hr, hself⟩ := hrun
  have hparametric : ∀ c ∈ [Capability.builtins, Capability.console], c.Parametric :=
    List.forall_mem_cons.mpr ⟨Capability.builtins_parametric,
      List.forall_mem_singleton.mpr Capability.console_parametric⟩
  have hhonest : ∀ w, speaking.HonestIn w := Host.direct_honestIn_of_parametric hparametric
  have hreached := reached_after (.program hcode) hhonest {} 10
  have hunreached :=
    fun h => (Store.Reaches.eq_of_alone hroots halone h : (⟨1, 0⟩ : Ticket) = ⟨0, 0⟩)
  exact ⟨_, hreached, ⟨Store.contains_of_record? hr, fun h => nomatch hunreached h⟩, ⟨r, hr, hself⟩,
    garbage_circular hreached⟩

end Machine

end LiveLisp
