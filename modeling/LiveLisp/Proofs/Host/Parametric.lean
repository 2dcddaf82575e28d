/-
  Capabilities that do not look into functions. A closure can be handed on, told from others and
  shown, but what it does and where it was built is the program's own affair: related closures in
  the arguments lead to answers that are related in the same way, and to the same world, whatever
  the relation is (`Parametric`). This is more than blindness to tickets (`Parametric.blind`), and
  the standard capabilities have it.
-/
import Mathlib.Data.List.Forall2
import LiveLisp.Proofs.Host.Repeatable

namespace LiveLisp

variable {σ : Type}

/-- Related closures have the same number and the same parameters. -/
def Closure.Lookalikes (R : Closure → Closure → Prop) : Prop :=
  ∀ c c', R c c' → c.id = c'.id ∧ c.params = c'.params

namespace Value

variable {R : Closure → Closure → Prop} {v v' : Value} {values values' : List Value}

/-- Neither a closure nor a list. -/
def isAtom : Value → Bool
  | closure .. => false
  | list _ => false
  | _ => true

mutual
/-- The same value but for its closures, and those are related. -/
def Related (R : Closure → Closure → Prop) : Value → Value → Prop
  | closure id names body scope, closure id' names' body' scope' =>
    R ⟨id, names, body, scope⟩ ⟨id', names', body', scope'⟩
  | list items, list items' => AllRelated R items items'
  | v, v' => v = v' ∧ v.isAtom = true
def AllRelated (R : Closure → Closure → Prop) : List Value → List Value → Prop
  | [], [] => True
  | item :: items, item' :: items' => Related R item item' ∧ AllRelated R items items'
  | _, _ => False
end

theorem allRelated_iff : AllRelated R values values' ↔ List.Forall₂ (Related R) values values' := by
  induction values generalizing values' with
  | nil =>
    cases values' with
    | nil => simp [AllRelated]
    | cons => simp [AllRelated]
  | cons item items ih =>
    cases values' with
    | nil => simp [AllRelated]
    | cons item' items' => rw [AllRelated, List.forall₂_cons, ih]

theorem related_atom (h : v.isAtom = true) : Related R v v' ↔ v = v' := by
  cases v with
  | closure => cases h
  | list => cases h
  | _ => simp [Related, h]

/-- Values are related in one of three ways. -/
theorem Related.cases (h : Related R v v') :
    (∃ id names body scope id' names' body' scope', v = closure id names body scope ∧
      v' = closure id' names' body' scope' ∧
        R ⟨id, names, body, scope⟩ ⟨id', names', body', scope'⟩) ∨
    (∃ items items', v = list items ∧ v' = list items' ∧ List.Forall₂ (Related R) items items') ∨
    (v = v' ∧ v.isAtom = true) := by
  cases v with
  | closure id names body scope =>
    cases v' with
    | closure id' names' body' scope' =>
      exact .inl ⟨_, _, _, _, _, _, _, _, rfl, rfl, by rwa [Related] at h⟩
    | _ => simp [Related] at h
  | list items =>
    cases v' with
    | list items' =>
      exact .inr (.inl ⟨items, items', rfl, rfl, allRelated_iff.mp (by rwa [Related] at h)⟩)
    | _ => simp [Related] at h
  | _ => exact .inr (.inr ⟨(related_atom rfl).mp h, rfl⟩)

theorem related_list (h : List.Forall₂ (Related R) values values') : Related R (list values)
    (list values') := by
  rw [Related]
  exact allRelated_iff.mpr h

/-- What has to be shown of related values, kind by kind. -/
structure Cases (R : Closure → Closure → Prop) (motive : Value → Value → Prop) : Prop where
  closure : ∀ {id names body scope id' names' body' scope'},
    R ⟨id, names, body, scope⟩ ⟨id', names', body', scope'⟩ →
    motive (closure id names body scope) (closure id' names' body' scope')
  list : ∀ {items items'}, List.Forall₂ (Related R) items items' →
    List.Forall₂ motive items items' →
    motive (list items) (list items')
  atom : ∀ {v}, v.isAtom = true → motive v v

mutual
/-- Induction on related values. -/
theorem Cases.related {motive : Value → Value → Prop} (h : Cases R motive) (v v' : Value)
    (hv : Related R v v') :
    motive v v' := by
  cases v with
  | closure id names body scope =>
    cases v' with
    | closure id' names' body' scope' =>
      rw [Related] at hv
      exact h.closure hv
    | _ => simp [Related] at hv
  | list items =>
    cases v' with
    | list items' =>
      rw [Related] at hv
      exact h.list (allRelated_iff.mp hv) (Cases.allRelated h items items' hv)
    | _ => simp [Related] at hv
  | _ =>
    cases (related_atom rfl).mp hv
    exact h.atom rfl
theorem Cases.allRelated {motive : Value → Value → Prop} (h : Cases R motive)
    (items items' : List Value) (hitems : AllRelated R items items') :
    List.Forall₂ motive items items' := by
  cases items with
  | nil =>
    cases items' with
    | nil => exact .nil
    | cons => simp [AllRelated] at hitems
  | cons item items =>
    cases items' with
    | nil => simp [AllRelated] at hitems
    | cons item' items' =>
      rw [AllRelated] at hitems
      exact .cons (Cases.related h item item' hitems.1) (Cases.allRelated h items items' hitems.2)
end

mutual
theorem related_rename (ρ : Ticket → Ticket) (v : Value) (h : ∀ c ∈ v.closures, R c (c.rename ρ)) :
    Related R v (v.rename ρ) := by
  cases v with
  | closure id names body scope =>
    rw [rename, Related]
    exact h ⟨id, names, body, scope⟩ (List.mem_singleton_self _)
  | list items =>
    rw [rename, Related]
    exact allRelated_renameAll ρ items h
  | _ => exact (related_atom rfl).mpr rfl
theorem allRelated_renameAll (ρ : Ticket → Ticket) (items : List Value)
    (h : ∀ c ∈ allClosures items, R c (c.rename ρ)) : AllRelated R items (renameAll ρ items) := by
  cases items with
  | nil => trivial
  | cons item items =>
    rw [allClosures] at h
    rw [renameAll, AllRelated]
    exact ⟨related_rename ρ item fun c hc => h c (List.mem_append_left _ hc),
      allRelated_renameAll ρ items fun c hc => h c (List.mem_append_right _ hc)⟩
end

theorem related_self (h : v.closures = []) : Related R v v := by
  have hself := related_rename (R := R) id v (by simp [h])
  rwa [rename_of_closures_nil id v h] at hself

/-! ## What shows of related values -/

theorem Related.isTruthy (h : Related R v v') : v.isTruthy = v'.isTruthy := by
  rcases h.cases with ⟨_, _, _, _, _, _, _, _, rfl, rfl, -⟩ | ⟨_, _, rfl, rfl, -⟩ | ⟨rfl, -⟩ <;> rfl

/-- Values that show the same, by themselves and inside others. -/
def ShownAlike (v v' : Value) : Prop :=
  v.render = v'.render ∧ v.inspect = v'.inspect

theorem inspectAll_of_shownAlike (h : List.Forall₂ ShownAlike values values') :
    inspectAll values = inspectAll values' := by
  induction h with
  | nil => rfl
  | cons hitem _ ih => rw [inspectAll, inspectAll, hitem.2, ih]

theorem Related.shownAlike (hR : Closure.Lookalikes R) (h : Related R v v') : ShownAlike v v' := by
  have hcases : Cases R ShownAlike := by
    constructor
    · intro id names body scope id' names' body' scope' hc
      obtain rfl : names = names' := (hR _ _ hc).2
      simp only [ShownAlike, inspect, render, and_self]
    · intro items items' _ hitems
      simp only [ShownAlike, inspect, render, inspectAll_of_shownAlike hitems, and_self]
    · exact fun _ => ⟨rfl, rfl⟩
  exact hcases.related v v' h

theorem map_render_eq (hR : Closure.Lookalikes R) (h : List.Forall₂ (Related R) values values') :
    values.map render = values'.map render := by
  induction h with
  | nil => rfl
  | cons hitem _ ih => rw [List.map_cons, List.map_cons, (hitem.shownAlike hR).1, ih]

/-- Values that are told from related ones alike. -/
def ToldAlike (R : Closure → Closure → Prop) (v v' : Value) : Prop :=
  ∀ w w', Related R w w' → v.equals w = v'.equals w'

theorem allEqual_of_toldAlike (h : List.Forall₂ (ToldAlike R) values values')
    {others others' : List Value} (hothers : List.Forall₂ (Related R) others others') :
    allEqual values others = allEqual values' others' := by
  induction h generalizing others others' with
  | nil => cases hothers <;> rfl
  | cons hitem _ ih =>
    cases hothers with
    | nil => rfl
    | cons hother hothers => rw [allEqual, allEqual, hitem _ _ hother, ih hothers]

theorem Related.toldAlike (hR : Closure.Lookalikes R) (h : Related R v v') : ToldAlike R v v' := by
  have hcases : Cases R (ToldAlike R) := by
    constructor
    · intro id names body scope id' names' body' scope' hc w w' hw
      obtain rfl : id = id' := (hR _ _ hc).1
      rcases hw.cases with ⟨other, _, _, _, other', _, _, _, rfl, rfl, hw⟩ | ⟨_, _, rfl,
        rfl, -⟩ | ⟨rfl, -⟩
      · obtain rfl : other = other' := (hR _ _ hw).1
        rfl
      · rfl
      · cases w <;> rfl
    · intro items items' _ hitems w w' hw
      rcases hw.cases with ⟨_, _, _, _, _, _, _, _, rfl, rfl, -⟩ | ⟨others, others', rfl, rfl,
        hothers⟩ | ⟨rfl, hatom⟩
      · rfl
      · exact allEqual_of_toldAlike hitems hothers
      · cases w with
        | list => cases hatom
        | _ => rfl
    · intro v hv w w' hw
      rcases hw.cases with ⟨_, _, _, _, _, _, _, _, rfl, rfl, -⟩ | ⟨_, _, rfl, rfl, -⟩ | ⟨rfl, -⟩
      · cases v with
        | closure => cases hv
        | _ => rfl
      · cases v with
        | list => cases hv
        | _ => rfl
      · rfl
  exact hcases.related v v' h

/-- Renaming tickets is one way of relating closures. -/
theorem eq_rename_of_related {ρ : Ticket → Ticket}
    (h : Related (fun c c' => c' = c.rename ρ) v v') : v' = v.rename ρ := by
  have hcases : Cases (fun c c' => c' = Closure.rename ρ c) fun v v' => v' = v.rename ρ := by
    constructor
    · intro id names body scope id' names' body' scope' hc
      cases hc
      rfl
    · rintro items items' - hitems
      rw [rename, renameAll_eq_map]
      congr 1
      induction hitems with
      | nil => rfl
      | cons hitem _ ih => rw [List.map_cons, hitem, ih]
    · intro v hv
      cases v with
      | closure => cases hv
      | list => cases hv
      | _ => rfl
  exact hcases.related v v' h

end Value

/-! ## Parametric capabilities -/

/-- Answers with related closures, or the same refusal. -/
def RelatedReplies (R : Closure → Closure → Prop) : Except HostProblem Value →
    Except HostProblem Value → Prop
  | .ok v, .ok v' => Value.Related R v v'
  | .error problem, .error problem' => problem = problem'
  | _, _ => False

/-- Closures in the arguments are at most handed on: related ones lead to related answers and to the
same world. -/
def Capability.Parametric (c : Capability σ) : Prop :=
  ∀ R, Closure.Lookalikes R → ∀ method args args' w, List.Forall₂ (Value.Related R) args args' →
    RelatedReplies R (c.invoke method args w).1 (c.invoke method args' w).1 ∧
      (c.invoke method args w).2 = (c.invoke method args' w).2

/-- Who does not look into closures does not see the tickets in them. -/
theorem Capability.Parametric.blind {c : Capability σ} (h : c.Parametric) : c.Blind := by
  intro ρ method args w
  have hR : Closure.Lookalikes fun c c' => c' = c.rename ρ := by
    rintro c _ rfl
    exact ⟨rfl, rfl⟩
  have hargs : List.Forall₂ (Value.Related fun c c' => c' = c.rename ρ) args
    (args.map (Value.rename ρ)) := by
    rw [List.forall₂_map_right_iff, List.forall₂_same]
    exact fun v _ => Value.related_rename ρ v fun _ _ => rfl
  obtain ⟨hreply, hworld⟩ := h _ hR method args _ w hargs
  refine Prod.ext ?_ hworld.symm
  cases hanswer : (c.invoke method args w).1 with
  | ok v =>
    rw [hanswer] at hreply
    cases hanswer' : (c.invoke method (args.map (Value.rename ρ)) w).1 with
    | ok v' =>
      rw [hanswer'] at hreply
      exact congrArg Except.ok (Value.eq_rename_of_related hreply)
    | error problem =>
      rw [hanswer'] at hreply
      exact hreply.elim
  | error problem =>
    rw [hanswer] at hreply
    cases hanswer' : (c.invoke method (args.map (Value.rename ρ)) w).1 with
    | ok v' =>
      rw [hanswer'] at hreply
      exact hreply.elim
    | error problem' =>
      rw [hanswer'] at hreply
      exact congrArg Except.error hreply.symm

theorem relatedReplies_self {R : Closure → Closure → Prop} {reply : Except HostProblem Value}
    (h : ∀ v, reply = .ok v → v.closures = []) : RelatedReplies R reply reply := by
  cases reply with
  | ok v => exact Value.related_self (h v rfl)
  | error problem => rfl

/-! ## The standard capabilities -/

namespace Builtin

variable {R : Closure → Closure → Prop} {args args' : List Value}

theorem numbers_related (h : List.Forall₂ (Value.Related R) args args') (position : Nat) :
    numbers position args = numbers position args' := by
  induction h generalizing position with
  | nil => rfl
  | @cons v _ _ _ harg _ ih =>
    rcases harg.cases with ⟨_, _, _, _, _, _, _, _, rfl, rfl, -⟩ | ⟨_, _, rfl, rfl, -⟩ | ⟨rfl, -⟩
    · rfl
    · rfl
    · cases v with
      | number x => simp only [numbers, ih]
      | _ => rfl

section Shown

variable (hR : Closure.Lookalikes R)

include hR

theorem concat_related (h : List.Forall₂ (Value.Related R) args args') :
    concat args = concat args' := by
  rw [concat, concat, Value.map_render_eq hR h]

theorem chainEqual_related (h : List.Forall₂ (Value.Related R) args args') :
    chainEqual args = chainEqual args' := by
  induction h with
  | nil => rfl
  | cons harg hrest ih =>
    cases hrest with
    | nil => rfl
    | cons hnext hrest => rw [chainEqual, chainEqual, harg.toldAlike hR _ _ hnext, ih]

end Shown

theorem any_isText_related (h : List.Forall₂ (Value.Related R) args args') :
    args.any isText = args'.any isText := by
  induction h with
  | nil => rfl
  | cons harg _ ih =>
    rw [List.any_cons, List.any_cons, ih]
    rcases harg.cases with ⟨_, _, _, _, _, _, _, _, rfl, rfl, -⟩ | ⟨_, _, rfl,
      rfl, -⟩ | ⟨rfl, -⟩ <;> rfl

theorem order_related {a a' b b' : Value} (ha : Value.Related R a a') (hb : Value.Related R b b') :
    order a b = order a' b' := by
  rcases ha.cases with ⟨_, _, _, _, _, _, _, _, rfl, rfl, -⟩ | ⟨_, _, rfl, rfl, -⟩ | ⟨rfl, -⟩ <;>
    rcases hb.cases with ⟨_, _, _, _, _, _, _, _, rfl, rfl, -⟩ | ⟨_, _, rfl, rfl, -⟩ | ⟨rfl, -⟩ <;>
    first | rfl | (cases a <;> rfl)

theorem chainOrdered_related (accept : Ordering → Bool)
    (h : List.Forall₂ (Value.Related R) args args') :
    chainOrdered accept args = chainOrdered accept args' := by
  induction h with
  | nil => rfl
  | cons harg hrest ih =>
    cases hrest with
    | nil => rfl
    | cons hnext hrest => rw [chainOrdered, chainOrdered, order_related harg hnext, ih]

theorem compareWith_related (accept : Ordering → Bool)
    (h : List.Forall₂ (Value.Related R) args args') :
    compareWith accept args = compareWith accept args' := by
  rw [compareWith, compareWith, h.length_eq, chainOrdered_related accept h]

theorem theList_related (h : List.Forall₂ (Value.Related R) args args') :
    (∃ problem, theList args = .error problem ∧ theList args' = .error problem) ∨
    ∃ items items', theList args = .ok items ∧ theList args' = .ok items' ∧
      List.Forall₂ (Value.Related R) items items' := by
  cases h with
  | nil => exact .inl ⟨_, rfl, rfl⟩
  | @cons v _ _ _ harg hrest =>
    cases hrest with
    | nil =>
      rcases harg.cases with ⟨_, _, _, _, _, _, _, _, rfl, rfl, -⟩ | ⟨items, items', rfl, rfl,
        hitems⟩ | ⟨rfl, hatom⟩
      · exact .inl ⟨_, rfl, rfl⟩
      · exact .inr ⟨items, items', rfl, rfl, hitems⟩
      · cases v with
        | list items => cases hatom
        | _ => exact .inl ⟨_, rfl, rfl⟩
    | @cons _ _ rest _ _ hrest =>
      exact .inl ⟨.wrongCount 1 (rest.length + 2), by simp [theList], by
        simp [theList, hrest.length_eq]⟩

theorem sizeOf_related (h : List.Forall₂ (Value.Related R) args args') :
    sizeOf args = sizeOf args' := by
  match h with
  | .nil => rfl
  | .cons harg .nil =>
    rcases harg.cases with ⟨_, _, _, _, _, _, _, _, rfl, rfl, -⟩ | ⟨items, items', rfl, rfl,
      hitems⟩ | ⟨rfl, -⟩
    · rfl
    · simp only [sizeOf, hitems.length_eq]
    · rfl
  | .cons _ (.cons _ _) => simp [sizeOf]

theorem invoke_related_of_computed (hR : Closure.Lookalikes R) {method : String}
    (hmethod : method ∉ handing) (h : List.Forall₂ (Value.Related R) args args') :
    invoke method args = invoke method args' := by
  unfold invoke
  split
  · rw [any_isText_related h, concat_related hR h, numbers_related h]
  · rw [numbers_related h]
  · rw [numbers_related h]
  · rw [numbers_related h]
  · rw [numbers_related h, h.length_eq]
  · rw [chainEqual_related hR h]
  · match h with
    | .nil => rfl
    | .cons _ .nil => rfl
    | .cons ha (.cons hb .nil) => simp only [ha.toldAlike hR _ _ hb]
    | .cons _ (.cons _ (.cons _ hrest)) => simp [hrest.length_eq]
  · exact compareWith_related _ h
  · exact compareWith_related _ h
  · exact compareWith_related _ h
  · exact compareWith_related _ h
  · match h with
    | .nil => rfl
    | .cons ha .nil => simp only [ha.isTruthy]
    | .cons _ (.cons _ hrest) => simp [hrest.length_eq]
  · exact absurd (by decide) hmethod
  · exact absurd (by decide) hmethod
  · exact absurd (by decide) hmethod
  · rw [sizeOf_related h]
  · rw [sizeOf_related h]
  · rw [concat_related hR h]
  · rfl

theorem invoke_related (hR : Closure.Lookalikes R) (method : String)
    (h : List.Forall₂ (Value.Related R) args args') : RelatedReplies R (invoke method args)
    (invoke method args') := by
  by_cases hmethod : method ∈ handing
  · simp only [handing, List.mem_cons, List.not_mem_nil, or_false] at hmethod
    have hlist := theList_related h
    rcases hmethod with rfl | rfl | rfl
    · exact Value.related_list h
    · simp only [invoke]
      rcases hlist with ⟨problem, hargs, hargs'⟩ | ⟨items, items', hargs, hargs', hitems⟩
      · rw [hargs, hargs']
        rfl
      · rw [hargs, hargs']
        cases hitems with
        | nil => exact Value.related_self rfl
        | cons hitem _ => exact hitem
    · simp only [invoke]
      rcases hlist with ⟨problem, hargs, hargs'⟩ | ⟨items, items', hargs, hargs', hitems⟩
      · rw [hargs, hargs']
        rfl
      · rw [hargs, hargs']
        exact Value.related_list (List.forall₂_drop 1 hitems)
  · rw [invoke_related_of_computed hR hmethod h]
    exact relatedReplies_self fun v hv => v.closures_of_isPlain (isPlain_of_computed hmethod hv)

end Builtin

namespace Capability

theorem builtins_parametric : (builtins (σ := σ)).Parametric :=
  fun _ hR method _ _ _ hargs => ⟨Builtin.invoke_related hR method hargs, rfl⟩

theorem console_parametric : console.Parametric := by
  intro R hR method args args' w hargs
  have hprinted : printed method args = printed method args' := by
    unfold printed
    rw [Value.map_render_eq hR hargs]
  simp only [console, hprinted, and_true]
  cases printed method args' with
  | ok line => exact Value.related_self rfl
  | error problem => rfl

theorem frame_parametric (signal : Signal σ) : (frame signal).Parametric := by
  intro R hR method args args' w _
  simp only [frame, and_true]
  split
  · rfl
  · exact Value.related_self rfl

end Capability

end LiveLisp
