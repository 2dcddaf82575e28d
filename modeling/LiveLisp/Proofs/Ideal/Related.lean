/-
  Machines that differ in the code of their closures. Whatever the relation between closures is,
  scopes that are related stay related when names are looked up, bound and made, and an instruction
  that neither calls nor makes a function does the same on both sides (`execute_related`): it fails
  alike, or leaves related values and scopes and goes to the same place.

  This is the part of a simulation that does not depend on what the two machines run.
-/
import LiveLisp.Proofs.Code.Twins
import LiveLisp.Proofs.Host.Parametric
import LiveLisp.Proofs.Tree.Alike

namespace LiveLisp

variable {R : Closure → Closure → Prop}

namespace Value

mutual
theorem rename_id (v : Value) : v.rename id = v := by
  cases v with
  | closure id names body scope => simp only [rename, Option.map_id_fun, id_eq]
  | list items => rw [rename, renameAll_id items]
  | _ => rfl
theorem renameAll_id (items : List Value) : renameAll id items = items := by
  cases items with
  | nil => rfl
  | cons item items => rw [renameAll, rename_id item, renameAll_id items]
end

/-- A value is related to itself if its closures are. -/
theorem related_same {v : Value} (h : ∀ c ∈ v.closures, R c c) : Related R v v := by
  have hself : Related R v (v.rename id) := by
    refine related_rename id v fun c hc => ?_
    have hid : c.rename id = c := by simp [Closure.rename]
    rw [hid]
    exact h c hc
  rwa [rename_id] at hself

/-- Every closure in related values has one that it is related to. -/
theorem Related.closures {v v' : Value} (h : Related R v v') : ∀ c ∈ v.closures, ∃ c', R c c' := by
  have hcases : Cases R fun v _ => ∀ c ∈ v.closures, ∃ c', R c c' := by
    constructor
    · intro id names body scope id' names' body' scope' hc c hmem
      cases List.mem_singleton.mp hmem
      exact ⟨_, hc⟩
    · intro items items' _ hitems
      rw [Value.closures, allClosures_eq_flatMap]
      intro c hc
      obtain ⟨item, hitem, hc⟩ := List.mem_flatMap.mp hc
      obtain ⟨n, hn, rfl⟩ := List.mem_iff_getElem.mp hitem
      exact (List.forall₂_iff_get.mp hitems).2 n hn (hitems.length_eq ▸ hn) c hc
    · intro v hatom
      cases v with
      | closure => cases hatom
      | list => cases hatom
      | _ => exact fun c hc => by cases hc
  exact hcases.related v v' h

end Value

/-! ## Scopes -/

/-- Related values under the same names, inside the same scope. -/
structure Scope.Related (R : Closure → Closure → Prop) (sc sc' : Scope) : Prop where
  bindings : sc.bindings.Alike (Value.Related R) sc'.bindings
  parent : sc.parent = sc'.parent

/-- Scopes that correspond, under the same numbers. -/
structure ScopesBy (S : Scope → Scope → Prop) (scopes scopes' : Array Scope) : Prop where
  size : scopes.size = scopes'.size
  same : ∀ (n : Nat) sc sc', scopes[n]? = some sc → scopes'[n]? = some sc' → S sc sc'

namespace ScopesBy

variable {S : Scope → Scope → Prop} {scopes scopes' : Array Scope}

/-- Either both have a scope with this number or neither has. -/
theorem get? (h : ScopesBy S scopes scopes') (n : Nat) :
    (scopes[n]? = none ∧ scopes'[n]? = none) ∨
    ∃ sc sc', scopes[n]? = some sc ∧ scopes'[n]? = some sc' ∧ S sc sc' := by
  have hsize := h.size
  by_cases hn : n < scopes.size
  · have hsc := Array.getElem?_eq_getElem hn
    have hsc' := Array.getElem?_eq_getElem (hsize ▸ hn : n < scopes'.size)
    exact .inr ⟨_, _, hsc, hsc', h.same n _ _ hsc hsc'⟩
  · exact .inl ⟨Array.getElem?_eq_none (by omega), Array.getElem?_eq_none (by omega)⟩

/-- A name has one owner in both, if scopes that correspond bind the same names inside the same
scope. -/
theorem ownerOf (h : ScopesBy S scopes scopes') {name : String}
    (hsame : ∀ sc sc', S sc sc' →
      sc.bindings.contains name = sc'.bindings.contains name ∧ sc.parent = sc'.parent)
    (t : Ticket) : Ideal.ownerOf scopes name t = Ideal.ownerOf scopes' name t := by
  obtain ⟨n, generation⟩ := t
  induction n using Nat.strongRecOn generalizing generation with
  | _ n ih =>
    rw [Ideal.ownerOf, Ideal.ownerOf]
    rcases h.get? n with ⟨hsc, hsc'⟩ | ⟨sc, sc', hsc, hsc', hS⟩
    · rw [hsc, hsc']
    · obtain ⟨hcontains, hparent⟩ := hsame sc sc' hS
      simp only [hsc, hsc', hcontains, hparent]
      split
      · rfl
      · cases sc'.parent with
        | none => rfl
        | some parent =>
          simp only
          split
          · next hlt => exact ih parent.index hlt parent.generation
          · rfl

theorem modify (h : ScopesBy S scopes scopes') {f f' : Scope → Scope}
    (hf : ∀ sc sc', S sc sc' → S (f sc) (f' sc')) (n : Nat) :
    ScopesBy S (scopes.modify n f) (scopes'.modify n f') := by
  refine ⟨by rw [Array.size_modify, Array.size_modify, h.size], fun k sc sc' hsc hsc' => ?_⟩
  rw [Array.getElem?_modify] at hsc hsc'
  split at hsc
  · next hk =>
    rw [if_pos hk] at hsc'
    obtain ⟨old, hold, rfl⟩ := Option.map_eq_some_iff.mp hsc
    obtain ⟨old', hold', rfl⟩ := Option.map_eq_some_iff.mp hsc'
    exact hf old old' (h.same k old old' hold hold')
  · next hk =>
    rw [if_neg hk] at hsc'
    exact h.same k sc sc' hsc hsc'

theorem push (h : ScopesBy S scopes scopes') {new new' : Scope} (hnew : S new new') :
    ScopesBy S (scopes.push new) (scopes'.push new') := by
  have hsize := h.size
  refine ⟨by rw [Array.size_push, Array.size_push, hsize], fun n sc sc' hsc hsc' => ?_⟩
  rw [Array.getElem?_push] at hsc hsc'
  split at hsc
  · next hn =>
    rw [if_pos (hsize ▸ hn)] at hsc'
    cases hsc
    cases hsc'
    exact hnew
  · next hn =>
    rw [if_neg (hsize ▸ hn)] at hsc'
    exact h.same n sc sc' hsc hsc'

end ScopesBy

/-- Related scopes under the same numbers. -/
abbrev RelatedScopes (R : Closure → Closure → Prop) (scopes scopes' : Array Scope) : Prop :=
  ScopesBy (Scope.Related R) scopes scopes'

namespace RelatedScopes

variable {scopes scopes' : Array Scope}

theorem start : RelatedScopes R #[⟨[], none⟩] #[⟨[], none⟩] := by
  refine ⟨rfl, fun n sc sc' hsc hsc' => ?_⟩
  cases hsc.symm.trans hsc'
  have hmem := Array.mem_of_getElem? hsc
  simp only [List.mem_toArray, List.mem_singleton] at hmem
  rw [hmem]
  exact ⟨.nil, rfl⟩

theorem ownerOf (h : RelatedScopes R scopes scopes') (name : String) (t : Ticket) :
    Ideal.ownerOf scopes name t = Ideal.ownerOf scopes' name t :=
  ScopesBy.ownerOf h (fun _ _ hrelated => ⟨hrelated.bindings.contains name, hrelated.parent⟩) t

theorem lookup? (h : RelatedScopes R scopes scopes') (name : String) (t : Ticket) :
    (Ideal.lookup? scopes name t = none ∧ Ideal.lookup? scopes' name t = none) ∨
    ∃ v v', Ideal.lookup? scopes name t = some v ∧ Ideal.lookup? scopes' name t = some v' ∧
      Value.Related R v v' := by
  unfold Ideal.lookup?
  rw [h.ownerOf]
  cases Ideal.ownerOf scopes' name t with
  | none => exact .inl ⟨rfl, rfl⟩
  | some owner =>
    rcases h.get? owner.index with ⟨hsc, hsc'⟩ | ⟨sc, sc', hsc, hsc', hrelated⟩
    · simp [hsc, hsc']
    · rcases hrelated.bindings.get? name with ⟨hv, hv'⟩ | ⟨v, v', hv, hv', hvalue⟩
      · simp [hsc, hsc', hv, hv']
      · simp [hsc, hsc', hv, hv', hvalue]

theorem bind (h : RelatedScopes R scopes scopes') {v v' : Value} (hv : Value.Related R v v')
    (n : Nat) (name : String) :
    RelatedScopes R (scopes.modify n fun sc => { sc with bindings := sc.bindings.put name v })
      (scopes'.modify n fun sc => { sc with bindings := sc.bindings.put name v' }) := by
  refine ScopesBy.modify h (fun sc sc' hrelated => ?_) n
  exact ⟨hrelated.bindings.put name hv, hrelated.parent⟩

theorem push (h : RelatedScopes R scopes scopes') {args args' : List Value}
    (hargs : List.Forall₂ (Value.Related R) args args') (params : List String)
    (parent : Option Ticket) :
    RelatedScopes R (scopes.push ⟨NameMap.putAll [] (params.zip args), parent⟩)
      (scopes'.push ⟨NameMap.putAll [] (params.zip args'), parent⟩) :=
  ScopesBy.push h ⟨NameMap.Alike.putAll .nil hargs params, rfl⟩

end RelatedScopes

/-! ## Instructions that stay in their frame -/

/-- The places that an instruction that neither calls nor returns can lead to. -/
def Op.LeadsTo (op : Op) (pc : Nat) (flow : Flow) : Prop :=
  flow = .advance ∨ ∃ k, op.skip? = some k ∧ flow = .jump (pc + 1 + k)

namespace Ideal

theorem getElem?_of_drop {α : Type} {items rest : List α} {n : Nat} {a : α}
    (h : items.drop n = a :: rest) :
    items[n]? = some a := by
  rw [← List.head?_drop, h, List.head?_cons]

theorem drop_succ_of_drop {α : Type} {items rest : List α} {n : Nat} {a : α}
    (h : items.drop n = a :: rest) :
    items.drop (n + 1) = rest := by
  rw [← List.tail_drop, h, List.tail_cons]

/-- With other values on the stack and other scopes. -/
def withData (m : Ideal) (values : List Value) (scopes : Array Scope) : Ideal :=
  { m with context := { m.context with values }, scopes }

/-- Both sides go on to the same place with related values and scopes, or fail with the same
message. The errors are the same if they are at the same place. -/
inductive AlikeOutcomes (R : Closure → Closure → Prop) (l r : Ideal) (op : Op) (pc : Nat)
    (origin origin' : Span) :
    Except Error (Flow × Ideal) → Except Error (Flow × Ideal) → Prop where
  | ok {flow : Flow} {values values' : List Value} {scopes scopes' : Array Scope}
    (hflow : op.LeadsTo pc flow)
      (hvalues : List.Forall₂ (Value.Related R) values values')
        (hscopes : RelatedScopes R scopes scopes') :
    AlikeOutcomes R l r op pc origin origin' (.ok (flow, l.withData values scopes))
      (.ok (flow, r.withData values' scopes'))
  | error {e e' : Error} (hmessage : e.message = e'.message) (hsame : origin = origin' → e = e') :
    AlikeOutcomes R l r op pc origin origin' (.error e) (.error e')

theorem jumpTarget_of_pos {pc : Nat} {offset : Int} (h : 0 < offset) :
    jumpTarget pc offset = .ok (pc + 1 + (offset - 1).toNat) := by
  obtain ⟨k, rfl⟩ : ∃ k : Nat, offset = k := ⟨offset.toNat, by omega⟩
  have htarget : (pc : Int) + k = Int.ofNat (pc + 1 + (((k : Int) - 1).toNat)) := by
    simp only [Int.ofNat_eq_natCast]
    omega
  unfold jumpTarget
  rw [htarget]

/-- Either both stacks are empty, or related values are on top of them. -/
theorem top_related {values values' : List Value}
    (h : List.Forall₂ (Value.Related R) values values') :
    (values = [] ∧ values' = []) ∨ ∃ v v' rest rest', values = v :: rest ∧ values' = v' :: rest' ∧
      Value.Related R v v' ∧ List.Forall₂ (Value.Related R) rest rest' := by
  cases h with
  | nil => exact .inl ⟨rfl, rfl⟩
  | cons hv hrest => exact .inr ⟨_, _, _, _, rfl, rfl, hv, hrest⟩

section Plain

variable {l r : Ideal} {op : Op} {pc : Nat} {origin origin' : Span}

theorem AlikeOutcomes.fails (problem : RuntimeProblem) : AlikeOutcomes R l r op pc origin origin'
    (.error (.runtime problem (some origin))) (.error (.runtime problem (some origin'))) :=
  .error rfl fun h => by rw [h]

variable (hvalues : List.Forall₂ (Value.Related R) l.context.values r.context.values)
  (hscopes : RelatedScopes R l.scopes r.scopes)

include hvalues hscopes in
theorem AlikeOutcomes.bindIn {v v' : Value} (hv : Value.Related R v v')
    (t : Ticket) (name : String) :
    AlikeOutcomes R l r op pc origin origin' (.ok (.advance, l.bindIn t name v))
      (.ok (.advance, r.bindIn t name v')) :=
  .ok (.inl rfl) hvalues (hscopes.bind hv t.index name)

variable (hcontains : ∀ name, l.functions.entries.contains name = r.functions.entries.contains name)

include hscopes hcontains

theorem resolve?_related (owner? : String → Option Owner) (env : Environment) (name : String) :
    (l.resolve? owner? env name = none ∧ r.resolve? owner? env name = none) ∨
    ∃ v v', l.resolve? owner? env name = some v ∧ r.resolve? owner? env name = some v' ∧
      Value.Related R v v' := by
  have houtside : (l.functions.known? owner? name = none ∧ r.functions.known? owner? name = none) ∨
      ∃ v v', l.functions.known? owner? name = some v ∧ r.functions.known? owner? name = some v' ∧
        Value.Related R v v' := by
    have hsame : l.functions.known? owner? name = r.functions.known? owner? name := by
      unfold FunctionTable.known?
      rw [hcontains]
    rw [hsame]
    cases hknown : r.functions.known? owner? name with
    | none => exact .inl ⟨rfl, rfl⟩
    | some v => exact .inr ⟨v, v, rfl, rfl, Value.related_self (closures_of_known? hknown)⟩
  unfold resolve?
  cases env.scope with
  | none => exact houtside
  | some t =>
    rcases hscopes.lookup? name t with ⟨hv, hv'⟩ | ⟨v, v', hv, hv', hvalue⟩
    · simp only [Option.bind_some, hv, hv']
      exact houtside
    · simp only [Option.bind_some, hv, hv']
      exact .inr ⟨v, v', rfl, rfl, hvalue⟩

include hvalues

/-- A name that is looked up on both sides, and the same problem if there is none. -/
theorem lookup_related (owner? : String → Option Owner) (env : Environment) (name : String)
    (problem : RuntimeProblem) :
    AlikeOutcomes R l r op pc origin origin'
      (match l.resolve? owner? env name with
        | some v => .ok (.advance, l.push v)
        | none => .error (.runtime problem (some origin)))
      (match r.resolve? owner? env name with
        | some v => .ok (.advance, r.push v)
        | none => .error (.runtime problem (some origin'))) := by
  rcases resolve?_related hscopes hcontains owner? env name
    with ⟨hv, hv'⟩ | ⟨v, v', hv, hv', hvalue⟩
  · rw [hv, hv']
    exact .fails problem
  · rw [hv, hv']
    exact .ok (.inl rfl) (.cons hvalue hvalues) hscopes

/-- A name that is assigned to on both sides, in the same scope or with the same problem. -/
theorem assign_related (owner? : String → Option Owner) (env : Environment)
    (name : String) {v v' : Value} (hv : Value.Related R v v') :
    AlikeOutcomes R l r op pc origin origin'
      (do return (.advance, ← l.assign owner? env name v origin))
      (do return (.advance, ← r.assign owner? env name v' origin')) := by
  have howner : env.scope.bind (ownerOf l.scopes name) =
    env.scope.bind (ownerOf r.scopes name) := by
    cases env.scope with
    | none => rfl
    | some t => exact hscopes.ownerOf name t
  simp only [assign, hcontains, howner]
  cases env.scope.bind (ownerOf r.scopes name) with
  | some t => exact .bindIn hvalues hscopes hv t name
  | none =>
    cases (owner? name).isSome || r.functions.entries.contains name with
    | true => exact .fails (.immutable name)
    | false => exact .fails (.unassignable name)

/-- An instruction that neither calls nor makes a function. -/
theorem execute_related {owner? : String → Option Owner}
    {reply reply' : Except HostProblem Value} {env : Environment} (hop : op.Plain)
    (hargc : op.argc? = none) :
    AlikeOutcomes R l r op pc origin origin' (l.execute owner? reply pc env origin op)
      (r.execute owner? reply' pc env origin' op) := by
  cases op with
  | loadConstant v => exact .ok (.inl rfl) (.cons (Value.related_self hop) hvalues) hscopes
  | push v => exact hop.elim
  | buildFunction name => exact hop.elim
  | ret => exact hop.elim
  | call argc => cases hargc
  | tailCall argc => cases hargc
  | nameLookup name =>
    exact lookup_related hvalues hscopes hcontains owner? env name (.notDefined name)
  | functionLookup name =>
    exact lookup_related hvalues hscopes hcontains owner? env name (.noFunction name)
  | pop =>
    simp only [execute]
    rcases top_related hvalues with ⟨hl, hr⟩ | ⟨v, v', rest, rest', hl, hr, -, hrest⟩
    · rw [hl, hr]
      exact .fails .underflow
    · rw [hl, hr]
      exact .ok (.inl rfl) hrest hscopes
  | storeNew name =>
    simp only [execute]
    rcases top_related hvalues with ⟨hl, hr⟩ | ⟨v, v', rest, rest', hl, hr, hv, -⟩
    · rw [hl, hr]
      exact .fails .underflow
    · rw [hl, hr]
      cases env.scope with
      | none => exact .error rfl fun _ => rfl
      | some t => exact .bindIn hvalues hscopes hv t name
  | store name =>
    simp only [execute]
    rcases top_related hvalues with ⟨hl, hr⟩ | ⟨v, v', rest, rest', hl, hr, hv, -⟩
    · rw [hl, hr]
      exact .fails .underflow
    · rw [hl, hr]
      exact assign_related hvalues hscopes hcontains owner? env name hv
  | jump offset =>
    have hpos : 0 < offset := hop
    simp only [execute, jumpTarget_of_pos hpos]
    exact .ok (.inr ⟨_, rfl, rfl⟩) hvalues hscopes
  | jumpIfNot offset =>
    have hpos : 0 < offset := hop
    simp only [execute, jumpTarget_of_pos hpos]
    rcases top_related hvalues with ⟨hl, hr⟩ | ⟨v, v', rest, rest', hl, hr, hv, hrest⟩
    · rw [hl, hr]
      exact .fails .underflow
    · rw [hl, hr]
      show AlikeOutcomes R l r _ pc origin origin' (.ok (if _ then _ else _, _))
        (.ok (if _ then _ else _, _))
      rw [hv.isTruthy]
      split
      · exact .ok (.inl rfl) hrest hscopes
      · exact .ok (.inr ⟨_, rfl, rfl⟩) hrest hscopes

end Plain

end Ideal

/-! ## Calls of the host -/

/-- What the host is asked for, if both machines are about to make a call with so many arguments or
neither is. -/
theorem Context.hostCall?_related {c c' : Context}
    (h : (c.instruction?.bind (·.op.argc?) = none ∧ c'.instruction?.bind (·.op.argc?) = none) ∨
      ∃ argc, c.instruction?.bind (·.op.argc?) = some argc ∧
        c'.instruction?.bind (·.op.argc?) = some argc ∧
        List.Forall₂ (Value.Related R) c.values c'.values) :
    (c.hostCall? = none ∧ c'.hostCall? = none) ∨
    ∃ owner method args args', c.hostCall? = some (owner, method, args) ∧
      c'.hostCall? = some (owner, method, args') ∧
      List.Forall₂ (Value.Related R) args args' := by
  unfold Context.hostCall?
  rcases h with ⟨hargc, hargc'⟩ | ⟨argc, hargc, hargc', hvalues⟩
  · rw [hargc, hargc']
    exact .inl ⟨rfl, rfl⟩
  · simp only [hargc, hargc']
    have hargs := List.rel_reverse (List.forall₂_take argc hvalues)
    have hdrop := List.forall₂_drop argc hvalues
    cases hcallee : c.values.drop argc with
    | nil =>
      rw [hcallee, List.forall₂_nil_left_iff] at hdrop
      simp [hdrop]
    | cons callee rest =>
      rw [hcallee] at hdrop
      obtain ⟨callee', rest', hsame, -, hdrop'⟩ := List.forall₂_cons_left_iff.mp hdrop
      simp only [hdrop']
      rcases hsame.cases with ⟨_, _, _, _, _, _, _, _, rfl, rfl, -⟩ | ⟨_, _, rfl, rfl, -⟩ | ⟨rfl, -⟩
      · exact .inl ⟨rfl, rfl⟩
      · exact .inl ⟨rfl, rfl⟩
      · cases callee with
        | host owner method => exact .inr ⟨owner, method, _, _, rfl, rfl, hargs⟩
        | _ => exact .inl ⟨rfl, rfl⟩

/-- Parametric capabilities give related answers to related calls, and go to the same world. -/
theorem Host.direct_reply_related {σ : Type} {capabilities : List (Capability σ)}
    (hcapabilities : ∀ c ∈ capabilities, c.Parametric) (hR : Closure.Lookalikes R) {c c' : Context}
    (h : (c.hostCall? = none ∧ c'.hostCall? = none) ∨
      ∃ owner method args args', c.hostCall? = some (owner, method, args) ∧
        c'.hostCall? = some (owner, method, args') ∧
        List.Forall₂ (Value.Related R) args args') (w : σ) :
    RelatedReplies R ((Host.direct capabilities).reply c w).1
      ((Host.direct capabilities).reply c' w).1 ∧
      ((Host.direct capabilities).reply c w).2 = ((Host.direct capabilities).reply c' w).2 := by
  unfold Host.reply
  rcases h with ⟨hnone, hnone'⟩ | ⟨owner, method, args, args', hcall, hcall', hargs⟩
  · rw [hnone, hnone']
    exact ⟨Value.related_self rfl, rfl⟩
  · rw [hcall, hcall']
    simp only [Host.direct, Capability.invokeAt]
    cases hcapability : capabilities[owner.slot]? with
    | none => exact ⟨rfl, rfl⟩
    | some capability =>
      exact hcapabilities capability (List.mem_of_getElem? hcapability) R hR method
        args args' w hargs

end LiveLisp
