/-
  The order of bindings. A scope lists its bindings in some order, and nothing that an instruction
  does depends on it: ideal machines whose scopes bind the same names to the same values take the
  same steps and fail with the same errors (`Ideal.Reordered.step`).

  A real machine goes by that order when it removes a record, and so do the tickets that it hands
  out later. Still it follows the ideal machine with its bindings in that order
  (`Machine.FollowsSince.reorder`).
-/
import LiveLisp.Proofs.Ideal.Related
import LiveLisp.Proofs.Ideal.Sound

namespace LiveLisp

/-! ## Maps -/

namespace NameMap

variable {α β : Type} {m m' m'' : NameMap α} {name : String}

/-- The same pairs in another order, of which names get the same values. -/
structure Reordered (m m' : NameMap α) : Prop where
  perm : m.Perm m'
  get? : ∀ name, m.get? name = m'.get? name

theorem Reordered.refl (m : NameMap α) : Reordered m m :=
  ⟨.refl m, fun _ => rfl⟩

theorem Reordered.symm (h : Reordered m m') : Reordered m' m :=
  ⟨h.perm.symm, fun name => (h.get? name).symm⟩

theorem Reordered.trans (h : Reordered m m') (h' : Reordered m' m'') : Reordered m m'' :=
  ⟨h.perm.trans h'.perm, fun name => (h.get? name).trans (h'.get? name)⟩

theorem Reordered.contains (h : Reordered m m') (name : String) :
    m.contains name = m'.contains name := by
  unfold NameMap.contains
  rw [h.get?]

theorem put_of_get?_none (h : m.get? name = none) (a : α) : m.put name a = m ++ [(name, a)] := by
  induction m with
  | nil => rfl
  | cons pair rest ih =>
    obtain ⟨key, b⟩ := pair
    rw [get?] at h
    split at h
    · cases h
    · next hne => rw [put, if_neg hne, ih h, List.cons_append]

/-- What a name is put to takes the place of what it got. -/
theorem put_of_get?_some {b : α} (h : m.get? name = some b) (a : α) :
    ∃ rest, m.Perm ((name, b) :: rest) ∧ (m.put name a).Perm ((name, a) :: rest) := by
  induction m with
  | nil => cases h
  | cons pair others ih =>
    obtain ⟨key, c⟩ := pair
    rw [get?] at h
    split at h
    · next heq =>
      cases h
      refine ⟨others, ?_, ?_⟩
      · rw [heq]
      · rw [put, if_pos heq]
    · next hne =>
      obtain ⟨rest, hm, hput⟩ := ih h
      refine ⟨(key, c) :: rest, (hm.cons _).trans (.swap ..), ?_⟩
      rw [put, if_neg hne]
      exact (hput.cons _).trans (.swap ..)

theorem Reordered.put (h : Reordered m m') (name : String) (a : α) :
    Reordered (m.put name a) (m'.put name a) := by
  refine ⟨?_, fun other => by rw [get?_put, get?_put, h.get?]⟩
  cases hget : m.get? name with
  | none =>
    rw [put_of_get?_none hget, put_of_get?_none (h.get? name ▸ hget)]
    exact h.perm.append_right _
  | some b =>
    obtain ⟨rest, hm, hput⟩ := put_of_get?_some hget a
    obtain ⟨rest', hm', hput'⟩ := put_of_get?_some (h.get? name ▸ hget) a
    have hrest : rest.Perm rest' := (hm.symm.trans (h.perm.trans hm')).cons_inv
    exact hput.trans ((hrest.cons _).trans hput'.symm)

theorem Reordered.mapValues (h : Reordered m m') (f : α → β) :
    Reordered (m.mapValues f) (m'.mapValues f) :=
  ⟨h.perm.map _, fun name => by rw [get?_mapValues, get?_mapValues, h.get?]⟩

theorem Reordered.values_perm (h : Reordered m m') : m.values.Perm m'.values :=
  h.perm.map _

theorem get?_eq_some_iff_of_nodup (h : m.keys.Nodup) {a : α} :
    m.get? name = some a ↔ (name, a) ∈ m := by
  induction m with
  | nil => simp [get?]
  | cons pair rest ih =>
    obtain ⟨key, b⟩ := pair
    obtain ⟨hkey, hrest⟩ := List.nodup_cons.mp h
    rw [get?, List.mem_cons, Prod.mk.injEq]
    split
    · next heq =>
      have hother : (name, a) ∉ rest := fun hmem =>
        hkey (List.mem_map.mpr ⟨_, hmem, heq.symm⟩)
      simp [heq, hother, eq_comm]
    · next hne => simp [ih hrest, Ne.symm hne]

/-- A map that has every name once may be put into any order. -/
theorem Reordered.of_perm (hnodup : m.keys.Nodup) (h : m.Perm m') : Reordered m m' := by
  have hnodup' : m'.keys.Nodup := (h.map Prod.fst).nodup_iff.mp hnodup
  refine ⟨h, fun name => Option.ext fun a => ?_⟩
  rw [get?_eq_some_iff_of_nodup hnodup,
    get?_eq_some_iff_of_nodup hnodup']
  exact h.mem_iff

end NameMap

/-! ## Scopes -/

/-- The same bindings in another order, inside the same scope. -/
structure Scope.Reordered (sc sc' : Scope) : Prop where
  bindings : sc.bindings.Reordered sc'.bindings
  parent : sc.parent = sc'.parent

theorem Scope.Reordered.refl (sc : Scope) : Scope.Reordered sc sc :=
  ⟨.refl _, rfl⟩

theorem Scope.Reordered.symm {sc sc' : Scope} (h : Scope.Reordered sc sc') :
    Scope.Reordered sc' sc :=
  ⟨h.bindings.symm, h.parent.symm⟩

theorem Scope.Reordered.trans {sc sc' sc'' : Scope} (h : Scope.Reordered sc sc')
    (h' : Scope.Reordered sc' sc'') : Scope.Reordered sc sc'' :=
  ⟨h.bindings.trans h'.bindings, h.parent.trans h'.parent⟩

/-- The same scopes under the same numbers, each with its bindings in another order. -/
abbrev ReorderedScopes (scopes scopes' : Array Scope) : Prop :=
  ScopesBy Scope.Reordered scopes scopes'

namespace ReorderedScopes

variable {scopes scopes' scopes'' : Array Scope}

theorem refl (scopes : Array Scope) : ReorderedScopes scopes scopes := by
  refine ⟨rfl, fun n sc sc' hsc hsc' => ?_⟩
  cases hsc.symm.trans hsc'
  exact .refl sc

theorem symm (h : ReorderedScopes scopes scopes') : ReorderedScopes scopes' scopes :=
  ⟨h.size.symm, fun n sc' sc hsc' hsc => (h.same n sc sc' hsc hsc').symm⟩

theorem trans (h : ReorderedScopes scopes scopes') (h' : ReorderedScopes scopes' scopes'') :
    ReorderedScopes scopes scopes'' := by
  refine ⟨h.size.trans h'.size, fun n sc sc'' hsc hsc'' => ?_⟩
  rcases h.get? n with ⟨hnone, -⟩ | ⟨_, sc', hsc₁, hsc', hsame⟩
  · cases hsc.symm.trans hnone
  · cases hsc.symm.trans hsc₁
    exact hsame.trans (h'.same n sc' sc'' hsc' hsc'')

theorem ownerOf (h : ReorderedScopes scopes scopes') (name : String) (t : Ticket) :
    Ideal.ownerOf scopes name t = Ideal.ownerOf scopes' name t :=
  ScopesBy.ownerOf h (fun _ _ hsame => ⟨hsame.bindings.contains name, hsame.parent⟩) t

theorem lookup? (h : ReorderedScopes scopes scopes') (name : String) (t : Ticket) :
    Ideal.lookup? scopes name t = Ideal.lookup? scopes' name t := by
  unfold Ideal.lookup?
  rw [h.ownerOf]
  cases Ideal.ownerOf scopes' name t with
  | none => rfl
  | some owner =>
    rcases h.get? owner.index with ⟨hsc, hsc'⟩ | ⟨sc, sc', hsc, hsc', hsame⟩
    · simp only [Option.bind_eq_bind, Option.bind_some, hsc, hsc']
    · simp only [Option.bind_eq_bind, Option.bind_some, hsc, hsc', hsame.bindings.get?]

end ReorderedScopes

/-! ## Steps -/

/-- Both fail with the same error, or come to results that `R` relates. -/
def EndsBy {α : Type} (R : α → α → Prop) : Except Error α → Except Error α → Prop
  | .ok a, .ok a' => R a a'
  | .error e, .error e' => e = e'
  | _, _ => False

namespace Ideal

/-- The same machine with the bindings of its scopes in another order. -/
structure Reordered (r r' : Ideal) : Prop where
  context : r.context = r'.context
  functions : r.functions = r'.functions
  scopes : ReorderedScopes r.scopes r'.scopes
  built : r.built = r'.built

namespace Reordered

variable {r r' r'' : Ideal}

theorem refl (r : Ideal) : Reordered r r :=
  ⟨rfl, rfl, .refl _, rfl⟩

theorem symm (h : Reordered r r') : Reordered r' r :=
  ⟨h.context.symm, h.functions.symm, h.scopes.symm, h.built.symm⟩

theorem trans (h : Reordered r r') (h' : Reordered r' r'') : Reordered r r'' :=
  ⟨h.context.trans h'.context, h.functions.trans h'.functions, h.scopes.trans h'.scopes,
    h.built.trans h'.built⟩

end Reordered

section Steps

variable {context : Context} {functions : FunctionTable} {scopes scopes' : Array Scope}
  {built : Nat} (h : ReorderedScopes scopes scopes')

/-- Results of an instruction that go on alike. -/
abbrev GoOnAlike : Except Error (Flow × Ideal) → Except Error (Flow × Ideal) → Prop :=
  EndsBy fun p p' => p.1 = p'.1 ∧ p.2.Reordered p'.2

include h

theorem bindIn_reordered (context : Context) (functions : FunctionTable) (built : Nat)
    (t : Ticket) (name : String) (v : Value) :
    Reordered (bindIn ⟨context, functions, scopes, built⟩ t name v)
      (bindIn ⟨context, functions, scopes', built⟩ t name v) := by
  have hscopes : ReorderedScopes
      (scopes.modify t.index fun sc => { sc with bindings := sc.bindings.put name v })
      (scopes'.modify t.index fun sc => { sc with bindings := sc.bindings.put name v }) := by
    refine ScopesBy.modify h (fun sc sc' hsame => ?_) t.index
    exact ⟨hsame.bindings.put name v, hsame.parent⟩
  exact ⟨rfl, rfl, hscopes, rfl⟩

theorem resolve?_reordered (owner? : String → Option Owner) (env : Environment) (name : String) :
    resolve? ⟨context, functions, scopes, built⟩ owner? env name =
      resolve? ⟨context, functions, scopes', built⟩ owner? env name := by
  unfold resolve?
  cases env.scope with
  | none => rfl
  | some t => simp only [Option.bind_some, h.lookup?]

/-- A name that is looked up on both sides, and the same error if there is none. -/
theorem lookup_reordered (owner? : String → Option Owner) (env : Environment) (name : String)
    (e : Error) :
    GoOnAlike
      (match resolve? ⟨context, functions, scopes, built⟩ owner? env name with
        | some v => .ok (.advance, push ⟨context, functions, scopes, built⟩ v)
        | none => .error e)
      (match resolve? ⟨context, functions, scopes', built⟩ owner? env name with
        | some v => .ok (.advance, push ⟨context, functions, scopes', built⟩ v)
        | none => .error e) := by
  rw [resolve?_reordered h]
  cases resolve? ⟨context, functions, scopes', built⟩ owner? env name with
  | none => exact rfl
  | some v => exact ⟨rfl, rfl, rfl, h, rfl⟩

theorem assign_reordered (owner? : String → Option Owner) (env : Environment) (name : String)
    (v : Value) (origin : Span) :
    GoOnAlike
      (do
        return (.advance, ← assign ⟨context, functions, scopes, built⟩ owner? env name v origin))
      (do
        return (.advance,
          ← assign ⟨context, functions, scopes', built⟩ owner? env name v origin)) := by
  have howner : env.scope.bind (ownerOf scopes name) = env.scope.bind (ownerOf scopes' name) := by
    cases env.scope with
    | none => rfl
    | some t => exact h.ownerOf name t
  simp only [assign, howner]
  cases env.scope.bind (ownerOf scopes' name) with
  | some t => exact ⟨rfl, bindIn_reordered h context functions built t name v⟩
  | none =>
    simp only
    split <;> exact rfl

/-- A function is entered with a new scope that is the same on both sides. -/
theorem enterIf_reordered (tail : Bool) (name : Option String) (params : List String) (code : Code)
    (env : Environment) (args rest : List Value) (origin : Span) :
    GoOnAlike
      (enterIf ⟨context, functions, scopes, built⟩ tail name params code env args rest origin)
      (enterIf ⟨context, functions, scopes', built⟩ tail name params code env args rest
        origin) := by
  unfold enterIf
  split
  · exact rfl
  · refine ⟨rfl, ?_, rfl, ScopesBy.push h (.refl _), rfl⟩
    simp only [enter, h.size]

theorem call_reordered (reply : Except HostProblem Value) (tail : Bool) (argc : Nat)
    (origin : Span) :
    GoOnAlike (call ⟨context, functions, scopes, built⟩ reply tail argc origin)
      (call ⟨context, functions, scopes', built⟩ reply tail argc origin) := by
  simp only [call]
  cases context.values.drop argc with
  | nil => exact rfl
  | cons callee rest =>
    cases callee with
    | host owner method =>
      cases reply with
      | ok v => exact ⟨rfl, rfl, rfl, h, rfl⟩
      | error problem => exact rfl
    | closure id params code scope =>
      exact enterIf_reordered h tail none params code _ _ rest origin
    | named name =>
      simp only
      cases functions.entries.get? name with
      | none => exact rfl
      | some function =>
        simp only
        cases function.env with
        | none => exact rfl
        | some env => exact enterIf_reordered h tail (some name) _ _ env _ rest origin
    | _ => exact rfl

/-- What an instruction does does not depend on the order of bindings. -/
theorem execute_reordered (owner? : String → Option Owner) (reply : Except HostProblem Value)
    (pc : Nat) (env : Environment) (origin : Span) (op : Op) :
    GoOnAlike (execute ⟨context, functions, scopes, built⟩ owner? reply pc env origin op)
      (execute ⟨context, functions, scopes', built⟩ owner? reply pc env origin op) := by
  cases op with
  | loadConstant v | push v => exact ⟨rfl, rfl, rfl, h, rfl⟩
  | pop =>
    simp only [execute]
    cases context.values with
    | nil => exact rfl
    | cons v rest => exact ⟨rfl, rfl, rfl, h, rfl⟩
  | nameLookup name => exact lookup_reordered h owner? env name _
  | functionLookup name => exact lookup_reordered h owner? env name _
  | storeNew name =>
    simp only [execute]
    cases context.values with
    | nil => exact rfl
    | cons v rest =>
      simp only
      cases env.scope with
      | none => exact rfl
      | some t => exact ⟨rfl, bindIn_reordered h context functions built t name v⟩
  | store name =>
    simp only [execute]
    cases context.values with
    | nil => exact rfl
    | cons v rest => exact assign_reordered h owner? env name v origin
  | buildFunction name =>
    simp only [execute, buildFunction]
    split
    · split <;> exact ⟨rfl, rfl, rfl, h, rfl⟩
    · exact rfl
  | call argc => exact call_reordered h reply false argc origin
  | tailCall argc => exact call_reordered h reply true argc origin
  | jump offset =>
    simp only [execute]
    cases jumpTarget pc offset with
    | error e => exact rfl
    | ok target => exact ⟨rfl, rfl, rfl, h, rfl⟩
  | jumpIfNot offset =>
    obtain ⟨_, _, _, values, _⟩ := context
    simp only [execute]
    cases jumpTarget pc offset with
    | error e => exact rfl
    | ok target =>
      cases values with
      | nil => exact rfl
      | cons v rest => exact ⟨rfl, rfl, rfl, h, rfl⟩
  | ret =>
    simp only [execute, leave]
    split <;> exact ⟨rfl, rfl, rfl, h, rfl⟩

end Steps

theorem settle_reordered {x x' : Except Error (Flow × Ideal)} (h : GoOnAlike x x') :
    EndsBy Reordered (settle x) (settle x') := by
  cases x with
  | ok p =>
    cases x' with
    | ok p' =>
      obtain ⟨hflow, hcontext, hfunctions, hscopes, hbuilt⟩ := h
      refine ⟨?_, hfunctions, hscopes, hbuilt⟩
      simp only [hcontext, hflow]
    | error e' => exact h
  | error e =>
    cases x' with
    | ok p' => exact h
    | error e' => exact h

/-- Neither does a step. -/
theorem Reordered.step {r r' : Ideal} (h : r.Reordered r') (owner? : String → Option Owner)
    (reply : Except HostProblem Value) :
    EndsBy Reordered (r.step owner? reply) (r'.step owner? reply) := by
  obtain ⟨context, functions, scopes, built⟩ := r
  obtain ⟨_, _, scopes', _⟩ := r'
  obtain ⟨rfl, rfl, hscopes, rfl⟩ := h
  unfold Ideal.step
  simp only
  split
  · exact rfl
  · split
    · split
      · exact rfl
      · split
        · exact rfl
        · exact settle_reordered (execute_reordered hscopes owner? reply _ _ _ _)
    · exact rfl

/-- What is sound stays so in another order. -/
theorem Reordered.sound {r r' : Ideal} (h : r.Reordered r') (hr : r.Sound) : r'.Sound := by
  refine ⟨h.context ▸ hr.stacked, h.context ▸ hr.contents.environments,
    h.context ▸ hr.contents.values, fun i sc' hsc' v hv => ?_, h.functions ▸ hr.contents.functions⟩
  rcases h.scopes.get? i with ⟨-, hnone⟩ | ⟨sc, _, hsc, hsc₁, hsame⟩
  · cases hsc'.symm.trans hnone
  · cases hsc'.symm.trans hsc₁
    exact hr.contents.scopes i sc hsc v (hsame.bindings.values_perm.mem_iff.mpr hv)

end Ideal

/-! ## Machines -/

/-- The same store, of which records have come to list their bindings in other orders, one record
after the other. -/
inductive Store.Reorders (s : Store) : Store → Prop where
  | refl : Reorders s s
  | record {s' : Store} {t : Ticket} {r : Record} {bindings : NameMap Value} (h : Reorders s s')
      (hr : s'.record? t = some r) (hbindings : r.bindings.Reordered bindings) :
      Reorders s (s'.setRecord t { r with bindings })

/-- A record that has every name once may list its bindings in any order. -/
theorem Store.reorders_of_perm {s : Store} {t : Ticket} {r : Record} {bindings : NameMap Value}
    (hr : s.record? t = some r) (hnodup : r.bindings.keys.Nodup)
    (hperm : r.bindings.Perm bindings) : s.Reorders (s.setRecord t { r with bindings }) :=
  .record .refl hr (.of_perm hnodup hperm)

/-- The same machine over a store in another order. -/
def Machine.Reorders (m m' : Machine) : Prop :=
  ∃ store, m.memory.store.Reorders store ∧ m' = { m with memory := { m.memory with store } }

/-- A record holds in another order what it held. -/
theorem Store.Exact.reorder {s : Store} {held : List Ticket} (h : s.Exact held) {t : Ticket}
    {r : Record} {bindings : NameMap Value} (hr : s.record? t = some r)
    (hbindings : r.bindings.Reordered bindings) :
    (s.setRecord t { r with bindings }).Exact held := by
  have hperm : r.references.Perm { r with bindings : Record }.references :=
    List.Perm.append_left _ (hbindings.values_perm.flatMap_right _)
  refine h.setRecord hr rfl h.held_live (fun u hu => ?_) ?_ fun u _ => ?_
  · exact h.refs_live t r hr u (hperm.mem_iff.mpr hu)
  · rw [hperm.count_eq]
  · rw [hperm.count_eq]

theorem Scope.Reordered.rename {sc sc' : Scope} (h : Scope.Reordered sc sc')
    (ρ : Ticket → Ticket) : Scope.Reordered (sc.rename ρ) (sc'.rename ρ) :=
  ⟨h.bindings.mapValues _, congrArg (Option.map ρ) h.parent⟩

theorem Scope.Reordered.references_perm {sc sc' : Scope} (h : Scope.Reordered sc sc') :
    sc.references.Perm sc'.references := by
  unfold Scope.references
  rw [h.parent]
  exact List.Perm.append_left _ (h.bindings.values_perm.flatMap_right _)

/-- Who holds whom does not depend on the order. -/
theorem ReorderedScopes.holds {swept : Nat → Prop} {scopes scopes' : Array Scope}
    (h : ReorderedScopes scopes scopes') {i j : Nat} (hij : Ideal.Holds swept scopes i j) :
    Ideal.Holds swept scopes' i j := by
  obtain ⟨hi, sc, hsc, u, hu, hj⟩ := hij
  rcases h.get? i with ⟨hnone, -⟩ | ⟨_, sc', hsc₁, hsc', hsame⟩
  · cases hsc.symm.trans hnone
  · cases hsc.symm.trans hsc₁
    exact ⟨hi, sc', hsc', u, hsame.references_perm.mem_iff.mp hu, hj⟩

/-- The ideal machine has the bindings of one scope in another order. -/
theorem Mirrors.reorder {swept : Nat → Prop} {ρ : Ticket → Ticket} {f : View}
    {scopes : Array Scope} (h : Mirrors swept ρ f scopes) {t : Ticket} {sc sc' : Scope}
    (ht : f t = some sc) (hsame : sc.Reordered sc') :
    ∃ scopes', Mirrors swept ρ (f.add t sc') scopes' ∧ ReorderedScopes scopes scopes' := by
  have hlive : ∀ u ∈ sc'.references, ∃ scu, f u = some scu :=
    fun u hu => h.closed t u ⟨sc, ht, hsame.references_perm.mem_iff.mpr hu⟩
  refine ⟨_, h.rebind ht hsame.parent.symm hlive, by rw [Array.size_modify],
    fun n old new hold hnew => ?_⟩
  rw [Array.getElem?_modify] at hnew
  split at hnew
  · next e =>
    rw [← e, h.content t sc ht] at hold hnew
    cases hold
    cases hnew
    exact hsame.rename ρ
  · cases hold.symm.trans hnew
    exact .refl old

/-- A machine follows the ideal machine that has its bindings in its order. -/
theorem Machine.FollowsSince.reorder {swept : Nat → Prop} {m m' : Machine} {r : Ideal}
    (h : m.FollowsSince swept r) (hm : m.Reorders m') :
    ∃ r', m'.FollowsSince swept r' ∧ r.Reordered r' := by
  obtain ⟨store, horder, rfl⟩ := hm
  induction horder with
  | refl => exact ⟨r, h, .refl r⟩
  | @record s t record bindings _ hrecord hbindings ih =>
    obtain ⟨r', ⟨hexact, ρ, scopes, hmirrors, rfl⟩, hr'⟩ := ih
    have hscope : s.scope? t = some record.scope := by
      unfold Store.scope?
      rw [hrecord]
      rfl
    have hsame : record.scope.Reordered ⟨bindings, record.parent⟩ := ⟨hbindings, rfl⟩
    obtain ⟨scopes', hmirrors', hscopes⟩ := hmirrors.reorder hscope hsame
    have hview : (s.setRecord t { record with bindings }).scope? =
        View.add s.scope? t ⟨bindings, record.parent⟩ := by
      funext u
      unfold Store.scope? View.add
      rw [Store.record?_setRecord hrecord]
      split <;> rfl
    rw [← hview] at hmirrors'
    refine ⟨_, Machine.follows_of (hexact.reorder hrecord hbindings) hmirrors', hr'.trans ?_⟩
    exact ⟨rfl, rfl, hscopes, rfl⟩

end LiveLisp
