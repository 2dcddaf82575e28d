/-
  When a tree walk and the ideal machine are in like states. Both number their scopes in the order
  of their making, so a scope here is the scope with the same number there; a function is a tree
  here and code compiled from that tree there, and everything else is the same value on both sides.
-/
import Mathlib.Data.List.Forall2
import LiveLisp.Proofs.Code.Compiled
import LiveLisp.Proofs.Ideal.Run
import LiveLisp.Tree.Meaning

namespace LiveLisp

namespace Node

mutual
/-- The first nodes of all lists in a node. -/
def heads : Node → List Node
  | .list (head :: items) _ => head :: (heads head ++ headsOfAll items)
  | _ => []
def headsOfAll : List Node → List Node
  | [] => []
  | node :: nodes => heads node ++ headsOfAll nodes
end

theorem headsOfAll_cons_subset {node : Node} {nodes others : List Node}
    (h : headsOfAll (node :: nodes) ⊆ others) :
    node.heads ⊆ others ∧ headsOfAll nodes ⊆ others := by
  rw [headsOfAll] at h
  exact List.append_subset.mp h

end Node

/-- The first nodes of all lists in a part. -/
def Part.heads : Part → List Node
  | .form _ node => node.heads
  | .body _ _ nodes => Node.headsOfAll nodes
  | .arguments nodes => Node.headsOfAll nodes

theorem Part.heads_list_subset {tail : Bool} {head : Node} {items others : List Node} {span : Span}
    (h : (Part.form tail (.list (head :: items) span)).heads ⊆ others) :
    head ∈ others ∧ head.heads ⊆ others ∧ Node.headsOfAll items ⊆ others := by
  rw [Part.heads, Node.heads] at h
  obtain ⟨hhead, hrest⟩ := List.cons_subset.mp h
  exact ⟨hhead, List.append_subset.mp hrest⟩

namespace Meaning

/-- A datum of the walk and the value that stands for it. Every function comes from the program with
these heads. -/
inductive Means (unit : Nat) (heads : List Node) : Datum → Value → Prop where
  | value {v : Value} (h : v.isPlain = true) : Means unit heads (.value v) v
  | lambda {params : List String} {body : List Node} {scope : Nat} {id : ClosureId} {span : Span}
      {is : List Instruction}
      (hbody : Compiles unit (.body true span body) is) (hheads : Node.headsOfAll body ⊆ heads) :
    Means unit heads (.lambda ⟨params, body, scope⟩)
      (.closure id params (.ofBody unit span is) (some ⟨scope, 0⟩))

theorem Means.isTruthy {unit : Nat} {heads : List Node} {d : Datum} {v : Value}
    (h : Means unit heads d v) :
    Meaning.isTruthy d = v.isTruthy := by
  cases h <;> rfl

end Meaning

/-! ## Like bindings -/

namespace NameMap

variable {α β : Type} {R : α → β → Prop} {a : NameMap α} {b : NameMap β}

/-- The same names in the same order, with like things under them. -/
def Alike (R : α → β → Prop) (a : NameMap α) (b : NameMap β) : Prop :=
  List.Forall₂ (fun x y => x.1 = y.1 ∧ R x.2 y.2) a b

theorem Alike.get? (h : Alike R a b) (name : String) :
    (a.get? name = none ∧ b.get? name = none) ∨ ∃ x y, a.get? name = some x ∧
    b.get? name = some y ∧ R x y := by
  induction h with
  | nil => exact .inl ⟨rfl, rfl⟩
  | @cons x y a b hxy _ ih =>
    obtain ⟨key, x⟩ := x
    obtain ⟨_, y⟩ := y
    obtain ⟨rfl, hR⟩ := hxy
    simp only [NameMap.get?]
    split
    · exact .inr ⟨x, y, rfl, rfl, hR⟩
    · exact ih

theorem Alike.contains (h : Alike R a b) (name : String) : a.contains name = b.contains name := by
  unfold NameMap.contains
  rcases h.get? name with ⟨ha, hb⟩ | ⟨x, y, ha, hb, -⟩
  · rw [ha, hb]
    rfl
  · rw [ha, hb]
    rfl

theorem Alike.put (h : Alike R a b) (name : String) {x : α} {y : β} (hxy : R x y) :
    Alike R (a.put name x) (b.put name y) := by
  induction h with
  | nil => exact .cons ⟨rfl, hxy⟩ .nil
  | @cons x' y' a b hxy' hrest ih =>
    obtain ⟨key, x'⟩ := x'
    obtain ⟨_, y'⟩ := y'
    obtain ⟨rfl, hR⟩ := hxy'
    simp only [NameMap.put]
    split
    · exact .cons ⟨rfl, hxy⟩ hrest
    · exact .cons ⟨rfl, hR⟩ ih

theorem Alike.putAll (h : Alike R a b) {xs : List α} {ys : List β} (hxy : List.Forall₂ R xs ys)
    (names : List String) :
    Alike R (a.putAll (names.zip xs)) (b.putAll (names.zip ys)) := by
  induction hxy generalizing a b names with
  | nil =>
    rw [List.zip_nil_right, List.zip_nil_right]
    exact h
  | @cons x y xs ys hxy _ ih =>
    cases names with
    | nil => exact h
    | cons name names => exact ih (h.put name hxy) names

end NameMap

/-! ## Like scopes -/

namespace Meaning

variable {unit : Nat} {heads : List Node}

/-- Like bindings, inside the scope with the same number. -/
structure SameScope (unit : Nat) (heads : List Node) (b : Bindings) (sc : Scope) : Prop where
  bindings : b.values.Alike (Means unit heads) sc.bindings
  parent : sc.parent = b.parent.map (⟨·, 0⟩)

/-- Like scopes under the same numbers. -/
structure Alike (unit : Nat) (heads : List Node) (trees : Array Bindings)
    (scopes : Array Scope) : Prop where
  size : trees.size = scopes.size
  same : ∀ (n : Nat) (b : Bindings) (sc : Scope), trees[n]? = some b → scopes[n]? = some sc →
    SameScope unit heads b sc

variable {trees : Array Bindings} {scopes : Array Scope}

theorem alike_start : Alike unit heads #[⟨[], none⟩] #[⟨[], none⟩] := by
  have hzero : ∀ {α : Type} {x y : α} {n : Nat}, #[x][n]? = some y → y = x := by
    intro α x y n h
    have hmem := Array.mem_of_getElem? h
    simpa using hmem
  refine ⟨rfl, fun n b sc hb hsc => ?_⟩
  rw [hzero hb, hzero hsc]
  exact ⟨.nil, rfl⟩

/-- Either both have a scope with this number or neither has. -/
theorem Alike.get? (h : Alike unit heads trees scopes) (n : Nat) :
    (trees[n]? = none ∧ scopes[n]? = none) ∨ ∃ b sc, trees[n]? = some b ∧ scopes[n]? = some sc := by
  have hsize := h.size
  by_cases hn : n < trees.size
  · have hn' : n < scopes.size := by omega
    exact .inr ⟨_, _, Array.getElem?_eq_getElem hn, Array.getElem?_eq_getElem hn'⟩
  · have htrees : trees.size ≤ n := by omega
    have hscopes : scopes.size ≤ n := by omega
    exact .inl ⟨Array.getElem?_eq_none htrees, Array.getElem?_eq_none hscopes⟩

theorem Alike.ownerOf (h : Alike unit heads trees scopes) (name : String) (n : Nat) :
    Ideal.ownerOf scopes name ⟨n, 0⟩ = (Meaning.ownerOf trees n name).map (⟨·, 0⟩) := by
  induction n using Nat.strongRecOn with
  | _ n ih =>
    unfold Ideal.ownerOf Meaning.ownerOf
    rcases h.get? n with ⟨hb, hsc⟩ | ⟨b, sc, hb, hsc⟩
    · simp only [hb, hsc]
      rfl
    · have hsame := h.same n b sc hb hsc
      simp only [hb, hsc, hsame.bindings.contains, hsame.parent]
      split
      · rfl
      · cases b.parent with
        | none => rfl
        | some parent =>
          simp only [Option.map_some]
          split
          · next hlt => exact ih parent hlt
          · rfl

theorem Alike.lookup? (h : Alike unit heads trees scopes) (name : String) (n : Nat) :
    (Meaning.lookup? trees n name = none ∧ Ideal.lookup? scopes name ⟨n, 0⟩ = none) ∨
    ∃ d v, Meaning.lookup? trees n name = some d ∧ Ideal.lookup? scopes name ⟨n, 0⟩ = some v ∧
      Means unit heads d v := by
  unfold Meaning.lookup? Ideal.lookup?
  rw [h.ownerOf]
  cases Meaning.ownerOf trees n name with
  | none => exact .inl ⟨rfl, rfl⟩
  | some owner =>
    rcases h.get? owner with ⟨hb, hsc⟩ | ⟨b, sc, hb, hsc⟩
    · refine .inl ⟨?_, ?_⟩
      · simp [hb]
      · simp [hsc]
    · rcases (h.same owner b sc hb hsc).bindings.get? name with ⟨hd, hv⟩ | ⟨d, v, hd, hv, hmeans⟩
      · refine .inl ⟨?_, ?_⟩
        · simp [hb, hd]
        · simp [hsc, hv]
      · refine .inr ⟨d, v, ?_, ?_, hmeans⟩
        · simp [hb, hd]
        · simp [hsc, hv]

/-- Binding like things to one name in scopes with one number. -/
theorem Alike.bind (h : Alike unit heads trees scopes) {d : Datum} {v : Value}
    (hmeans : Means unit heads d v) (n : Nat) (name : String) :
    Alike unit heads (trees.modify n fun b => { b with values := b.values.put name d })
      (Ideal.bound scopes n name v) := by
  unfold Ideal.bound
  refine ⟨by rw [Array.size_modify, Array.size_modify, h.size], fun k b sc hb hsc => ?_⟩
  rw [Array.getElem?_modify] at hb hsc
  split at hb
  · next hk =>
    rw [if_pos hk] at hsc
    obtain ⟨b', hb', rfl⟩ := Option.map_eq_some_iff.mp hb
    obtain ⟨sc', hsc', rfl⟩ := Option.map_eq_some_iff.mp hsc
    obtain ⟨hbindings, hparent⟩ := h.same k b' sc' hb' hsc'
    exact ⟨hbindings.put name hmeans, hparent⟩
  · next hk =>
    rw [if_neg hk] at hsc
    exact h.same k b sc hb hsc

/-- A new scope on both sides. -/
theorem Alike.push (h : Alike unit heads trees scopes) {args : List Datum} {values : List Value}
    (hargs : List.Forall₂ (Means unit heads) args values) (params : List String) (parent : Nat) :
    Alike unit heads (trees.push ⟨NameMap.putAll [] (params.zip args), some parent⟩)
      (scopes.push ⟨NameMap.putAll [] (params.zip values), some ⟨parent, 0⟩⟩) := by
  have hsize := h.size
  refine ⟨by rw [Array.size_push, Array.size_push, hsize], fun n b sc hb hsc => ?_⟩
  rw [Array.getElem?_push] at hb hsc
  split at hb
  · next hn =>
    rw [if_pos (hsize ▸ hn)] at hsc
    cases hb
    cases hsc
    exact ⟨NameMap.Alike.putAll .nil hargs params, rfl⟩
  · next hn =>
    rw [if_neg (hsize ▸ hn)] at hsc
    exact h.same n b sc hb hsc

end Meaning

end LiveLisp
