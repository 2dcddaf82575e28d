/-
  Calls in tail position. The tree of a function says which calls it ends in: the last form of its
  body, if that is a call, or what the branches or the last form of that end in (`Node.tailCalls`).
  Of the calls in compiled code these and no others are tail calls (`Part.Marks`), and all bodies in
  the code of a program have been compiled from its functions (`Code.makes_functions`). So the body
  of a function makes tail calls where it ends in them, and ordinary calls elsewhere
  (`Code.FunctionIn.tailCallAt_iff`).
-/
import LiveLisp.Proofs.Code.Sites

namespace LiveLisp

namespace Node

mutual
/-- Where the calls stand that a form ends in: itself, or those that its branches or the last of its
forms end in. -/
def tailCalls : Node → List Span
  | list (head :: items) span =>
    match head.keyword? with
    | none => [span]
    | some .branch =>
      match items with
      | _ :: branches => allTailCalls branches
      | [] => []
    | some .sequence => lastCalls items
    | some _ => []
  | _ => []
/-- The calls that one of these forms ends in. -/
def allTailCalls : List Node → List Span
  | [] => []
  | node :: nodes => tailCalls node ++ allTailCalls nodes
/-- The calls that the last of these forms ends in. -/
def lastCalls : List Node → List Span
  | [] => []
  | [last] => tailCalls last
  | _ :: nodes => lastCalls nodes
end

/-- The forms of the body, if the node makes a function. -/
def body? : Node → Option (List Node)
  | list (head :: items) _ =>
    match head.keyword?, items with
    | some .lambda, _ :: body => some body
    | some .defn, _ :: _ :: body => some body
    | _, _ => none
  | _ => none

/-- In the function that is made at this place, the call at that place is in tail position. -/
def TailCallAt (root : Node) (function place : Span) : Prop :=
  ∃ node ∈ root.subnodes, node.span = function ∧ ∃ body ∈ node.body?, place ∈ lastCalls body

instance (root : Node) (function place : Span) : Decidable (root.TailCallAt function place) :=
  inferInstanceAs (Decidable (∃ node ∈ root.subnodes, node.span = function ∧
    ∃ body ∈ node.body?, place ∈ lastCalls body))

variable {head node : Node} {items nodes : List Node} {span place : Span}

theorem lastCalls_cons_cons (node other : Node) (nodes : List Node) :
    lastCalls (node :: other :: nodes) = lastCalls (other :: nodes) := by
  rw [lastCalls]
  simp

mutual
/-- The calls that a form ends in stand in it. -/
theorem start_mem_of_tailCalls (node : Node) (h : place ∈ node.tailCalls) :
    place.start ∈ node.starts := by
  match node with
  | list (head :: items) span =>
    rw [starts]
    rw [tailCalls.eq_def] at h
    dsimp only at h
    split at h
    · rw [List.mem_singleton.mp h]
      exact List.mem_cons_self ..
    · match items with
      | [] => cases h
      | condition :: branches =>
        have hbranches := start_mem_of_allTailCalls branches h
        rw [allStarts, allStarts]
        simp [hbranches]
    · have hitems := start_mem_of_lastCalls items h
      rw [allStarts]
      simp [hitems]
    · cases h
  | list [] span => cases h
  | identifier name span => cases h
  | number value span => cases h
  | text content span => cases h
theorem start_mem_of_allTailCalls (nodes : List Node) (h : place ∈ allTailCalls nodes) :
    place.start ∈ allStarts nodes := by
  match nodes with
  | [] => cases h
  | node :: nodes =>
    rw [allTailCalls, List.mem_append] at h
    rw [allStarts, List.mem_append]
    exact h.imp (start_mem_of_tailCalls node) (start_mem_of_allTailCalls nodes)
theorem start_mem_of_lastCalls (nodes : List Node) (h : place ∈ lastCalls nodes) :
    place.start ∈ allStarts nodes := by
  match nodes with
  | [] => cases h
  | [last] =>
    rw [lastCalls] at h
    rw [allStarts, List.mem_append]
    exact .inl (start_mem_of_tailCalls last h)
  | node :: other :: nodes =>
    rw [lastCalls_cons_cons] at h
    rw [allStarts, List.mem_append]
    exact .inr (start_mem_of_lastCalls (other :: nodes) h)
end

section Forms

variable {tail : Bool}

theorem tailCalls_call (hk : head.keyword? = none) :
    (list (head :: items) span).tailCalls = [span] := by
  rw [tailCalls.eq_def]
  simp only [hk]

theorem tailCalls_branch {condition : Node} (hk : head.keyword? = some .branch) :
    (list (head :: condition :: items) span).tailCalls = allTailCalls items := by
  rw [tailCalls.eq_def]
  simp only [hk]

theorem tailCalls_sequence (hk : head.keyword? = some .sequence) :
    (list (head :: items) span).tailCalls = lastCalls items := by
  rw [tailCalls.eq_def]
  simp only [hk]

/-- Forms that neither call nor run other forms last. -/
theorem tailCalls_other {keyword : Keyword} (hk : head.keyword? = some keyword)
    (hbranch : keyword ≠ .branch) (hsequence : keyword ≠ .sequence) :
    (list (head :: items) span).tailCalls = [] := by
  rw [tailCalls.eq_def]
  cases keyword with
  | branch => exact absurd rfl hbranch
  | sequence => exact absurd rfl hsequence
  | _ => simp only [hk]

end Forms

end Node

/-! ## The calls of a part -/

/-- Where the calls in tail position of a part stand. -/
def Part.tailCalls : Part → List Span
  | .form tail node => if tail then node.tailCalls else []
  | .body tail _ nodes => if tail then Node.lastCalls nodes else []
  | .arguments _ => []

/-- Of the calls that start at these places, those in tail position, and no others, are tail calls.
-/
structure Marked (starts : List Nat) (tails : List Span) (is : List Instruction) : Prop where
  call : ∀ i ∈ is, ∀ argc, i.op = .call argc → i.origin.start ∈ starts ∧ i.origin ∉ tails
  tailCall : ∀ i ∈ is, ∀ argc, i.op = .tailCall argc → i.origin ∈ tails

namespace Marked

open Node

variable {starts starts' : List Nat} {tails tails' : List Span}
    {is js : List Instruction} {span : Span}

theorem nil : Marked starts tails [] :=
  ⟨nofun, nofun⟩

theorem append (h : Marked starts tails is) (h' : Marked starts tails js) :
    Marked starts tails (is ++ js) := by
  constructor
  · intro i hi
    exact (List.mem_append.mp hi).elim (h.call i) (h'.call i)
  · intro i hi
    exact (List.mem_append.mp hi).elim (h.tailCall i) (h'.tailCall i)

/-- An instruction that is no call. -/
theorem quiet {op : Op} (hop : op.argc? = none) : Marked starts tails [⟨op, span⟩] := by
  constructor
  · rintro i hi argc hcall
    rw [List.mem_singleton.mp hi] at hcall
    cases hcall
    cases hop
  · rintro i hi argc hcall
    rw [List.mem_singleton.mp hi] at hcall
    cases hcall
    cases hop

/-- Inside a larger part. What of that is in tail position and stands here has to be so here. -/
theorem within (h : Marked starts tails is) (hstarts : starts ⊆ starts') (htails : tails ⊆ tails')
    (happart : ∀ place ∈ tails', place.start ∈ starts → place ∈ tails) :
    Marked starts' tails' is := by
  constructor
  · intro i hi argc hcall
    obtain ⟨hstart, hother⟩ := h.call i hi argc hcall
    exact ⟨hstarts hstart, fun hplace => hother (happart _ hplace hstart)⟩
  · exact fun i hi argc hcall => htails (h.tailCall i hi argc hcall)

/-- A part that nothing is in tail position in. -/
theorem inside (h : Marked starts [] is) (hstarts : starts ⊆ starts')
    (happart : ∀ place ∈ tails', place.start ∉ starts) : Marked starts' tails' is :=
  h.within hstarts (List.nil_subset _) fun place hplace hstart =>
    absurd hstart (happart place hplace)

theorem invocation {tail : Bool} {argc : Nat} (hstart : span.start ∈ starts)
    (htail : tails = if tail then [span] else []) :
    Marked starts tails [⟨Compile.invocation tail argc, span⟩] := by
  subst htail
  cases tail with
  | true =>
    refine ⟨fun i hi argc hcall => ?_, fun i hi argc _ => ?_⟩
    · rw [List.mem_singleton.mp hi] at hcall
      cases hcall
    · rw [List.mem_singleton.mp hi]
      exact List.mem_singleton_self _
  | false =>
    refine ⟨fun i hi argc _ => ?_, fun i hi argc hcall => ?_⟩
    · rw [List.mem_singleton.mp hi]
      exact ⟨hstart, List.not_mem_nil⟩
    · rw [List.mem_singleton.mp hi] at hcall
      cases hcall

theorem function (unit : Nat) (name : Option String) (params : List String) (paramsSpan : Span)
    (body : List Instruction) :
    Marked starts tails (Compile.function unit name params paramsSpan body span) := by
  show Marked starts tails ([_] ++ [_] ++ [_])
  exact .append (.append (.quiet rfl) (.quiet rfl)) (.quiet rfl)

theorem branch {cs ys ns : List Instruction} (hc : Marked starts tails cs)
    (hy : Marked starts tails ys) (hn : Marked starts tails ns) :
    Marked starts tails (Compile.branch span cs ys ns) :=
  (((hc.append (.quiet rfl)).append hy).append (.quiet rfl)).append hn

end Marked

namespace Node

variable {head node : Node} {items nodes others : List Node} {span place : Span}

theorem allStarts_sublist (h : nodes.Sublist items) :
    (allStarts nodes).Sublist (allStarts items) := by
  induction h with
  | slnil => exact .slnil
  | cons node _ ih => exact ih.trans (List.sublist_append_right ..)
  | cons_cons node _ ih => exact (List.Sublist.refl node.starts).append ih

theorem allStarts_list_sublist (h : nodes.Sublist items) (span : Span) :
    (allStarts nodes).Sublist (allStarts [.list items span]) := by
  rw [allStarts, starts, allStarts, List.append_nil]
  exact (allStarts_sublist h).cons _

/-- Nothing in a list begins where the list does. -/
theorem start_notMem (h : (allStarts [.list items span]).Nodup) : span.start ∉ allStarts items := by
  rw [allStarts, starts, allStarts, List.append_nil] at h
  exact (List.nodup_cons.mp h).1

/-- Nodes that begin at different places have none in common. -/
theorem notMem_of_nodup (nodes : List Node) (h : (allStarts (nodes ++ others)).Nodup) {n : Nat}
    (hn : n ∈ allStarts others) : n ∉ allStarts nodes := by
  rw [allStarts_append] at h
  exact fun hnodes => List.disjoint_of_nodup_append h hnodes hn

end Node

namespace Part

open Node

variable {part : Part} {tail : Bool} {head condition yes no : Node}
    {items : List Node} {span place : Span}

theorem start_mem_of_tailCalls (h : place ∈ part.tailCalls) :
    place.start ∈ allStarts part.nodes := by
  cases part with
  | form tail node =>
    cases tail with
    | true =>
      rw [Part.nodes, allStarts, allStarts, List.append_nil]
      exact Node.start_mem_of_tailCalls node h
    | false => cases h
  | body tail span nodes =>
    cases tail with
    | true => exact start_mem_of_lastCalls nodes h
    | false => cases h
  | arguments nodes => cases h

theorem tailCalls_call (hk : head.keyword? = none) :
    (form tail (.list (head :: items) span)).tailCalls = if tail then [span] else [] := by
  rw [tailCalls, Node.tailCalls_call hk]

theorem tailCalls_sequence (hk : head.keyword? = some .sequence) :
    (form tail (.list (head :: items) span)).tailCalls = (body tail span items).tailCalls := by
  rw [tailCalls, tailCalls, Node.tailCalls_sequence hk]

theorem tailCalls_ifThen (hk : head.keyword? = some .branch) :
    (form tail (.list [head, condition, yes] span)).tailCalls = (form tail yes).tailCalls := by
  rw [tailCalls, tailCalls, Node.tailCalls_branch hk, allTailCalls, allTailCalls, List.append_nil]

theorem tailCalls_ifThenElse (hk : head.keyword? = some .branch) :
    (form tail (.list [head, condition, yes, no] span)).tailCalls =
      (form tail yes).tailCalls ++ (form tail no).tailCalls := by
  cases tail with
  | true =>
    simp only [tailCalls, Node.tailCalls_branch hk, allTailCalls, if_true, List.append_nil]
  | false => rfl

/-- Forms that neither call nor run other forms last. -/
theorem tailCalls_other {keyword : Keyword} (hk : head.keyword? = some keyword)
    (hbranch : keyword ≠ .branch) (hsequence : keyword ≠ .sequence) :
    (form tail (.list (head :: items) span)).tailCalls = [] := by
  rw [tailCalls, Node.tailCalls_other hk hbranch hsequence, ite_self]

end Part

namespace Marked

open Node

variable {tails : List Span} {items : List Node} {is : List Instruction} {span : Span}

/-- The code of forms in a list. -/
theorem below (nodes : List Node) {tails' : List Span}
    (h : (allStarts nodes).Nodup → Marked (allStarts nodes) tails' is)
    (hplaces : (allStarts [.list items span]).Nodup) (hnodes : nodes.Sublist items)
    (htails : tails' ⊆ tails)
    (happart : ∀ place ∈ tails, place.start ∈ allStarts nodes → place ∈ tails') :
    Marked (allStarts [.list items span]) tails is :=
  have hbelow := allStarts_list_sublist hnodes span
  (h (hplaces.sublist hbelow)).within hbelow.subset htails happart

/-- The code of forms in a list that none of its calls in tail position stand in. -/
theorem apart (nodes : List Node) (h : (allStarts nodes).Nodup → Marked (allStarts nodes) [] is)
    (hplaces : (allStarts [.list items span]).Nodup) (hnodes : nodes.Sublist items)
    (happart : ∀ place ∈ tails, place.start ∉ allStarts nodes) :
    Marked (allStarts [.list items span]) tails is :=
  below nodes h hplaces hnodes (List.nil_subset _) fun place hplace hstart =>
    absurd hstart (happart place hplace)

/-- The code of the callee or of the arguments of a call. -/
theorem operands (nodes : List Node) (h : (allStarts nodes).Nodup → Marked (allStarts nodes) [] is)
    (hplaces : (allStarts [.list items span]).Nodup) (hnodes : nodes.Sublist items) (tail : Bool) :
    Marked (allStarts [.list items span]) (if tail then [span] else []) is := by
  refine apart nodes h hplaces hnodes fun place hplace hstart => ?_
  cases tail with
  | true =>
    rw [List.mem_singleton.mp hplace] at hstart
    exact start_notMem hplaces ((allStarts_sublist hnodes).subset hstart)
  | false => cases hplace

end Marked

/-- Where all nodes begin at different places, compiled code is marked right. -/
theorem marked_of_compiles {unit : Nat} {part : Part} {is : List Instruction}
    (h : Compiles unit part is) (hplaces : (Node.allStarts part.nodes).Nodup) :
    Marked (Node.allStarts part.nodes) part.tailCalls is := by
  induction h with
  | number => exact .quiet rfl
  | text => exact .quiet rfl
  | literal => exact .quiet rfl
  | name => exact .quiet rfl
  | @define tail head value name nameSpan span is hk _ ih =>
    rw [Part.tailCalls_other hk (by decide) (by decide)]
    exact .append (.apart [value] ih hplaces (by simp) (List.forall_mem_nil _)) (.quiet rfl)
  | @assign tail head value name nameSpan span is hk _ ih =>
    rw [Part.tailCalls_other hk (by decide) (by decide)]
    exact .append (.apart [value] ih hplaces (by simp) (List.forall_mem_nil _)) (.quiet rfl)
  | lambda => exact .function ..
  | defn => exact .function ..
  | @ifThen tail head condition yes span cs ys hk _ _ _ ihc ihy =>
    have hapart := hplaces.sublist (Node.allStarts_list_sublist
      (List.sublist_cons_self head [condition, yes]) span)
    rw [Part.tailCalls_ifThen hk]
    refine .branch (.apart [condition] ihc hplaces (by simp) fun place hplace => ?_)
      (.below [yes] ihy hplaces (by simp) (List.Subset.refl _) fun _ hplace _ => hplace)
        (.quiet rfl)
    exact Node.notMem_of_nodup [condition] hapart (Part.start_mem_of_tailCalls hplace)
  | @ifThenElse tail head condition yes no span cs ys ns hk _ _ _ _ _ ihc ihy ihn =>
    have hapart := hplaces.sublist (Node.allStarts_list_sublist
      (List.sublist_cons_self head [condition, yes, no]) span)
    have hbranches :=
      hapart.sublist (Node.allStarts_sublist (List.sublist_cons_self condition [yes, no]))
    have hstart {place : Span} (h : place ∈ (Part.form tail yes).tailCalls ++
      (Part.form tail no).tailCalls) :
        place.start ∈ Node.allStarts [yes, no] := by
      show place.start ∈ Node.allStarts ([yes] ++ [no])
      rw [Node.allStarts_append, List.mem_append]
      exact (List.mem_append.mp h).imp Part.start_mem_of_tailCalls Part.start_mem_of_tailCalls
    rw [Part.tailCalls_ifThenElse hk]
    refine .branch (.apart [condition] ihc hplaces (by simp) fun place hplace => ?_)
      (.below [yes] ihy hplaces (by simp) (List.subset_append_left ..) fun place hplace hyes => ?_)
      (.below [no] ihn hplaces (by simp) (List.subset_append_right ..) fun place hplace hno => ?_)
    · exact Node.notMem_of_nodup [condition] hapart (hstart hplace)
    · refine (List.mem_append.mp hplace).resolve_right fun hother => ?_
      exact Node.notMem_of_nodup [yes] hbranches (Part.start_mem_of_tailCalls hother) hyes
    · refine (List.mem_append.mp hplace).resolve_left fun hother => ?_
      exact Node.notMem_of_nodup [yes] hbranches hno (Part.start_mem_of_tailCalls hother)
  | @sequence tail head items span is hk _ ih =>
    rw [Part.tailCalls_sequence hk]
    exact .below items ih hplaces (List.sublist_cons_self head items)
      (List.Subset.refl _) fun _ hplace _ => hplace
  | @callName tail name items headSpan span args hk _ ih =>
    have hhead : (Node.identifier name headSpan).keyword? = none := hk
    rw [Part.tailCalls_call hhead]
    refine .append (.append (.quiet rfl)
      (.operands items ih hplaces (List.sublist_cons_self ..) tail)) (.invocation ?_ rfl)
    exact List.mem_cons_self ..
  | @call tail head items span callee args hname _ _ ihc iha =>
    have hhead : head.keyword? = none := by
      rw [Node.keyword?, hname]
      rfl
    rw [Part.tailCalls_call hhead]
    refine .append (.append (.operands [head] ihc hplaces (by simp) tail)
      (.operands items iha hplaces (List.sublist_cons_self ..) tail)) (.invocation ?_ rfl)
    exact List.mem_cons_self ..
  | nothing => exact .quiet rfl
  | last _ ih => exact ih hplaces
  | @next tail span node other nodes is js _ _ ih ihs =>
    have hnode : (Node.allStarts [node]).Sublist _ :=
      Node.allStarts_sublist (by simp : [node].Sublist (node :: other :: nodes))
    have hnodes := Node.allStarts_sublist (List.sublist_cons_self node (other :: nodes))
    have htails : (Part.body tail span (node :: other :: nodes)).tailCalls =
        (Part.body tail span (other :: nodes)).tailCalls := by
      rw [Part.tailCalls, Part.tailCalls, Node.lastCalls_cons_cons]
    rw [htails]
    refine .append (.append ((ih (hplaces.sublist hnode)).inside hnode.subset fun place hplace =>
      ?_) (.quiet rfl))
      ((ihs (hplaces.sublist hnodes)).within hnodes.subset (List.Subset.refl _) fun _ hplace _ =>
        hplace)
    exact Node.notMem_of_nodup [node] hplaces (Part.start_mem_of_tailCalls hplace)
  | noArguments => exact .nil
  | @argument node nodes is js _ _ ih ihs =>
    have hnode : (Node.allStarts [node]).Sublist _ :=
      Node.allStarts_sublist (by simp : [node].Sublist (node :: nodes))
    have hnodes := Node.allStarts_sublist (List.sublist_cons_self node nodes)
    exact .append ((ih (hplaces.sublist hnode)).inside hnode.subset (List.forall_mem_nil _))
      ((ihs (hplaces.sublist hnodes)).inside hnodes.subset (List.forall_mem_nil _))

/-! ## The bodies in compiled code -/

/-- The code of a function that the program makes somewhere, named after the place of that. -/
inductive Code.FunctionIn (root : Node) (unit : Nat) : Code → Prop where
  | intro {node : Node} {body : List Node} {is : List Instruction} (hnode : node ∈ root.subnodes)
      (hbody : node.body? = some body) (his : Compiles unit (.body true node.span body) is) :
    FunctionIn root unit ⟨⟨unit, some node.span⟩, is ++ [⟨.ret, node.span⟩]⟩

/-- All bodies that are pushed, though not what is in them. -/
def Pushes (Q : Code → Prop) (is : List Instruction) : Prop :=
  ∀ i ∈ is, ∀ body, i.op = .push (.code body) → Q body

namespace Pushes

variable {Q : Code → Prop} {is js : List Instruction} {span : Span}

theorem nil : Pushes Q [] :=
  nofun

theorem append (h : Pushes Q is) (h' : Pushes Q js) : Pushes Q (is ++ js) :=
  fun i hi => (List.mem_append.mp hi).elim (h i) (h' i)

theorem single {op : Op} (hop : ∀ body, op = .push (.code body) → Q body) :
    Pushes Q [⟨op, span⟩] := by
  intro i hi
  rw [List.mem_singleton.mp hi]
  exact hop

theorem invocation (tail : Bool) (argc : Nat) :
    Pushes Q [⟨Compile.invocation tail argc, span⟩] := by
  cases tail with
  | true => exact single nofun
  | false => exact single nofun

theorem function {unit : Nat} {name : Option String} {params : List String} {paramsSpan : Span}
    {is : List Instruction} (h : Q ⟨⟨unit, some span⟩, is ++ [⟨.ret, span⟩]⟩) :
    Pushes Q (Compile.function unit name params paramsSpan is span) := by
  show Pushes Q ([_] ++ [_] ++ [_])
  refine .append (.append (.single nofun) (.single fun body hbody => ?_)) (.single nofun)
  cases hbody
  exact h

theorem branch {cs ys ns : List Instruction} (hc : Pushes Q cs) (hy : Pushes Q ys)
    (hn : Pushes Q ns) :
    Pushes Q (Compile.branch span cs ys ns) :=
  .append (.append (.append (.append hc (.single nofun)) hy) (.single nofun)) hn

end Pushes

theorem Part.In.mem_subnodes {root node : Node} {depth : Nat} {part : Part} (h : part.In root depth)
    (hnode : node ∈ part.nodes) : node ∈ root.subnodes :=
  Node.subnodes_subset_of_layer (h node hnode) (Node.self_mem_subnodes node)

/-- Whatever is pushed when forms of a program are compiled is the body of a function in it. -/
theorem pushes_of_compiles {root : Node} {unit : Nat} {part : Part} {is : List Instruction}
    (h : Compiles unit part is) {depth : Nat} (hin : part.In root depth) :
    Pushes (Code.FunctionIn root unit) is := by
  induction h generalizing depth with
  | number => exact .single nofun
  | text => exact .single nofun
  | literal => exact .single nofun
  | name => exact .single nofun
  | define _ _ ih => exact .append (ih (hin.item (by simp) false)) (.single nofun)
  | assign _ _ ih => exact .append (ih (hin.item (by simp) false)) (.single nofun)
  | lambda hk _ hb _ =>
    refine .function (.intro (hin.mem_subnodes (List.mem_singleton_self _)) ?_ hb)
    simp only [Node.body?, hk]
  | defn hk _ hb _ =>
    refine .function (.intro (hin.mem_subnodes (List.mem_singleton_self _)) ?_ hb)
    simp only [Node.body?, hk]
  | @ifThen tail _ _ _ _ _ _ _ _ _ _ ihc ihy =>
    exact .branch (ihc (hin.item (by simp) false)) (ihy (hin.item (by simp) tail)) (.single nofun)
  | @ifThenElse tail _ _ _ _ _ _ _ _ _ _ _ _ _ _ ihc ihy ihn =>
    exact .branch (ihc (hin.item (by simp) false)) (ihy (hin.item (by simp) tail))
      (ihn (hin.item (by simp) tail))
  | @sequence tail _ _ span _ _ _ ih => exact ih (hin.body (List.subset_cons_self ..) tail span)
  | callName _ _ ih =>
    exact .append (.append (.single nofun) (ih (hin.arguments (List.subset_cons_self ..))))
      (.invocation _ _)
  | call _ _ _ ihc iha =>
    exact .append (.append (ihc (hin.item (List.mem_cons_self ..) false))
      (iha (hin.arguments (List.subset_cons_self ..))))
      (.invocation _ _)
  | nothing => exact .single nofun
  | last _ ih => exact ih hin
  | next _ _ ih ihs =>
    obtain ⟨hnode, hnodes⟩ := List.forall_mem_cons.mp hin
    exact .append (.append (ih (List.forall_mem_singleton.mpr hnode)) (.single nofun)) (ihs hnodes)
  | noArguments => exact .nil
  | argument _ _ ih ihs =>
    obtain ⟨hnode, hnodes⟩ := List.forall_mem_cons.mp hin
    exact .append (ih (List.forall_mem_singleton.mpr hnode)) (ihs hnodes)

/-- Code makes functions from bodies that it pushes. If these push such bodies in turn, all bodies
in the code are such. -/
theorem Unmarks.makes_pushed {P : Option String → List String → Code → Prop} {Q : Code → Prop}
    {is js : List Instruction} (h : Unmarks P is js)
    (hQ : ∀ code, Q code → Pushes Q code.instructions) (hpushes : Pushes Q is) :
    Makes (fun _ _ code => Q code) is := by
  induction h with
  | ret => exact .ret
  | @plain op origin is js hop _ _ ihskip ihnext =>
    have hrest : Pushes Q is := fun i hi => hpushes i (List.mem_cons_of_mem _ hi)
    exact .plain hop (fun k hk => ihskip k hk fun i hi => hrest i (List.mem_of_mem_drop hi))
      (ihnext hrest)
  | tailCall _ _ ihnext =>
    exact .plain trivial nofun (ihnext fun i hi => hpushes i (List.mem_cons_of_mem _ hi))
  | function _ _ _ _ ihcode ihnext =>
    have hcode := hpushes _ (List.mem_cons_of_mem _ (List.mem_cons_self ..)) _ rfl
    exact .function hcode (ihcode (hQ _ hcode)) (ihnext fun i hi => hpushes i (by simp [hi]))

theorem Node.body_subset {node : Node} {body : List Node} (h : node.body? = some body) :
    body.Sublist node.children := by
  unfold Node.body? at h
  split at h
  · split at h
    · cases h
      exact (List.sublist_cons_self ..).trans (List.sublist_cons_self ..)
    · cases h
      exact ((List.sublist_cons_self ..).trans (List.sublist_cons_self ..)).trans
        (List.sublist_cons_self ..)
    · cases h
  · cases h

/-- What makes a function in a program stands in one of its forms. -/
theorem Node.mem_layer_of_body? {node : Node} {forms body : List Node} {doSpan span : Span}
    (h : node ∈ (list (.identifier "do" doSpan :: forms) span).subnodes)
    (hbody : node.body? = some body) :
    ∃ k, node ∈ forms.flatMap (layer k) := by
  rcases List.mem_cons.mp h with rfl | h
  · cases hbody
  · rcases List.mem_append.mp h with h | h
    · rw [List.mem_singleton.mp h] at hbody
      cases hbody
    · exact mem_allSubnodes_iff.mp h

namespace Code

open Node

variable {root : Node} {unit : Nat} {code : Code}

theorem FunctionIn.form (h : code.FunctionIn root unit) :
    ∃ function, code.id.form = some function := by
  obtain @⟨node⟩ := h
  exact ⟨node.span, rfl⟩

theorem FunctionIn.pushes (h : code.FunctionIn root unit) :
    Pushes (FunctionIn root unit) code.instructions := by
  obtain @⟨node, body, is, hnode, hbody, his⟩ := h
  obtain ⟨k, hk⟩ := exists_layer root hnode
  have hin : (Part.body true node.span body).In root k := fun form hform =>
    mem_layer_succ hk ((body_subset hbody).subset hform)
  exact .append (pushes_of_compiles his hin) (.single nofun)

/-- All functions that a program makes are those that stand in it. -/
theorem makes_functions {source : String} (hroot : Node.ofProgram source = .ok root)
    (h : ofProgram unit root = .ok code) :
    Makes (fun _ _ body => body.FunctionIn root unit) code.instructions := by
  refine (unmarks_of_ofProgram h).makes_pushed (fun _ => FunctionIn.pushes) ?_
  obtain ⟨forms, doSpan, span, rfl, -⟩ := nodup_starts_of_ofProgram hroot
  obtain ⟨is, his, h⟩ := except_bind_eq_ok h
  cases h
  have hforms : Compile.sequence unit false span forms = .ok is := by
    rw [Compile.expression.eq_def] at his
    exact his
  have hin : (Part.body false span forms).In (.list (.identifier "do" doSpan :: forms) span) 0 :=
    fun form hform =>
    mem_layer_succ (List.mem_singleton_self _) (List.mem_cons_of_mem _ hform)
  exact .append (pushes_of_compiles (compiles_sequence hforms) hin) (.single nofun)

/-- The body of a function makes tail calls where it ends in them, and ordinary calls elsewhere. -/
theorem FunctionIn.tailCallAt_iff {source : String} (hroot : Node.ofProgram source = .ok root)
    (h : code.FunctionIn root unit) {function : Span}
    (hfunction : code.id.form = some function) {i : Instruction} (hi : i ∈ code.instructions)
    {argc : Nat} (hcall : i.op.argc? = some argc) :
    root.TailCallAt function i.origin ↔ i.op = .tailCall argc := by
  obtain @⟨node, body, is, hnode, hbody, his⟩ := h
  cases hfunction
  obtain ⟨forms, doSpan, span, rfl, hplaces⟩ := nodup_starts_of_ofProgram hroot
  obtain ⟨k, hk⟩ := mem_layer_of_body? hnode hbody
  have hbelow := nodup_starts_of_layer hplaces hk
  rw [starts_eq, List.nodup_cons] at hbelow
  have hmarked := marked_of_compiles his (hbelow.2.sublist (allStarts_sublist (body_subset hbody)))
  have hcalls : i ∈ is := by
    refine (List.mem_append.mp hi).resolve_right fun hret => ?_
    rw [List.mem_singleton.mp hret] at hcall
    cases hcall
  constructor
  · rintro ⟨node', hnode', hspan, body', hbody', htail⟩
    -- functions are told apart by their places
    obtain ⟨k', hk'⟩ := mem_layer_of_body? hnode' hbody'
    obtain ⟨rfl, -⟩ := eq_of_start hplaces hk' hk (congrArg Span.start hspan)
    cases hbody.symm.trans hbody'
    obtain ⟨op, origin⟩ := i
    cases op with
    | call _ => exact absurd htail (hmarked.call _ hcalls _ rfl).2
    | tailCall _ =>
      cases hcall
      rfl
    | _ => cases hcall
  · exact fun htail => ⟨node, hnode, rfl, body, hbody, hmarked.tailCall i hcalls argc htail⟩

end Code

end LiveLisp
