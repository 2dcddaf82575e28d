/-
  What signatures show of forms that are alike, and what they hide of those that are not. Forms that
  are alike have masks, functions and signatures that are. A mask hides what functions do; but two
  forms with like masks are alike if those of their functions that have one name have like
  signatures (`Form.alike_of_mask`), by induction on how deep the functions are nested.
-/
import Mathlib.Data.List.Forall2
import LiveLisp.Proofs.Tree.Signatures

namespace LiveLisp

namespace Form

variable {f g : Form} {fs gs : List Form}

theorem allAlike_cons : allAlike (f :: fs) (g :: gs) = true ↔ f.alike g = true ∧
    allAlike fs gs = true := by
  rw [allAlike, Bool.and_eq_true]

theorem isDefn_masks (items : List Form) : (list (masks items)).isDefn = (list items).isDefn := by
  cases items with
  | nil => rfl
  | cons head rest =>
    cases head with
    | list items =>
      rw [masks, mask_list]
      split <;> rfl
    | _ => rfl

theorem isDefn_mask (f : Form) : f.mask.isDefn = f.isDefn := by
  cases f with
  | list items =>
    rw [mask_list]
    split
    · cases items with
      | nil => rfl
      | cons head rest => cases head <;> rfl
    · exact isDefn_masks items
  | _ => rfl

theorem isDefn_eq_of_alike (h : f.alike g = true) : f.isDefn = g.isDefn := by
  cases f with
  | list items =>
    cases g with
    | list others =>
      cases items with
      | nil =>
        cases others with
        | nil => rfl
        | cons => cases h
      | cons head rest =>
        cases others with
        | nil => cases h
        | cons head' rest' =>
          have hhead := (allAlike_cons.mp h).1
          cases head with
          | identifier name =>
            cases head' with
            | identifier name' =>
              rw [beq_iff_eq.mp hhead]
              rfl
            | _ => cases hhead
          | _ => cases head' <;> first | rfl | cases hhead
    | _ => cases h
  | _ => cases g <;> first | rfl | cases h

/-- The same name, and signatures that are alike. -/
def SameFunction (e e' : String × Form) : Prop :=
  e.1 = e'.1 ∧ e.2.alike e'.2 = true

theorem allAlike_iff :
    allAlike fs gs = true ↔ List.Forall₂ (fun f g => f.alike g = true) fs gs := by
  induction fs generalizing gs with
  | nil =>
    cases gs with
    | nil => exact ⟨fun _ => .nil, fun _ => rfl⟩
    | cons => exact ⟨nofun, nofun⟩
  | cons f fs ih =>
    cases gs with
    | nil => exact ⟨nofun, nofun⟩
    | cons g gs => rw [allAlike_cons, List.forall₂_cons, ih]

mutual
/-- Forms that are alike stay so when their functions are cut. -/
theorem mask_alike (f g : Form) (h : f.alike g = true) : f.mask.alike g.mask = true := by
  cases f with
  | list items =>
    cases g with
    | list others =>
      rw [mask_list, mask_list, isDefn_eq_of_alike h]
      split
      · exact allAlike_iff.mpr (List.forall₂_take 3 (allAlike_iff.mp h))
      · exact masks_alike items others h
    | _ => cases h
  | _ =>
    cases g with
    | list => cases h
    | _ => exact h
theorem masks_alike (fs gs : List Form) (h : allAlike fs gs = true) : allAlike (masks fs)
    (masks gs) = true := by
  cases fs with
  | nil =>
    cases gs with
    | nil => rfl
    | cons => cases h
  | cons f fs =>
    cases gs with
    | nil => cases h
    | cons g gs =>
      obtain ⟨hf, hfs⟩ := allAlike_cons.mp h
      exact allAlike_cons.mpr ⟨mask_alike f g hf, masks_alike fs gs hfs⟩
end

theorem function?_alike (h : f.alike g = true) :
    Option.Rel SameFunction f.function? g.function? := by
  cases f with
  | list items =>
    cases g with
    | list others =>
      have hall := allAlike_iff.mp h
      cases hall with
      | nil => exact .none
      | @cons head head' _ _ _ hrest =>
        cases hrest with
        | nil => exact .none
        | @cons second second' rest rest' hsecond _ =>
          cases second with
          | identifier name =>
            cases second' with
            | identifier name' => exact .some ⟨beq_iff_eq.mp hsecond, masks_alike _ _ h⟩
            | _ => cases hsecond
          | _ => cases second' <;> first | exact .none | cases hsecond
    | _ => cases h
  | _ => cases g <;> first | exact .none | cases h

theorem alike_identifiers (names : List String) : allAlike (names.map identifier)
    (names.map identifier) = true := by
  induction names with
  | nil => rfl
  | cons name names ih => exact allAlike_cons.mpr ⟨beq_self_eq_true name, ih⟩

/-- Definitions of one name with the same parameters are told apart by their masked bodies. -/
theorem signature_alike (name : String) (params : List String) (body body' : List Form) :
    (signature name params body).alike (signature name params body') = allAlike (masks body)
    (masks body') := by
  have hname (name : String) : (identifier name).alike (identifier name) = true :=
    beq_self_eq_true name
  have hparams := mask_alike (list (params.map identifier)) (list (params.map identifier))
    (alike_identifiers params)
  show ((identifier "defn").alike (identifier "defn") &&
    ((identifier name).alike (identifier name) &&
    ((list (params.map identifier)).mask.alike (list (params.map identifier)).mask &&
      allAlike (masks body) (masks body')))) = _
  rw [hname, hname, hparams]
  rfl

/-- The name under which a definition is masked. -/
theorem name_eq_of_mask {name name' : String} {params params' : List String}
    {body body' : List Form}
    (h : (definition name params body).mask.alike (definition name' params' body').mask = true) :
    name = name' :=
  beq_iff_eq.mp (allAlike_cons.mp (allAlike_cons.mp h).2).1

/-- Functions of one name have signatures that are alike. -/
def Agree (known known' : List (String × Form)) : Prop :=
  ∀ e ∈ known, ∀ e' ∈ known', e.1 = e'.1 → e.2.alike e'.2 = true

variable {known known' : List (String × Form)}

mutual
/-- What the masks of two forms hide is in the signatures of the functions that they mask. -/
theorem alike_of_mask (hagree : Agree known known') (f g : Form)
    (hf : ∀ e ∈ f.defns, e.IsDefinition) (hg : ∀ e ∈ g.defns, e.IsDefinition)
    (hknown : f.functions ⊆ known) (hknown' : g.functions ⊆ known')
    (h : f.mask.alike g.mask = true) : f.alike g = true := by
  cases f with
  | list items =>
    cases g with
    | list others =>
      have hisDefn := isDefn_eq_of_alike h
      rw [isDefn_mask, isDefn_mask] at hisDefn
      have hrest : allAlike (masks items) (masks others) = true → allAlike items others = true :=
        allAlike_of_masks hagree items others (fun e he => hf e (allDefns_subset items he))
          (fun e he => hg e (allDefns_subset others he))
            (List.Subset.trans (allFunctions_subset items) hknown)
          (List.Subset.trans (allFunctions_subset others) hknown')
      cases hdefn : (list items).isDefn with
      | true =>
        obtain ⟨name, params, body, hfree, heq⟩ := hf _ (self_mem_defns hdefn)
        obtain ⟨name', params', body', hfree', heq'⟩ := hg _ (self_mem_defns (hisDefn ▸ hdefn))
        rw [heq, heq'] at h
        obtain rfl := name_eq_of_mask h
        refine hrest (hagree (name, list (masks items)) (hknown ?_) (name,
          list (masks others)) (hknown' ?_) rfl)
        · rw [heq, functions_definition hfree, signature, ← Form.list.inj heq]
          exact List.mem_cons_self ..
        · rw [heq', functions_definition hfree', signature, ← Form.list.inj heq']
          exact List.mem_cons_self ..
      | false =>
        rw [mask_list, mask_list, ← hisDefn, hdefn] at h
        exact hrest h
    | _ =>
      rw [mask_list] at h
      split at h <;> cases h
  | _ =>
    cases g with
    | list others =>
      rw [mask_list] at h
      split at h <;> cases h
    | _ => exact h
theorem allAlike_of_masks (hagree : Agree known known') (fs gs : List Form)
    (hf : ∀ e ∈ allDefns fs, e.IsDefinition) (hg : ∀ e ∈ allDefns gs, e.IsDefinition)
    (hknown : allFunctions fs ⊆ known) (hknown' : allFunctions gs ⊆ known')
    (h : allAlike (masks fs) (masks gs) = true) : allAlike fs gs = true := by
  cases fs with
  | nil =>
    cases gs with
    | nil => rfl
    | cons => cases h
  | cons f fs =>
    cases gs with
    | nil => cases h
    | cons g gs =>
      obtain ⟨hmask, hmasks⟩ := allAlike_cons.mp h
      rw [allDefns_cons, List.forall_mem_append] at hf hg
      rw [allFunctions_cons, List.append_subset] at hknown hknown'
      exact allAlike_cons.mpr ⟨alike_of_mask hagree f g hf.1 hg.1 hknown.1 hknown'.1 hmask,
        allAlike_of_masks hagree fs gs hf.2 hg.2 hknown.2 hknown'.2 hmasks⟩
end

/-! ## Keeping functions -/

/-- The same forms, in whatever order. -/
def Keeps (before after : List Form) : Prop :=
  ∃ same, before.Perm same ∧ allAlike same after = true

mutual
theorem defns_alike (f g : Form) (h : f.alike g = true) :
    List.Forall₂ (fun f g => f.alike g = true) f.defns g.defns := by
  cases f with
  | list items =>
    cases g with
    | list others =>
      have hitems := allDefns_alike items others h
      rw [defns_list, defns_list, isDefn_eq_of_alike h]
      split
      · exact .cons h hitems
      · exact hitems
    | _ => cases h
  | _ => cases g <;> first | exact .nil | cases h
theorem allDefns_alike (fs gs : List Form) (h : allAlike fs gs = true) :
    List.Forall₂ (fun f g => f.alike g = true) (allDefns fs) (allDefns gs) := by
  cases fs with
  | nil =>
    cases gs with
    | nil => exact .nil
    | cons => cases h
  | cons f fs =>
    cases gs with
    | nil => cases h
    | cons g gs =>
      obtain ⟨hf, hfs⟩ := allAlike_cons.mp h
      exact List.rel_append (defns_alike f g hf) (allDefns_alike fs gs hfs)
end

theorem filterMap_alike {fs gs : List Form} (h : List.Forall₂ (fun f g => f.alike g = true) fs gs) :
    List.Forall₂ SameFunction (fs.filterMap function?) (gs.filterMap function?) :=
  List.rel_filterMap (fun {_ _} h => function?_alike h) h

/-- What is alike to itself has functions that are. -/
theorem sameFunction_self {form : Form} (h : form.alike form = true) :
    ∀ e ∈ form.functions, SameFunction e e :=
  List.forall₂_same.mp (filterMap_alike (defns_alike form form h))

/-- Functions that are kept have the same names, and each is like one that was there. -/
theorem Keeps.functions {before after : List Form} (h : Keeps (allDefns before) (allDefns after)) :
    ((allFunctions before).map Prod.fst).Perm ((allFunctions after).map Prod.fst) ∧
      ∀ e' ∈ allFunctions after, ∃ e ∈ allFunctions before, SameFunction e e' := by
  obtain ⟨same, hperm, halike⟩ := h
  have hsame := filterMap_alike (allAlike_iff.mp halike)
  have hperm := hperm.filterMap function?
  constructor
  · have hnames : (same.filterMap function?).map Prod.fst = (allFunctions after).map Prod.fst := by
      rw [← List.forall₂_eq_eq_eq, List.forall₂_map_left_iff, List.forall₂_map_right_iff]
      exact hsame.imp fun _ _ h => h.1
    exact hnames ▸ hperm.map Prod.fst
  · intro e' he'
    have hlike {l l' : List (String × Form)} (h : List.Forall₂ SameFunction l l') :
        e' ∈ l' → ∃ e ∈ l, SameFunction e e' := by
      induction h with
      | nil => exact nofun
      | cons hfirst _ ih =>
        rw [List.mem_cons]
        rintro (rfl | he')
        · exact ⟨_, List.mem_cons_self .., hfirst⟩
        · obtain ⟨e, he, hsame⟩ := ih he'
          exact ⟨e, List.mem_cons_of_mem _ he, hsame⟩
    obtain ⟨e, he, hsame'⟩ := hlike hsame he'
    exact ⟨e, hperm.mem_iff.mpr he, hsame'⟩

/-- Functions that are kept agree with those that were there, if no two have one name. -/
theorem Keeps.agree {before after : List Form} (h : Keeps (allDefns before) (allDefns after))
    (hnodup : ((allFunctions before).map Prod.fst).Nodup) : Agree (allFunctions before)
    (allFunctions after) := by
  intro e he e' he' hname
  obtain ⟨e₁, he₁, hsame⟩ := h.functions.2 e' he'
  obtain rfl := List.inj_on_of_nodup_map hnodup he₁ he (hsame.1.trans hname.symm)
  exact hsame.2

/-- Where functions are kept, what their masks hide makes no difference. -/
theorem Keeps.allAlike_masks {before after : List Form}
    (h : Keeps (allDefns before) (allDefns after))
    (hnodup : ((allFunctions before).map Prod.fst).Nodup)
    (hbefore : ∀ e ∈ allDefns before, e.IsDefinition)
    (hafter : ∀ e ∈ allDefns after, e.IsDefinition) : allAlike (masks before)
    (masks after) = allAlike before after :=
  Bool.eq_iff_iff.mpr ⟨allAlike_of_masks (h.agree hnodup) before after hbefore hafter
    (List.Subset.refl _)
    (List.Subset.refl _), masks_alike before after⟩

end Form

end LiveLisp
