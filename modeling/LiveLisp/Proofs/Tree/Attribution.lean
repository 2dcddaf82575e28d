/-
  To which functions an edit is attributed (`Definition.diff_exact`). An edit of the body of one
  function that keeps the functions inside it changes the signature of that function and of no
  other: the functions around it show only its head, name and parameters, and those inside it and
  beside it stay as they are. And an edit that no function is reported for, made to functions only,
  is none.
-/
import LiveLisp.Proofs.Tree.Discovery
import LiveLisp.Proofs.Tree.Equality
import LiveLisp.Proofs.Tree.Likeness
import LiveLisp.Proofs.Tree.Literals

namespace LiveLisp

/-- A node among others, and the forms before and after it. -/
theorem Node.forms_eq_append {nodes : List Node} {i : Nat} {node : Node}
    (h : nodes[i]? = some node) :
    ∃ before after, forms nodes = before ++ node.form :: after ∧ before.length = i := by
  obtain ⟨hi, rfl⟩ := List.getElem?_eq_some_iff.mp h
  refine ⟨forms (nodes.take i), forms (nodes.drop (i + 1)), ?_, ?_⟩
  · rw [← forms, ← List.drop_eq_getElem_cons hi, ← forms_append, List.take_append_drop]
  · rw [forms_eq_map, List.length_map, List.length_take_of_le (Nat.le_of_lt hi)]

namespace Form

/-- The form with another body for the definition at a path: what follows its head, name and
parameters. -/
def withBody (body : List Form) : List Nat → Form → Form
  | [], list items => list (items.take 3 ++ body)
  | i :: path, list items => list (items.modify i fun item => withBody body path item)
  | _, form => form

/-! ## Editing one body -/

variable {name : String} {params : List String}

theorem modify_length (before after : List Form) (form : Form) (change : Form → Form) :
    (before ++ form :: after).modify before.length change = before ++ change form :: after := by
  induction before with
  | nil => rfl
  | cons first before ih => exact congrArg (first :: ·) ih

theorem masks_replace {form form' : Form} (h : form'.mask = form.mask) (before after : List Form) :
    masks (before ++ form' :: after) = masks (before ++ form :: after) := by
  rw [masks_eq_map, masks_eq_map, List.map_append, List.map_append, List.map_cons, List.map_cons, h]

/-- What is edited inside a definition lies in its body. -/
theorem body_of_replace {form : Form} {before after body : List Form} (hne : form.functions ≠ [])
    (hfree : "defn" ∉ params) (h : list (before ++ form :: after) = definition name params body) :
    ∃ inner, before = identifier "defn" :: identifier name ::
      list (params.map identifier) :: inner ∧
      body = inner ++ form :: after := by
  rw [definition, Form.list.injEq] at h
  -- neither the head nor the name nor the parameters have functions
  rcases before with _ | ⟨_, _ | ⟨_, _ | ⟨_, inner⟩⟩⟩
  · cases h
    exact absurd rfl hne
  · cases h
    exact absurd rfl hne
  · cases h
    refine absurd ?_ hne
    rw [functions, defns_params hfree]
    rfl
  · cases h
    exact ⟨inner, rfl, rfl⟩

theorem functions_definition_ne (name : String) (params : List String) (body : List Form) :
    (definition name params body).functions ≠ [] :=
  List.cons_ne_nil _ _

/-- A list around an edit that leaves the mask of what it edits keeps its own mask, and its
functions but for those edited. -/
theorem functions_replace {form : Form} {before after : List Form} (hne : form.functions ≠ [])
    (hproper : ∀ e ∈ (list (before ++ form :: after)).defns, e.IsDefinition) :
    ∃ outer, (list (before ++ form :: after)).functions = outer ++ form.functions ++
      allFunctions after ∧
      ∀ form' : Form, form'.mask = form.mask →
        (list (before ++ form' :: after)).mask = (list (before ++ form :: after)).mask ∧
        (list (before ++ form' :: after)).functions = outer ++ form'.functions ++
        allFunctions after := by
  cases hdefn : (list (before ++ form :: after)).isDefn with
  | false =>
    have hfunctions {form' : Form} (h : (list (before ++ form' :: after)).isDefn = false) :
        (list (before ++ form' :: after)).functions = allFunctions before ++ form'.functions ++
          allFunctions after := by
      rw [functions_list h, allFunctions_append, allFunctions_cons, List.append_assoc]
    refine ⟨allFunctions before, hfunctions hdefn, fun form' hmask => ?_⟩
    have hmasks := masks_replace hmask before after
    have hdefn' : (list (before ++ form' :: after)).isDefn = false := by
      rw [← isDefn_masks, hmasks, isDefn_masks, hdefn]
    refine ⟨?_, hfunctions hdefn'⟩
    rw [mask_list, mask_list, hdefn, hdefn', hmasks]
    rfl
  | true =>
    obtain ⟨name, params, body, hfree, heq⟩ := hproper _ (self_mem_defns hdefn)
    obtain ⟨inner, rfl, rfl⟩ := body_of_replace hne hfree heq
    have hfunctions (form' : Form) (hmask : form'.mask = form.mask) :
        (definition name params (inner ++ form' :: after)).functions =
          (name, signature name params (inner ++ form :: after)) ::
            allFunctions inner ++ form'.functions ++ allFunctions after := by
      have hmasks := masks_replace hmask (identifier "defn" :: identifier name ::
        list (params.map identifier) :: inner) after
      rw [List.cons_append, List.cons_append, List.cons_append] at hmasks
      simp [functions_definition hfree, signature, hmasks, allFunctions_append, allFunctions_cons]
    exact ⟨_, hfunctions form rfl, fun form' hmask => ⟨rfl, hfunctions form' hmask⟩⟩

/-- An edit of the body of a definition in a form keeps the mask of the form, and the functions
around the definition and beside it. -/
theorem functions_withBody {a node : Node} {path : List Nat} {body : List Form}
    (hat : a.at? path = some node) (hnode : node.form = definition name params body)
    (hproper : ∀ e ∈ a.form.defns, e.IsDefinition) :
    ∃ before after, a.form.functions = before ++ node.form.functions ++ after ∧
      ∀ body', (a.form.withBody body' path).mask = a.form.mask ∧
        (a.form.withBody body' path).functions = before ++
        (definition name params body').functions ++ after := by
  induction path generalizing a with
  | nil =>
    cases hat
    refine ⟨[], [], by simp, fun body' => ?_⟩
    rw [hnode]
    exact ⟨rfl, by simp [withBody, definition]⟩
  | cons i path ih =>
    obtain ⟨b, hb, hbelow⟩ := Option.bind_eq_some_iff.mp hat
    cases a with
    | list items span =>
      have hitem : items[i]? = some b := hb
      obtain ⟨fs, gs, hitems, hlength⟩ := Node.forms_eq_append hitem
      rw [Node.form] at hproper ⊢
      rw [hitems] at hproper ⊢
      obtain ⟨before, after, hfunctions, hedit⟩ := ih hbelow fun e he =>
        hproper e (allDefns_subset _
          (defns_subset_of_mem (List.mem_append_right _ (List.mem_cons_self ..)) he))
      have hne : b.form.functions ≠ [] := by
        rw [hfunctions, hnode]
        simp [functions_definition_ne]
      obtain ⟨outer, houter, hreplace⟩ := functions_replace hne hproper
      refine ⟨outer ++ before, after ++ allFunctions gs, ?_, fun body' => ?_⟩
      · rw [houter, hfunctions]
        simp
      · obtain ⟨hmask, hedited⟩ := hedit body'
        obtain ⟨hmask', hfunctions'⟩ := hreplace _ hmask
        rw [withBody, ← hlength, modify_length]
        refine ⟨hmask', ?_⟩
        rw [hfunctions', hedited]
        simp
    | _ => cases hb

/-- The `defn` lists of the new body are in the edited form. -/
theorem allDefns_subset_withBody {a node : Node} {path : List Nat}
    {items : List Form} (body : List Form) (hat : a.at? path = some node)
    (hnode : node.form = list items) : allDefns body ⊆ (a.form.withBody body path).defns := by
  induction path generalizing a with
  | nil =>
    cases hat
    rw [hnode, withBody]
    refine List.Subset.trans ?_ (allDefns_subset _)
    rw [allDefns_append]
    exact List.subset_append_right _ _
  | cons i path ih =>
    obtain ⟨b, hb, hbelow⟩ := Option.bind_eq_some_iff.mp hat
    cases a with
    | list items span =>
      have hitem : items[i]? = some b := hb
      obtain ⟨fs, gs, hitems, rfl⟩ := Node.forms_eq_append hitem
      rw [Node.form, hitems, withBody, modify_length]
      have hmem : b.form.withBody body path ∈ fs ++ b.form.withBody body path :: gs :=
        List.mem_append_right _ (List.mem_cons_self ..)
      exact List.Subset.trans (ih hbelow)
        (List.Subset.trans (defns_subset_of_mem hmem) (allDefns_subset _))
    | _ => cases hb

theorem defns_subset_of_at? {a node : Node} {path : List Nat} (hat : a.at? path = some node) :
    node.form.defns ⊆ a.form.defns := by
  induction path generalizing a with
  | nil =>
    cases hat
    exact List.Subset.refl _
  | cons i path ih =>
    obtain ⟨b, hb, hbelow⟩ := Option.bind_eq_some_iff.mp hat
    cases a with
    | list items span =>
      have hmem : b.form ∈ Node.forms items := by
        rw [Node.forms_eq_map]
        exact List.mem_map_of_mem (List.mem_of_getElem? hb)
      exact List.Subset.trans (ih hbelow)
        (List.Subset.trans (defns_subset_of_mem hmem) (allDefns_subset _))
    | _ => cases hb

end Form

namespace Definition

/-! ## Comparing definitions -/

variable {ds ds' : List Definition} {g g' : Definition}

theorem checkRepeats_of_distinct {seen ds : List Definition} (h : Distinct ds)
    (hseen : ∀ d ∈ ds, ∀ e ∈ seen, e.name ≠ d.name) : checkRepeats seen ds = .ok () := by
  induction ds generalizing seen with
  | nil => rfl
  | cons d ds ih =>
    obtain ⟨hd, hds⟩ := List.nodup_cons.mp h
    rw [List.forall_mem_cons] at hseen
    have hnone : ¬ (seen.any fun e => e.name == d.name && e.depth == d.depth) = true := by
      simp only [List.any_eq_true, Bool.and_eq_true, beq_iff_eq, not_exists, not_and]
      exact fun e he hname _ => hseen.1 e he hname
    rw [checkRepeats, if_neg hnone]
    refine ih hds fun e he => List.forall_mem_cons.mpr ⟨fun hname => hd ?_, hseen.2 e he⟩
    exact List.mem_map.mpr ⟨e, he, hname.symm⟩

theorem find_eq_of_distinct {root : Node} (h : Distinct root.definitions) :
    find root = .ok root.definitions := by
  rw [find_eq]
  rw [checkRepeats_of_distinct h (fun _ _ _ he => by cases he),
    firstOfEach_of_distinct h fun _ _ => List.not_mem_nil]
  rfl

theorem diff_of_distinct {root root' : Node} (h : Distinct root.definitions)
    (h' : Distinct root'.definitions) :
    diff root root' = .ok (changed root.definitions root'.definitions) := by
  unfold diff
  rw [find_eq_of_distinct h, find_eq_of_distinct h']
  rfl

/-- Whether a function was there before, with another signature. -/
def differs (before : List Definition) (d : Definition) : Bool :=
  match get? before d.name with
  | some previous => !previous.signature.alike d.signature
  | none => false

theorem changed_eq_filter (before after : List Definition) :
    changed before after = (after.filter (differs before)).map (·.name) := rfl

theorem differs_eq (h : Distinct ds) {d d' : Definition} (hd : d ∈ ds) (hname : d.name = d'.name) :
    differs ds d' = !d.signature.alike d'.signature := by
  rw [differs, ← hname, get?_of_distinct h hd]

/-- If all functions but one are as they were, at most this one is reported. -/
theorem changed_eq (h : Distinct ds) (h' : Distinct ds') (hg : g ∈ ds) (hg' : g' ∈ ds')
    (hname : g.name = g'.name) (hothers : ∀ d' ∈ ds', d'.name ≠ g'.name →
      ∃ d ∈ ds, Form.SameFunction d.entry d'.entry) :
    changed ds ds' = if g.signature.alike g'.signature then [] else [g.name] := by
  obtain ⟨before, after, rfl⟩ := List.append_of_mem hg'
  have hquiet : ∀ d' ∈ before ++ after, differs ds d' = false := by
    intro d' hd'
    have hmem : d' ∈ before ++ g' :: after := by
      rw [List.mem_append, List.mem_cons]
      exact (List.mem_append.mp hd').imp_right .inr
    have hapart : d'.name ≠ g'.name := by
      intro heq
      have hnodup := h'
      rw [Distinct, List.map_append, List.map_cons, List.nodup_middle,
        List.nodup_cons, ← List.map_append] at hnodup
      exact hnodup.1 (heq ▸ List.mem_map_of_mem hd')
    obtain ⟨d, hd, hsame⟩ := hothers d' hmem hapart
    have hsignature : d.signature.alike d'.signature = true := hsame.2
    rw [differs_eq h hd hsame.1, hsignature]
    rfl
  have hnone {l : List Definition} (hl : l ⊆ before ++ after) : l.filter (differs ds) = [] :=
    List.filter_eq_nil_iff.mpr fun d' hd' => Bool.eq_false_iff.mp (hquiet d' (hl hd'))
  rw [changed_eq_filter, List.filter_append, List.filter_cons, hnone (List.subset_append_left _ _),
    hnone (List.subset_append_right _ _), differs_eq h hg hname, hname]
  cases g.signature.alike g'.signature <;> rfl

theorem distinct_iff : Distinct ds ↔ ((ds.map entry).map Prod.fst).Nodup := by
  rw [Distinct, List.map_map]
  rfl

/-- An edit that gives one function another signature and keeps the others is reported for this
function, or for none. -/
theorem changed_of_edit {before after kept kept' : List (String × Form)} {name : String}
    {signature signature' : Form}
    (hds : (ds.map entry).Perm (before ++ (name, signature) :: kept ++ after))
    (hds' : (ds'.map entry).Perm (before ++ (name, signature') :: kept' ++ after)) (h : Distinct ds)
    (hself : ∀ e ∈ before ++ (name, signature) :: kept ++ after, Form.SameFunction e e)
    (hnames : (kept.map Prod.fst).Perm (kept'.map Prod.fst))
    (hkept : ∀ e' ∈ kept', ∃ e ∈ kept, Form.SameFunction e e') :
    Distinct ds' ∧ changed ds ds' = if signature.alike signature' then [] else [name] := by
  have h' : Distinct ds' := by
    rw [distinct_iff, (hds'.map Prod.fst).nodup_iff]
    rw [distinct_iff, (hds.map Prod.fst).nodup_iff] at h
    refine (List.Perm.nodup_iff ?_).mp h
    simp only [List.map_append, List.map_cons]
    exact ((hnames.cons name).append_left _).append_right _
  have hedited (signature : Form) (kept : List (String × Form)) :
      (name, signature) ∈ before ++ (name, signature) :: kept ++ after :=
    List.mem_append_left _ (List.mem_append_right _ (List.mem_cons_self ..))
  obtain ⟨g, hg, hentry⟩ := List.mem_map.mp (hds.mem_iff.mpr (hedited signature kept))
  obtain ⟨g', hg', hentry'⟩ := List.mem_map.mp (hds'.mem_iff.mpr (hedited signature' kept'))
  obtain ⟨rfl, rfl⟩ := Prod.mk.inj hentry
  obtain ⟨hname, rfl⟩ := Prod.mk.inj hentry'
  refine ⟨h', changed_eq h h' hg hg' hname.symm fun d' hd' hne => ?_⟩
  -- a function other than the edited one has been kept, or lies outside the edited one
  have hsame : ∃ e ∈ before ++ (g.name, g.signature) :: kept ++
    after, Form.SameFunction e d'.entry := by
    have hmem := hds'.mem_iff.mp (List.mem_map_of_mem hd')
    simp only [List.mem_append, List.mem_cons] at hmem hself ⊢
    rcases hmem with (hbefore | hedited | hkept') | hafter
    · exact ⟨_, .inl (.inl hbefore), hself _ (.inl (.inl hbefore))⟩
    · exact absurd ((congrArg Prod.fst hedited).trans hname.symm) hne
    · obtain ⟨e, he, hsame⟩ := hkept _ hkept'
      exact ⟨e, .inl (.inr (.inr he)), hsame⟩
    · exact ⟨_, .inr hafter, hself _ (.inr hafter)⟩
  obtain ⟨e, he, hsame⟩ := hsame
  obtain ⟨d, hd, rfl⟩ := List.mem_map.mp (hds.mem_iff.mpr he)
  exact ⟨d, hd, hsame⟩

/-- If no function is reported, those of one name have signatures that are alike. -/
theorem agree_of_changed (h : Distinct ds) (hchanged : changed ds ds' = []) :
    Form.Agree (ds.map entry) (ds'.map entry) := by
  intro e he e' he' hname
  obtain ⟨d, hd, rfl⟩ := List.mem_map.mp he
  obtain ⟨d', hd', rfl⟩ := List.mem_map.mp he'
  rw [changed_eq_filter, List.map_eq_nil_iff, List.filter_eq_nil_iff] at hchanged
  have hnot := hchanged d' hd'
  rw [differs_eq h hd hname, Bool.not_eq_true, Bool.not_eq_false'] at hnot
  exact hnot

end Definition

/-! ## Programs that compile -/

namespace Node

/-- A program that has been read and that compiles. -/
def Compilable (root : Node) : Prop :=
  ∃ source unit code, ofProgram source = .ok root ∧ Code.ofProgram unit root = .ok code

variable {root a node : Node} {path : List Nat}

theorem Compilable.isDefinition (h : root.Compilable) : ∀ e ∈ root.form.defns, e.IsDefinition := by
  obtain ⟨source, unit, code, -, hcode⟩ := h
  obtain ⟨is, his, -⟩ := except_bind_eq_ok hcode
  exact isDefinition_of_compiles (compiles_expression his)

theorem Compilable.alike_self (h : root.Compilable) : root.form.alike root.form = true := by
  obtain ⟨source, unit, code, hread, -⟩ := h
  exact alike_self_of_ofProgram hread

theorem Compilable.head?_eq (h : root.Compilable) : root.head? = some "do" := by
  obtain ⟨source, unit, code, hread, -⟩ := h
  obtain ⟨forms, doSpan, span, rfl, -⟩ := sorted_starts_of_ofProgram hread
  rfl

theorem isDefn_of_head? (h : node.head? = some "defn") : node.form.isDefn = true := by
  unfold head? at h
  split at h
  · cases h
    rfl
  · cases h

/-- The functions of a program are those in its form. -/
theorem Compilable.perm_functions (h : root.Compilable) :
    (root.definitions.map Definition.entry).Perm root.form.functions := by
  have hproper := h.isDefinition
  obtain ⟨source, unit, code, hread, -⟩ := h
  obtain ⟨forms, doSpan, span, rfl, -⟩ := sorted_starts_of_ofProgram hread
  exact Node.perm_functions fun e he => hproper e (Form.allDefns_subset _ he)

theorem Compilable.distinct_iff (h : root.Compilable) :
    Definition.Distinct root.definitions ↔ (root.form.functions.map Prod.fst).Nodup := by
  rw [Definition.distinct_iff]
  exact (h.perm_functions.map Prod.fst).nodup_iff

end Node

namespace Definition

variable {root root' : Node} {g : Definition} {path : List Nat} {body : List Form}

/-- An edit of a body that keeps the functions in it is reported for the function whose body it is,
or is none. -/
theorem diff_of_edit (h : root.Compilable) (h' : root'.Compilable)
    (hdistinct : Distinct root.definitions) (hg : root.Defines path g)
    (hform : root'.form = root.form.withBody body path)
    (hkeeps : Form.Keeps (Form.allDefns (Node.forms g.body)) (Form.allDefns body)) :
    diff root root' = .ok (if Form.allAlike (Node.forms g.body) body then [] else [g.name]) := by
  obtain ⟨-, node, hat, hnode⟩ := hg
  have hproper := h.isDefinition
  have hproper' := h'.isDefinition
  have hsubset := Form.defns_subset_of_at? hat
  obtain ⟨hdefn, -⟩ := function?_of_ofNode? hnode
  have hnode := form_of_ofNode? hnode
  have hfree := Form.IsDefinition.free (hnode ▸ hproper _ (hsubset (Form.self_mem_defns hdefn)))
  obtain ⟨before, after, hfunctions, hedit⟩ := Form.functions_withBody hat hnode hproper
  have hfunctions' := (hedit body).2
  rw [hnode, Form.functions_definition hfree] at hfunctions
  rw [← hform, Form.functions_definition hfree] at hfunctions'
  have hnames := h.distinct_iff.mp hdistinct
  have hself := Form.sameFunction_self h.alike_self
  have hperm := h.perm_functions
  have hperm' := h'.perm_functions
  rw [hfunctions] at hnames hself hperm
  rw [hfunctions'] at hperm'
  obtain ⟨hsame, hlike⟩ := hkeeps.functions
  obtain ⟨hdistinct', hchanged⟩ := changed_of_edit hperm hperm' hdistinct hself hsame hlike
  have hinner : ((Form.allFunctions (Node.forms g.body)).map Prod.fst).Nodup := by
    simp only [List.map_append, List.map_cons, List.nodup_append, List.nodup_cons] at hnames
    exact hnames.1.2.1.2
  have hproperBody : ∀ e ∈ Form.allDefns (Node.forms g.body), e.IsDefinition := by
    rw [hnode, Form.defns_definition hfree] at hsubset
    exact fun e he => hproper e (hsubset (List.mem_cons_of_mem _ he))
  have hbodies := hkeeps.allAlike_masks hinner hproperBody fun e he =>
    hproper' e (hform ▸ Form.allDefns_subset_withBody body hat hnode he)
  rw [diff_of_distinct hdistinct hdistinct', hchanged, Form.signature_alike, hbodies]

/-- Programs that differ in functions only, and in none that is reported, do not differ. -/
theorem alike_of_diff_eq_nil (h : root.Compilable) (h' : root'.Compilable)
    (hdistinct : Distinct root.definitions) (hdistinct' : Distinct root'.definitions)
    (hmask : (mask root).alike (mask root') = true) (hdiff : diff root root' = .ok []) :
    root.form.alike root'.form = true := by
  rw [diff_of_distinct hdistinct hdistinct'] at hdiff
  have hagree := agree_of_changed hdistinct (Except.ok.inj hdiff)
  rw [mask_eq, mask_eq] at hmask
  exact Form.alike_of_mask hagree root.form root'.form h.isDefinition h'.isDefinition
    (fun e he => h.perm_functions.mem_iff.mpr he)
      (fun e he => h'.perm_functions.mem_iff.mpr he) hmask

/-- Every `defn` of a program that compiles and defines no function twice is one of its functions.
Another body for it, with the same `defn` forms inside, is reported as a change of this function, or
as none if it is the same body. Conversely, where nothing is reported and the programs are the same
but for what stands in functions after their names and parameters, they are the same; that they
define the same names follows. -/
theorem diff_exact (h : root.Compilable) (hdistinct : Distinct root.definitions) :
    (∀ path node, root.at? path = some node → node.head? = some "defn" →
      ∃ g, root.Defines path g ∧ g.node = node ∧
      ∀ body root', Node.Compilable root' → root'.form = root.form.withBody body path →
        Form.Keeps (Form.allDefns (Node.forms g.body)) (Form.allDefns body) →
        diff root root' = .ok (if Form.allAlike (Node.forms g.body) body then [] else [g.name])) ∧
    ∀ root', Node.Compilable root' → Distinct root'.definitions →
      (mask root).alike (mask root') = true →
      diff root root' = .ok [] → root.form.alike root'.form = true := by
  refine ⟨fun path node hat hhead => ?_, fun root' h' => alike_of_diff_eq_nil h h' hdistinct⟩
  have hdefn := Node.isDefn_of_head? hhead
  obtain ⟨g, hg⟩ :=
    exists_ofNode? (h.isDefinition _ (Form.defns_subset_of_at? hat (Form.self_mem_defns hdefn)))
      path.length
  have hbelow : path ≠ [] := by
    rintro rfl
    cases hat
    exact absurd (Option.some.inj (hhead.symm.trans h.head?_eq)) (by decide)
  exact ⟨g, ⟨hbelow, node, hat, hg⟩, (ofNode?_eq_some hg).1, fun body root' h' hform hkeeps =>
    diff_of_edit h h' hdistinct ⟨hbelow, node, hat, hg⟩ hform hkeeps⟩

/-- The outer of two functions is edited around the inner one, and reported; with other blanks only,
neither is. -/
theorem diff_exact_nested : ∃ root edited spaced : Node,
    Node.ofProgram "(defn f () (defn g () 1) (g)) (f)" = .ok root ∧
    Node.ofProgram "(defn f () (defn g () 1) (do (g))) (f)" = .ok edited ∧
    Node.ofProgram "(defn f ()\n (defn g () 1)\n (g)) (f)" = .ok spaced ∧
    diff root edited = .ok ["f"] ∧ root.form.alike spaced.form = true := by
  have hrun : yields (fun root => yields (fun edited => yields (fun spaced =>
        yields (fun _ => true) (Code.ofProgram 0 root) && yields (fun _ => true)
          (Code.ofProgram 0 edited) &&
        yields (fun _ => true) (Code.ofProgram 0 spaced) &&
        decide (root.definitions.map (·.name)).Nodup &&
          decide (spaced.definitions.map (·.name)).Nodup &&
        (mask root).alike (mask spaced) && yields (fun names => decide (names = []))
          (diff root spaced) &&
        (root.at? [1]).any fun node => decide (node.head? = some "defn") &&
          (ofNode? node 1).any fun before =>
            decide (before.name = "f") && (edited.at? [1]).any fun node' =>
            (ofNode? node' 1).any fun after =>
              edited.form.alike (root.form.withBody (Node.forms after.body) [1]) &&
              edited.form.zerosAgree (root.form.withBody (Node.forms after.body) [1]) &&
              Form.allAlike (Form.allDefns (Node.forms before.body))
                (Form.allDefns (Node.forms after.body)) &&
              !Form.allAlike (Node.forms before.body) (Node.forms after.body))
        (Node.ofProgram "(defn f ()\n (defn g () 1)\n (g)) (f)"))
        (Node.ofProgram "(defn f () (defn g () 1) (do (g))) (f)"))
      (Node.ofProgram "(defn f () (defn g () 1) (g)) (f)") = true := by decide +kernel
  obtain ⟨root, hroot, hrun⟩ := yields_iff.mp hrun
  obtain ⟨edited, hedited, hrun⟩ := yields_iff.mp hrun
  obtain ⟨spaced, hspaced, hrun⟩ := yields_iff.mp hrun
  simp only [Bool.and_eq_true, Option.any_eq_true, yields_iff, decide_eq_true_eq,
    Bool.not_eq_true', and_true] at hrun
  obtain ⟨⟨⟨⟨⟨⟨⟨⟨code, hcode⟩, code', hcode'⟩, code₂, hcode₂⟩, hdistinct⟩, hdistinct₂⟩, hmask⟩,
    _, hdiff, rfl⟩, node, hat, hhead, before, hbefore, hname, node', -, after, -,
      ⟨⟨halike, hzeros⟩, hkeeps⟩, hdiffers⟩ := hrun
  obtain ⟨hedits, hnone⟩ := diff_exact ⟨_, _, _, hroot, hcode⟩ hdistinct
  obtain ⟨g, hg, -, hedit⟩ := hedits [1] node hat hhead
  obtain rfl := hg.unique ⟨nofun, node, hat, hbefore⟩
  have hresult :=
    hedit _ edited ⟨_, _, _, hedited, hcode'⟩ (Form.eq_of_alike halike hzeros) ⟨_, .refl _, hkeeps⟩
  rw [hdiffers, hname] at hresult
  exact ⟨root, edited, spaced, hroot, hedited, hspaced, hresult,
    hnone spaced ⟨_, _, _, hspaced, hcode₂⟩ hdistinct₂ hmask hdiff⟩

end Definition

end LiveLisp
