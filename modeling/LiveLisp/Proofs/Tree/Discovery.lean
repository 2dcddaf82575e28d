/-
  Which functions a program is found to define. The definitions of a tree are told by their places
  (`Node.Defines`): a place is a path from the root, and the lists around it are as many as the path
  is long. They are taken in order of depth and, at one depth, of place (`Earlier`).

  No definition may repeat the name of another at its own depth; the first one that does is
  reported. If none does, each name stands for its one shallowest definition, whatever lies inside
  or beside it (`find_outermost`).
-/
import LiveLisp.Proofs.Tree.Places
import Mathlib.Data.List.Pairwise

namespace LiveLisp

/-- Fewer lists around it or, at one depth, before it in the text. -/
def Earlier (p q : List Nat) : Prop :=
  p.length < q.length ∨ p.length = q.length ∧ p < q

namespace Earlier

variable {p q r : List Nat}

theorem irrefl (p : List Nat) : ¬ Earlier p p := by
  rintro (hlt | ⟨-, hlt⟩)
  · exact Nat.lt_irrefl _ hlt
  · exact List.lt_irrefl p hlt

theorem ne (h : Earlier p q) : p ≠ q := by
  rintro rfl
  exact irrefl p h

theorem trans (h : Earlier p q) (h' : Earlier q r) : Earlier p r := by
  rcases h with hlt | ⟨hlength, hlt⟩ <;> rcases h' with hlt' | ⟨hlength', hlt'⟩
  · exact .inl (Nat.lt_trans hlt hlt')
  · exact .inl (hlength' ▸ hlt)
  · exact .inl (hlength ▸ hlt')
  · exact .inr ⟨hlength.trans hlength', List.lt_trans hlt hlt'⟩

end Earlier

namespace Node

/-- Where a path leads: it says of each list on the way which of its items to go on to. -/
def at? : Node → List Nat → Option Node
  | node, [] => some node
  | node, i :: path => node.children[i]?.bind (at? · path)

theorem at?_cons (node : Node) (i : Nat) (path : List Nat) :
    node.at? (i :: path) = node.children[i]?.bind (at? · path) := rfl

/-- A well-formed definition strictly below the root stands at this path. -/
def Defines (root : Node) (path : List Nat) (d : Definition) : Prop :=
  path ≠ [] ∧ ∃ node, root.at? path = some node ∧ Definition.ofNode? node path.length = some d

/-- A definition with the name of an earlier one at the same depth. -/
def Repeats (root : Node) (path : List Nat) (d : Definition) : Prop :=
  root.Defines path d ∧ ∃ p e, root.Defines p e ∧ Earlier p path ∧ e.key = d.key

/-- All other definitions of its name have more lists around them. -/
def Shallowest (root : Node) (path : List Nat) (d : Definition) : Prop :=
  root.Defines path d ∧ ∀ p e, root.Defines p e → e.name = d.name → p = path ∨
    path.length < p.length

/-! ## Nodes and their paths -/

/-- The nodes with exactly `depth` lists around them, with their paths. -/
def placed : Nat → Node → List (List Nat × Node)
  | 0, node => [([], node)]
  | depth + 1, node => node.children.zipIdx.flatMap fun (child, i) =>
    (placed depth child).map fun (path, below) => (i :: path, below)

theorem placed_succ (depth : Nat) (node : Node) :
    placed (depth + 1) node = node.children.zipIdx.flatMap fun (child, i) =>
      (placed depth child).map fun (path, below) => (i :: path, below) := rfl

theorem placed_snd (depth : Nat) (node : Node) :
    (placed depth node).map Prod.snd = node.layer depth := by
  induction depth generalizing node with
  | zero => rfl
  | succ depth ih =>
    have hchildren : node.children.flatMap (layer depth) = node.children.zipIdx.flatMap fun x =>
      layer depth x.1 := by
      rw [← List.flatMap_map Prod.fst, List.zipIdx_map_fst]
    rw [placed_succ, layer, hchildren, List.map_flatMap]
    refine List.flatMap_congr fun x _ => ?_
    rw [← ih x.1, List.map_map]
    rfl

theorem mem_placed {depth : Nat} {root node : Node} {path : List Nat} :
    (path, node) ∈ placed depth root ↔ path.length = depth ∧ root.at? path = some node := by
  induction depth generalizing root path with
  | zero =>
    show (path, node) ∈ [([], root)] ↔ _
    rw [List.mem_singleton, Prod.mk.injEq, List.length_eq_zero_iff]
    refine and_congr_right fun hpath => ?_
    subst hpath
    exact ⟨fun h => congrArg some h.symm, fun h => (Option.some.inj h).symm⟩
  | succ depth ih =>
    rw [placed_succ, List.mem_flatMap]
    cases path with
    | nil => simp
    | cons i path =>
      simp only [List.mem_map, Prod.mk.injEq, List.cons.injEq, Prod.exists, at?_cons,
        Option.bind_eq_some_iff, List.length_cons, Nat.add_right_cancel_iff,
          List.mem_zipIdx_iff_getElem?]
      constructor
      · rintro ⟨child, _, hchild, path, _, hmem, ⟨rfl, rfl⟩, rfl⟩
        obtain ⟨hlength, hat⟩ := ih.mp hmem
        exact ⟨hlength, child, hchild, hat⟩
      · rintro ⟨hlength, child, hchild, hat⟩
        exact ⟨child, i, hchild, path, node, ih.mpr ⟨hlength, hat⟩, ⟨rfl, rfl⟩, rfl⟩

theorem mem_layer_of_at? {root node : Node} {path : List Nat} (h : root.at? path = some node) :
    node ∈ root.layer path.length := by
  rw [← placed_snd]
  exact List.mem_map.mpr ⟨(path, node), mem_placed.mpr ⟨rfl, h⟩, rfl⟩

theorem placed_sorted (depth : Nat) (node : Node) :
    (placed depth node).Pairwise fun a b => a.1 < b.1 := by
  induction depth generalizing node with
  | zero => exact List.pairwise_singleton ..
  | succ depth ih =>
    refine List.pairwise_flatMap.mpr ⟨fun (child, i) _ => ?_, ?_⟩
    · refine List.pairwise_map.mpr ((ih child).imp fun {a b} h => ?_)
      exact List.cons_lt_cons_self.mpr h
    · have hindices : node.children.zipIdx.Pairwise fun a b => a.2 < b.2 := by
        rw [← List.pairwise_map (f := Prod.snd), List.zipIdx_map_snd]
        exact List.pairwise_lt_range'
      refine hindices.imp fun {a b} hlt x hx y hy => ?_
      obtain ⟨_, -, rfl⟩ := List.mem_map.mp hx
      obtain ⟨_, -, rfl⟩ := List.mem_map.mp hy
      exact List.cons_lt_cons_iff.mpr (.inl hlt)

/-! ## Definitions and their paths -/

/-- The definitions of a tree with their paths. -/
def located (root : Node) : List (List Nat × Definition) :=
  (List.range root.height).flatMap fun depth =>
    (placed (depth + 1) root).filterMap fun (path, node) =>
    (Definition.ofNode? node (depth + 1)).map (path, ·)

theorem located_snd (root : Node) : root.located.map Prod.snd = root.definitions := by
  rw [located, definitions, List.map_flatMap]
  refine congrArg (List.flatMap · _) (funext fun depth => ?_)
  rw [← placed_snd, List.filterMap_map, List.map_filterMap]
  refine congrArg (List.filterMap · _) (funext fun entry => ?_)
  simp [Function.comp_def]

theorem mem_located {root : Node} {path : List Nat} {d : Definition} :
    (path, d) ∈ root.located ↔ root.Defines path d := by
  simp only [located, List.mem_flatMap, List.mem_range, List.mem_filterMap, Prod.exists,
    Option.map_eq_some_iff, Prod.mk.injEq, mem_placed]
  constructor
  · rintro ⟨depth, -, _, node, ⟨hlength, hat⟩, _, hd, rfl, rfl⟩
    refine ⟨List.ne_nil_of_length_eq_add_one hlength, node, hat, ?_⟩
    rwa [hlength]
  · rintro ⟨hbelow, node, hat, hd⟩
    obtain ⟨depth, hdepth⟩ := Nat.exists_eq_succ_of_ne_zero (mt List.length_eq_zero_iff.mp hbelow)
    have hlt := lt_height_of_mem_layer (mem_layer_of_at? hat)
    exact ⟨depth, by omega, path, node, ⟨hdepth, hat⟩, d, by
      rwa [← Nat.succ_eq_add_one, ← hdepth], rfl, rfl⟩

theorem located_sorted (root : Node) : root.located.Pairwise fun a b => Earlier a.1 b.1 := by
  have hlength {depth : Nat} {x : List Nat × Definition}
    (hx : x ∈ (placed (depth + 1) root).filterMap
      fun (path, node) =>
        (Definition.ofNode? node (depth + 1)).map (path, ·)) : x.1.length = depth + 1 := by
    obtain ⟨⟨path, node⟩, hmem, hx⟩ := List.mem_filterMap.mp hx
    obtain ⟨d, -, rfl⟩ := Option.map_eq_some_iff.mp hx
    exact (mem_placed.mp hmem).1
  refine List.pairwise_flatMap.mpr ⟨fun depth _ =>
    ?_, List.pairwise_lt_range.imp fun {k l} hlt x hx y hy => ?_⟩
  · refine List.pairwise_filterMap.mpr
      ((placed_sorted (depth + 1) root).imp_of_mem fun {a b} ha hb hlt x hx y hy => ?_)
    obtain ⟨d, -, rfl⟩ := Option.map_eq_some_iff.mp hx
    obtain ⟨e, -, rfl⟩ := Option.map_eq_some_iff.mp hy
    exact .inr ⟨(mem_placed.mp ha).1.trans (mem_placed.mp hb).1.symm, hlt⟩
  · refine .inl ?_
    rw [hlength hx, hlength hy]
    omega

end Node

namespace Definition

/-! ## Repetitions and first occurrences -/

/-- The search for repetitions ends at the first one, or there is none. -/
theorem checkRepeats_ends (seen ds : List Definition) :
    Ends (fun _ => (∀ c ∈ seen, ∀ d ∈ ds, c.key ≠ d.key) ∧ ds.Pairwise fun c d => c.key ≠ d.key)
      (fun e => ∃ before d after, ds = before ++ d :: after ∧
        e = .parse (.definedTwice d.name) d.node.span ∧
        (∃ c, (c ∈ seen ∨ c ∈ before) ∧ c.key = d.key) ∧
        (∀ c ∈ seen, ∀ b ∈ before, c.key ≠ b.key) ∧ before.Pairwise fun c b => c.key ≠ b.key)
      (checkRepeats seen ds) := by
  induction ds generalizing seen with
  | nil => exact ⟨fun _ _ _ hd => (by cases hd), .nil⟩
  | cons d ds ih =>
    have hrepeats : (seen.any fun e => e.name == d.name && e.depth == d.depth) = true ↔
      ∃ c ∈ seen, c.key = d.key := by
      simp [key]
    rw [checkRepeats]
    split
    · next hany =>
      obtain ⟨c, hc, hkey⟩ := hrepeats.mp hany
      exact ⟨[], d, ds, rfl, rfl, ⟨c, .inl hc, hkey⟩, fun _ _ _ hb => (by cases hb), .nil⟩
    · next hany =>
      have hnew : ∀ c ∈ seen, c.key ≠ d.key := fun c hc hkey => hany (hrepeats.mpr ⟨c, hc, hkey⟩)
      refine (ih (d :: seen)).imp ?_ ?_
      · rintro _ ⟨hseen, hfree⟩
        rw [List.forall_mem_cons] at hseen
        exact ⟨fun c hc => List.forall_mem_cons.mpr ⟨hnew c hc, hseen.2 c hc⟩,
          List.pairwise_cons.mpr ⟨hseen.1, hfree⟩⟩
      · rintro e ⟨before, d', after, hds, he, hclash, hseen, hfree⟩
        rw [List.forall_mem_cons] at hseen
        refine ⟨d :: before, d', after, congrArg (d :: ·) hds, he, ?_,
          fun c hc => List.forall_mem_cons.mpr ⟨hnew c hc, hseen.2 c hc⟩,
            List.pairwise_cons.mpr ⟨hseen.1, hfree⟩⟩
        obtain ⟨c, hc, hkey⟩ := hclash
        refine ⟨c, ?_, hkey⟩
        rw [List.mem_cons] at hc ⊢
        tauto

theorem firstOfEach_sublist (seen : List String) (ds : List Definition) :
    (firstOfEach seen ds).Sublist ds := by
  induction ds generalizing seen with
  | nil => exact .slnil
  | cons d ds ih =>
    rw [firstOfEach]
    split
    · exact (ih seen).cons d
    · exact (ih (d.name :: seen)).cons_cons d

/-- What is taken is the first of its name. -/
theorem eq_append_of_mem_firstOfEach {seen : List String} {ds : List Definition} {d : Definition}
    (h : d ∈ firstOfEach seen ds) : ∃ before after, ds = before ++ d :: after ∧
    ∀ b ∈ before, b.name ≠ d.name := by
  induction ds generalizing seen with
  | nil => cases h
  | cons c ds ih =>
    have hlater : ∀ seen', d ∈ firstOfEach seen' ds → c.name ≠ d.name →
        ∃ before after, c :: ds = before ++ d :: after ∧ ∀ b ∈ before, b.name ≠ d.name := by
      intro seen' hd hne
      obtain ⟨before, after, hds, hbefore⟩ := ih hd
      exact ⟨c :: before, after, congrArg (c :: ·) hds, List.forall_mem_cons.mpr ⟨hne, hbefore⟩⟩
    rw [firstOfEach] at h
    split at h
    · next hseen =>
      refine hlater seen h fun hname => ((firstOfEach_distinct seen ds).2 d h).1 ?_
      rw [← hname]
      exact List.contains_iff_mem.mp hseen
    · rcases List.mem_cons.mp h with rfl | h
      · exact ⟨[], ds, rfl, fun _ hb => (by cases hb)⟩
      · refine hlater _ h fun hname => ((firstOfEach_distinct (c.name :: seen) ds).2 d h).1 ?_
        rw [← hname]
        exact List.mem_cons_self ..

theorem exists_mem_firstOfEach {seen : List String} {ds : List Definition}
    {d : Definition} (hd : d ∈ ds) (hseen : d.name ∉ seen) :
    ∃ e ∈ firstOfEach seen ds, e.name = d.name := by
  induction ds generalizing seen with
  | nil => cases hd
  | cons c ds ih =>
    rw [firstOfEach]
    split
    · next hc =>
      rcases List.mem_cons.mp hd with rfl | hd
      · exact absurd (List.contains_iff_mem.mp hc) hseen
      · exact ih hd hseen
    · by_cases hname : c.name = d.name
      · exact ⟨c, List.mem_cons_self .., hname⟩
      · rcases List.mem_cons.mp hd with rfl | hd
        · exact absurd rfl hname
        · have hnew : d.name ∉ c.name :: seen := by
            rw [List.mem_cons, not_or]
            exact ⟨fun h => hname h.symm, hseen⟩
          obtain ⟨e, he, hsame⟩ := ih hd hnew
          exact ⟨e, List.mem_cons_of_mem _ he, hsame⟩

end Definition

namespace Node

variable {root : Node} {path p q : List Nat} {d e : Definition}

theorem Defines.depth (h : root.Defines path d) : d.depth = path.length := by
  obtain ⟨-, node, -, hd⟩ := h
  unfold Definition.ofNode? at hd
  split at hd
  · obtain ⟨names, -, rfl⟩ := Option.map_eq_some_iff.mp hd
    rfl
  · cases hd

theorem Defines.unique (h : root.Defines path d) (h' : root.Defines path e) : d = e := by
  obtain ⟨-, node, hat, hd⟩ := h
  obtain ⟨-, node', hat', he⟩ := h'
  cases hat.symm.trans hat'
  exact Option.some.inj (hd.symm.trans he)

theorem Defines.key_eq_iff (h : root.Defines p d) (h' : root.Defines q e) :
    d.key = e.key ↔ d.name = e.name ∧ p.length = q.length := by
  rw [Definition.key, Definition.key, Prod.mk.injEq, h.depth, h'.depth]

/-- The definitions before and after one, in a list of all. -/
theorem located_append {before after : List Definition}
    (h : root.definitions = before ++ d :: after) :
    ∃ earlier path later, root.located = earlier ++ (path, d) :: later ∧
      earlier.map Prod.snd = before ∧
      (∀ x ∈ earlier, Earlier x.1 path) ∧ ∀ x ∈ later, Earlier path x.1 := by
  rw [← located_snd] at h
  obtain ⟨earlier, rest, hlocated, hearlier, hrest⟩ := List.map_eq_append_iff.mp h
  obtain ⟨⟨path, d'⟩, later, rfl, rfl, -⟩ := List.map_eq_cons_iff.mp hrest
  have hsorted := root.located_sorted
  rw [hlocated, List.pairwise_append, List.pairwise_cons] at hsorted
  exact ⟨earlier, path, later, hlocated, hearlier, fun x hx =>
    hsorted.2.2 x hx _ (List.mem_cons_self ..), hsorted.2.1.1⟩

/-- The first repetition, and the error that reports it. -/
structure Reports (root : Node) (error : Error) (path : List Nat) (d : Definition) : Prop where
  repeats : root.Repeats path d
  first : ∀ p e, root.Repeats p e → p = path ∨ Earlier path p
  error : error = .parse (.definedTwice d.name) d.node.span

/-- The functions of a tree, as they are listed. -/
structure Lists (root : Node) (ds : List Definition) : Prop where
  /-- A name is listed once, if any definition has it. -/
  names : Definition.Distinct ds ∧ ∀ name, name ∈ ds.map (·.name) ↔
    ∃ path d, root.Defines path d ∧ d.name = name
  /-- What stands for a name is the one definition of it that is shallower than all others. -/
  shallowest : ∀ name d, Definition.get? ds name = some d ↔ d.name = name ∧
    ∃ path, root.Shallowest path d
  /-- They are listed by depth and then by place. -/
  sorted : ∃ paths, List.Forall₂ root.Shallowest paths ds ∧ paths.Pairwise Earlier

theorem reports_of_checkRepeats {before after : List Definition}
    (h : root.definitions = before ++ d :: after) (hrepeated : ∃ c ∈ before, c.key = d.key)
    (hfree : before.Pairwise fun c b => c.key ≠ b.key) :
    ∃ path, root.Reports (.parse (.definedTwice d.name) d.node.span) path d := by
  obtain ⟨earlier, path, later, hlocated, rfl, hearlier, hlater⟩ := located_append h
  have hdefines {x : List Nat × Definition} (hx : x ∈ earlier ∨ x = (path, d) ∨ x ∈ later) :
    root.Defines x.1 x.2 := by
    rw [← mem_located, hlocated, List.mem_append, List.mem_cons]
    exact hx
  obtain ⟨c, hc, hkey⟩ := hrepeated
  obtain ⟨⟨p, c⟩, hmem, rfl⟩ := List.mem_map.mp hc
  refine ⟨path, ⟨hdefines (.inr (.inl rfl)), p, c, hdefines (x := (p, c)) (.inl hmem),
    hearlier _ hmem, hkey⟩, ?_, rfl⟩
  intro p e ⟨he, q, e', he', hqp, hkey⟩
  rw [← mem_located, hlocated, List.mem_append, List.mem_cons] at he he'
  rcases he with he | he | he
  · -- a repetition before it would repeat a definition still before that
    have hq : (q, e') ∈ earlier := by
      rcases he' with he' | he' | he'
      · exact he'
      · cases he'
        exact absurd (hqp.trans (hearlier _ he)) (Earlier.irrefl _)
      · exact absurd ((hlater _ he').trans (hqp.trans (hearlier _ he))) (Earlier.irrefl _)
    have hne : (q, e') ≠ (p, e) := by
      rintro ⟨⟩
      exact Earlier.irrefl _ hqp
    have : Std.Symm fun a b : List Nat × Definition => a.2.key ≠ b.2.key :=
      ⟨fun _ _ hne => hne.symm⟩
    exact absurd hkey ((List.pairwise_map.mp hfree).forall hq he hne)
  · cases he
    exact .inl rfl
  · exact .inr (hlater _ he)

section Free

variable (hfree : root.definitions.Pairwise fun c d => c.key ≠ d.key)

include hfree

theorem Defines.path_eq (h : root.Defines p d) (h' : root.Defines q e)
    (hkey : d.key = e.key) : p = q := by
  rw [← located_snd] at hfree
  have : Std.Symm fun a b : List Nat × Definition => a.2.key ≠ b.2.key := ⟨fun _ _ hne => hne.symm⟩
  by_contra hne
  have hapart := (List.pairwise_map.mp hfree).forall (mem_located.mpr h) (mem_located.mpr h')
    (fun heq => hne (congrArg Prod.fst heq))
  exact hapart hkey

/-- What is taken for a name stands at fewer lists than all others of the name. -/
theorem shallowest_of_mem_firstOfEach (h : d ∈ Definition.firstOfEach [] root.definitions) :
    ∃ path, root.Shallowest path d := by
  obtain ⟨before, after, hdefinitions, hbefore⟩ := Definition.eq_append_of_mem_firstOfEach h
  obtain ⟨earlier, path, later, hlocated, rfl, -, hlater⟩ := located_append hdefinitions
  have hd : root.Defines path d := by
    rw [← mem_located, hlocated]
    exact List.mem_append_right _ (List.mem_cons_self ..)
  refine ⟨path, hd, fun p e he hname => ?_⟩
  have hmem := mem_located.mpr he
  rw [hlocated, List.mem_append, List.mem_cons] at hmem
  rcases hmem with hmem | hmem | hmem
  · exact absurd hname (hbefore e (List.mem_map.mpr ⟨_, hmem, rfl⟩))
  · cases hmem
    exact .inl rfl
  · rcases hlater _ hmem with hlt | ⟨hlength, -⟩
    · exact .inr hlt
    · exact .inl (he.path_eq hfree hd ((he.key_eq_iff hd).mpr ⟨hname, hlength.symm⟩))

theorem lists_firstOfEach : root.Lists (Definition.firstOfEach [] root.definitions) := by
  have hdistinct := (Definition.firstOfEach_distinct [] root.definitions).1
  have hsublist := Definition.firstOfEach_sublist [] root.definitions
  have hmem {path : List Nat} {d : Definition} (h : root.Defines path d) :
    d ∈ root.definitions := by
    rw [← located_snd]
    exact List.mem_map.mpr ⟨_, mem_located.mpr h, rfl⟩
  refine ⟨⟨hdistinct, fun name => ⟨fun h => ?_, fun ⟨path, d, h, hname⟩ => ?_⟩⟩,
    fun name d => ⟨fun h => ?_, fun ⟨hname, path, h⟩ => ?_⟩, ?_⟩
  · obtain ⟨d, hd, hname⟩ := List.mem_map.mp h
    obtain ⟨path, hpath⟩ := shallowest_of_mem_firstOfEach hfree hd
    exact ⟨path, d, hpath.1, hname⟩
  · obtain ⟨e, he, hsame⟩ := Definition.exists_mem_firstOfEach (hmem h) List.not_mem_nil
    exact List.mem_map.mpr ⟨e, he, hsame.trans hname⟩
  · obtain ⟨hd, hname⟩ := Definition.get?_eq_some h
    exact ⟨hname, shallowest_of_mem_firstOfEach hfree hd⟩
  · obtain ⟨e, he, hsame⟩ := Definition.exists_mem_firstOfEach (hmem h.1) List.not_mem_nil
    obtain ⟨p, hp⟩ := shallowest_of_mem_firstOfEach hfree he
    -- each is the shallowest, so they are one
    have hpath : p = path := by
      rcases h.2 p e hp.1 hsame with heq | hlt
      · exact heq
      · rcases hp.2 path d h.1 hsame.symm with heq | hgt
        · exact heq.symm
        · omega
    subst hpath
    rw [← hname, h.1.unique hp.1]
    exact Definition.get?_of_distinct hdistinct he
  · rw [← located_snd] at hsublist
    obtain ⟨listed, hlisted, hds⟩ := List.sublist_map_iff.mp hsublist
    rw [located_snd] at hds
    refine ⟨listed.map Prod.fst, ?_, List.pairwise_map.mpr (root.located_sorted.sublist hlisted)⟩
    rw [hds, List.forall₂_map_left_iff, List.forall₂_map_right_iff, List.forall₂_same]
    intro x hx
    have hx' : x.2 ∈ Definition.firstOfEach [] root.definitions := by
      rw [hds]
      exact List.mem_map_of_mem hx
    obtain ⟨path, hpath⟩ := shallowest_of_mem_firstOfEach hfree hx'
    rw [(mem_located.mp (hlisted.subset hx)).path_eq hfree hpath.1 rfl]
    exact hpath

end Free

/-- Discovery fails if and only if two definitions have one name and one depth, and then it reports
the first that repeats an earlier one. Otherwise each name that is defined stands for its shallowest
definition, which is one, and they are listed by depth and then by place. -/
theorem find_outermost (root : Node) :
    ((∃ e, Definition.find root = .error e) ↔
      ∃ p q d d', p ≠ q ∧ root.Defines p d ∧ root.Defines q d' ∧ d.name = d'.name ∧
        d.depth = d'.depth) ∧
    Ends root.Lists (fun e => ∃ path d, root.Reports e path d) (Definition.find root) := by
  have hchecked := Definition.checkRepeats_ends [] root.definitions
  rw [Definition.find_eq]
  cases hcheck : Definition.checkRepeats [] root.definitions with
  | ok u =>
    rw [hcheck] at hchecked
    obtain ⟨-, hfree⟩ := hchecked
    refine ⟨⟨fun ⟨e, he⟩ => (by cases he), fun ⟨p, q, d, d', hne, hd, hd', hname, hdepth⟩ => ?_⟩,
      lists_firstOfEach hfree⟩
    exact absurd (hd.path_eq hfree hd' (Prod.ext hname hdepth)) hne
  | error e =>
    rw [hcheck] at hchecked
    obtain ⟨before, d, after, hdefinitions, rfl, ⟨c, hc, hkey⟩, -, hfree⟩ := hchecked
    have hbefore : c ∈ before := hc.resolve_left List.not_mem_nil
    obtain ⟨path, hreports⟩ := reports_of_checkRepeats hdefinitions ⟨c, hbefore, hkey⟩ hfree
    refine ⟨⟨fun _ => ?_, fun _ => ⟨_, rfl⟩⟩, path, d, hreports⟩
    obtain ⟨hd, p, e, he, hearlier, hsame⟩ := hreports.repeats
    obtain ⟨hname, hdepth⟩ := Prod.mk.inj hsame
    exact ⟨p, path, e, d, hearlier.ne, he, hd, hname, hdepth⟩

/-! ## Places in a text -/

/-- Nodes at one depth begin one after the other if all nodes do. -/
theorem start_lt_of_at? {a x y : Node} {p q : List Nat}
    (hsorted : (allStarts a.children).Pairwise (· < ·)) (hlength : p.length = q.length)
    (hlt : p < q) (hx : a.at? p = some x) (hy : a.at? q = some y) :
    x.span.start < y.span.start := by
  induction p generalizing a q with
  | nil =>
    rw [List.length_eq_zero_iff.mp hlength.symm] at hlt
    exact absurd hlt (List.lt_irrefl [])
  | cons i p ih =>
    cases q with
    | nil => cases hlength
    | cons j q =>
      obtain ⟨b, hb, hx⟩ := Option.bind_eq_some_iff.mp hx
      obtain ⟨c, hc, hy⟩ := Option.bind_eq_some_iff.mp hy
      rw [allStarts_eq_flatMap, List.pairwise_flatMap] at hsorted
      rcases List.cons_lt_cons_iff.mp hlt with hlt | ⟨rfl, hbelow⟩
      · obtain ⟨hi, rfl⟩ := List.getElem?_eq_some_iff.mp hb
        obtain ⟨hj, rfl⟩ := List.getElem?_eq_some_iff.mp hc
        exact List.pairwise_iff_getElem.mp hsorted.2 i j hi hj hlt _
          (start_mem_starts (mem_layer_of_at? hx)) _
          (start_mem_starts (mem_layer_of_at? hy))
      · cases hb.symm.trans hc
        have hstarts := hsorted.1 b (List.mem_of_getElem? hb)
        rw [starts_eq, List.pairwise_cons] at hstarts
        exact ih hstarts.2 (Nat.succ.inj hlength) hbelow hx hy

/-- The first item of a program is no definition and has none in it. -/
theorem defines_program {doSpan span : Span} {forms : List Node} {path : List Nat} {d : Definition}
    (h : (list (.identifier "do" doSpan :: forms) span).Defines path d) :
    ∃ i below, path = (i + 1) :: below ∧ (list forms span).at? (i :: below) = some d.node := by
  obtain ⟨hpath, node, hat, hd⟩ := h
  obtain ⟨rfl, -⟩ := Definition.ofNode?_eq_some hd
  match path with
  | [] => exact absurd rfl hpath
  | (i + 1) :: below => exact ⟨i, below, rfl, hat⟩
  | [0] =>
    rw [← Option.some.inj hat] at hd
    cases hd
  | 0 :: _ :: _ => cases hat

/-- In a program that has been read, the order of the definitions at one depth is that of the text.
-/
theorem start_lt_of_earlier {source : String} (hroot : ofProgram source = .ok root)
    (hd : root.Defines p d) (he : root.Defines q e) (hdepth : d.depth = e.depth)
    (h : Earlier p q) : d.node.span.start < e.node.span.start := by
  obtain ⟨forms, doSpan, span, rfl, hsorted⟩ := sorted_starts_of_ofProgram hroot
  rw [hd.depth, he.depth] at hdepth
  obtain ⟨-, hlt⟩ := h.resolve_left (Nat.ne_of_lt · hdepth)
  obtain ⟨i, p, rfl, hp⟩ := defines_program hd
  obtain ⟨j, q, rfl, hq⟩ := defines_program he
  have hlength : (i :: p).length = (j :: q).length := hdepth
  refine start_lt_of_at? (a := list forms span) hsorted hlength (List.cons_lt_cons_iff.mpr ?_) hp hq
  rcases List.cons_lt_cons_iff.mp hlt with hlt | ⟨heq, hlt⟩
  · exact .inl (Nat.lt_of_succ_lt_succ hlt)
  · exact .inr ⟨Nat.succ.inj heq, hlt⟩

end Node

end LiveLisp
