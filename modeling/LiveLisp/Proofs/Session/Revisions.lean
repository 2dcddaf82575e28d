/-
  The revisions of an edit. There is one for each function of the new program, with the body
  compiled from it, and it covers every place where the running code or a new body registers that
  function at its depth (`reissues_of_fresh`, `revises_of_loaded`). A machine that runs in step with
  another stays in step when all bodies are put in place (`Ideal.Twin.patchAll`).
-/
import LiveLisp.Proofs.Code.Recompiled
import LiveLisp.Proofs.Ideal.Twin
import LiveLisp.Proofs.Session.Travel

namespace LiveLisp

namespace NameMap

variable {α : Type} {name : String}

theorem get?_putAll_of_notMem {pairs : List (String × α)}
    (h : name ∉ pairs.map (·.1)) (m : NameMap α) :
    (m.putAll pairs).get? name = m.get? name := by
  induction pairs generalizing m with
  | nil => rfl
  | cons pair pairs ih =>
    rw [List.map_cons, List.mem_cons, not_or] at h
    have hrest : (m.putAll (pair :: pairs)).get? name = (m.put pair.1 pair.2).get? name := ih h.2 _
    rw [hrest, get?_put, if_neg (Ne.symm h.1)]

/-- Of pairs with different names each can be found. -/
theorem get?_putAll_of_mem {pairs : List (String × α)} {a : α} (hpairs : (pairs.map (·.1)).Nodup)
    (h : (name, a) ∈ pairs) (m : NameMap α) : (m.putAll pairs).get? name = some a := by
  induction pairs generalizing m with
  | nil => cases h
  | cons pair pairs ih =>
    obtain ⟨hpair, hpairs⟩ := List.nodup_cons.mp hpairs
    rcases List.mem_cons.mp h with rfl | h
    · have hlast : (m.putAll ((name, a) :: pairs)).get? name = (m.put name a).get? name :=
        get?_putAll_of_notMem hpair _
      rw [hlast, get?_put, if_pos rfl]
    · exact ih hpairs h _

end NameMap

/-! ## Putting bodies in place -/

section Patching

variable {revisions active : NameMap Revision} {edited : String → Prop}

/-- A body for a function that had no revision so far. -/
theorem FunctionTable.Twin.patch {table table' : FunctionTable}
    (h : FunctionTable.Twin revisions edited active table table') {name : String}
    (hname : active.get? name = none) (revision : Revision) :
    FunctionTable.Twin revisions edited (active.put name revision)
      (table.patch name revision) table' := by
  refine ⟨congrArg (NameMap.put name revision) h.left, h.right, fun other => ?_⟩
  by_cases hother : name = other
  · subst hother
    rcases h.entries name with ⟨hf, hf'⟩ | ⟨f, f', hf, hf', henv, params, hoperands, hbody⟩
    · refine .inl ⟨?_, hf'⟩
      unfold FunctionTable.patch
      simp only [hf]
    · have hnow : reissued (active.put name revision) (some name) params f.site =
          if revision.covers f.site then (revision.params, revision.code)
            else (params, f.site) := by
        unfold reissued
        rw [Option.bind_some, NameMap.get?_put, if_pos rfl]
      have hraw : (f.params, f.code) = (params, f.site) := by
        rw [hbody]
        unfold reissued
        rw [Option.bind_some, hname]
      unfold FunctionTable.patch
      simp only [hf]
      cases hcovers : revision.covers f.site with
      | true =>
        refine .inr ⟨{ f with params := revision.params, code := revision.code }, f', ?_, hf', henv,
          params, hoperands, ?_⟩
        · simp only [if_true, NameMap.get?_put]
        · rw [hnow, hcovers, if_pos rfl]
      | false =>
        refine .inr ⟨f, f', hf, hf', henv, params, hoperands, ?_⟩
        rw [hnow, hcovers, if_neg Bool.false_ne_true]
        exact hraw
  · have hentries : (table.patch name revision).entries.get? other = table.entries.get? other := by
      unfold FunctionTable.patch
      split
      · split
        · rw [NameMap.get?_put, if_neg hother]
        · rfl
      · rfl
    rw [hentries]
    rcases h.entries other with hnone | ⟨f, f', hf, hf', henv, params, hoperands, hbody⟩
    · exact .inl hnone
    · refine .inr ⟨f, f', hf, hf', henv, params, hoperands, hbody.trans ?_⟩
      unfold reissued
      rw [Option.bind_some, Option.bind_some, NameMap.get?_put, if_neg hother]

end Patching

namespace Definition

theorem get?_byName {α : Type} (ds : List Definition) (name : String) (f : Definition → α) :
    NameMap.get? name (ds.map fun d => (d.name, f d)) = (get? ds name).map f := by
  induction ds with
  | nil => rfl
  | cons d ds ih =>
    unfold get? at ih ⊢
    rw [List.map_cons, NameMap.get?, ih]
    by_cases hname : d.name = name
    · simp [hname]
    · simp [hname]

end Definition

namespace Session

variable {fresh : List Fresh} {sites : NameMap (List CodeId)} {loaded : Loaded} {old new : Node}

/-- A new body as a revision of its function. -/
def Fresh.revision (sites : NameMap (List CodeId)) (f : Fresh) : Revision :=
  ⟨f.definition.params, f.code, (sites.get? f.definition.name).getD []⟩

/-- All new bodies by name. -/
def revisionsOf (sites : NameMap (List CodeId)) (fresh : List Fresh) : NameMap Revision :=
  NameMap.putAll [] (fresh.map fun f => (f.definition.name, f.revision sites))

theorem twin_patchAll {revisions active : NameMap Revision} {edited : String → Prop}
    {table table' : FunctionTable} (h : FunctionTable.Twin revisions edited active table table')
    (sites : NameMap (List CodeId)) (hfresh : (fresh.map (·.definition.name)).Nodup)
    (hactive : ∀ f ∈ fresh, active.get? f.definition.name = none) :
    FunctionTable.Twin revisions edited
      (active.putAll (fresh.map fun f => (f.definition.name, f.revision sites)))
      (patchAll sites table fresh) table' := by
  induction fresh generalizing active table with
  | nil => exact h
  | cons f fresh ih =>
    obtain ⟨hf, hfresh⟩ := List.nodup_cons.mp hfresh
    refine ih (h.patch (hactive f (List.mem_cons_self ..)) (f.revision sites)) hfresh fun g hg => ?_
    have hne : f.definition.name ≠ g.definition.name :=
      fun hname => hf (List.mem_map.mpr ⟨g, hg, hname.symm⟩)
    rw [NameMap.get?_put, if_neg hne]
    exact hactive g (List.mem_cons_of_mem _ hg)

theorem patchAll_followsSince (sites : NameMap (List CodeId)) (fresh : List Fresh)
    {swept : Nat → Prop} {m : Machine} {r : Ideal} (h : m.FollowsSince swept r) :
    Machine.FollowsSince swept { m with memory :=
      { m.memory with functions := patchAll sites m.memory.functions fresh } }
      { r with functions := patchAll sites r.functions fresh } := by
  induction fresh generalizing m r with
  | nil => exact h
  | cons f fresh ih => exact ih (Machine.patch_followsSince h f.definition.name (f.revision sites))

theorem patchAll_follows (sites : NameMap (List CodeId)) (fresh : List Fresh)
    {m : Machine} {r : Ideal} (h : m.Follows r) :
    Machine.Follows { m with memory :=
      { m.memory with functions := patchAll sites m.memory.functions fresh } }
      { r with functions := patchAll sites r.functions fresh } := by
  obtain ⟨swept, h⟩ := h
  exact ⟨swept, patchAll_followsSince sites fresh h⟩

theorem patchAll_ideal_sound (sites : NameMap (List CodeId))
    (hfresh : ∀ f ∈ fresh, f.code.Sound) {r : Ideal} (h : r.Sound) :
    Ideal.Sound { r with functions := patchAll sites r.functions fresh } := by
  induction fresh generalizing r with
  | nil => exact h
  | cons f fresh ih =>
    have hcode : (f.revision sites).code.Sound := hfresh f (List.mem_cons_self ..)
    exact ih (fun g hg => hfresh g (List.mem_cons_of_mem _ hg))
      (Ideal.patch_sound h f.definition.name hcode)

/-! ## What revisions cover -/

/-- Each new body is compiled from its own definition, in order, and they are numbered one after the
other. -/
theorem freshBodies_eq_ok {unit : Nat} {ds : List Definition}
    (h : freshBodies unit ds = .ok fresh) :
    fresh.map (·.definition) = ds ∧ ∀ f ∈ fresh, ∃ u, unit ≤ u ∧ u < unit + fresh.length ∧
      Code.ofDefinition u f.definition = .ok f.code := by
  induction ds generalizing unit fresh with
  | nil =>
    cases h
    exact ⟨rfl, fun f hf => by cases hf⟩
  | cons d ds ih =>
    obtain ⟨code, hcode, h⟩ := except_bind_eq_ok h
    obtain ⟨rest, hrest, h⟩ := except_bind_eq_ok h
    cases h
    obtain ⟨hds, hcodes⟩ := ih hrest
    refine ⟨by rw [List.map_cons, hds], fun f hf => ?_⟩
    rw [List.length_cons]
    rcases List.mem_cons.mp hf with rfl | hf
    · exact ⟨unit, Nat.le_refl _, by omega, hcode⟩
    · obtain ⟨u, hle, hlt, hcode⟩ := hcodes f hf
      exact ⟨u, by omega, by omega, hcode⟩

theorem covers_of_mem {revision : Revision} {body : Code} (h : body.id ∈ revision.sites) :
    revision.covers body = true := by
  unfold Revision.covers
  rw [List.contains_eq_mem]
  exact decide_eq_true h

/-- The sites that an edit knows of, by name. -/
def editSites (loaded : Loaded) (fresh : List Fresh) (definitions : List Definition) :
    NameMap (List CodeId) :=
  definitions.map fun d => (d.name, sitesAfter loaded fresh d)

section Edit

variable (loaded) (hdistinct : Definition.Distinct new.definitions) {unit : Nat}
  (hfresh : freshBodies unit new.definitions = .ok fresh)

include hdistinct hfresh

theorem fresh_names : (fresh.map (·.definition.name)).Nodup := by
  have hnames : fresh.map (·.definition.name) = (fresh.map (·.definition)).map (·.name) := by
    rw [List.map_map]
    rfl
  rw [hnames, (freshBodies_eq_ok hfresh).1]
  exact hdistinct

/-- The revision of a function of the new program. -/
theorem get?_revisionsOf {d : Definition} (hd : d ∈ new.definitions) :
    ∃ f ∈ fresh, f.definition = d ∧
    (revisionsOf (editSites loaded fresh new.definitions) fresh).get? d.name =
      some ⟨d.params, f.code, sitesAfter loaded fresh d⟩ := by
  rw [← (freshBodies_eq_ok hfresh).1] at hd
  obtain ⟨f, hf, rfl⟩ := List.mem_map.mp hd
  refine ⟨f, hf, rfl, ?_⟩
  have hkeys : ((fresh.map fun f => (f.definition.name,
      f.revision (editSites loaded fresh new.definitions))).map (·.1)).Nodup := by
    rw [List.map_map]
    exact fresh_names hdistinct hfresh
  have hmem : f.definition ∈ new.definitions := by
    rw [← (freshBodies_eq_ok hfresh).1]
    exact List.mem_map_of_mem hf
  have hget : (revisionsOf (editSites loaded fresh new.definitions) fresh).get? f.definition.name =
      some (f.revision (editSites loaded fresh new.definitions)) :=
    NameMap.get?_putAll_of_mem hkeys (List.mem_map.mpr ⟨f, hf, rfl⟩) _
  rw [hget]
  unfold Fresh.revision editSites
  rw [Definition.get?_byName, Definition.get?_of_distinct hdistinct hmem]
  rfl

/-- Every function of the new program has its revision, and the revisions cover the sites in all new
bodies. -/
theorem reissues_of_fresh (edited : String → Prop) :
    Reissues (revisionsOf (editSites loaded fresh new.definitions) fresh) edited new := by
  intro d hd
  obtain ⟨f, hf, rfl, hget⟩ := get?_revisionsOf loaded hdistinct hfresh hd
  obtain ⟨u, -, -, hcode⟩ := (freshBodies_eq_ok hfresh).2 f hf
  refine ⟨_, u, hget, rfl, hcode, ?_, ?_⟩
  · intro e he e' he' hname _ body hbody revision hrevision
    cases hdistinct.eq he he' hname
    obtain ⟨g, hg, -, hget'⟩ := get?_revisionsOf loaded hdistinct hfresh he
    cases hget'.symm.trans hrevision
    refine covers_of_mem (List.mem_append_right _ (List.mem_flatMap.mpr ⟨f, hf, ?_⟩))
    exact List.mem_map_of_mem hbody
  · intro e he e' he' hname _
    cases hdistinct.eq he he' hname
    exact ⟨rfl, rfl⟩

/-- The revisions cover the sites in the running code too. -/
theorem revises_of_loaded (hdistinct_old : Definition.Distinct old.definitions) {code : Code}
    (hdefinitions : loaded.definitions = old.definitions)
    (hsites : loaded.sites = sitesOf code old.definitions) :
    Revises (revisionsOf (editSites loaded fresh new.definitions) fresh)
      (Definition.Edited old.definitions new.definitions) new old code := by
  constructor
  · intro d hd d' hd' hname hdepth body hbody revision hrevision
    obtain ⟨f, -, -, hget⟩ := get?_revisionsOf loaded hdistinct hfresh hd'
    rw [← hname] at hget
    cases hget.symm.trans hrevision
    refine covers_of_mem (List.mem_append_left _ ?_)
    have hknown : loaded.sites.get? d.name = some ((code.sites d).map (·.id)) := by
      rw [hsites, sitesOf, Definition.get?_byName, Definition.get?_of_distinct hdistinct_old hd]
      rfl
    rw [← hname, hdefinitions, Definition.get?_of_distinct hdistinct_old hd]
    simp only [hdepth, if_true, hknown, Option.getD_some]
    exact List.mem_map_of_mem hbody
  · intro d hd d' hd' hname hunedited
    by_contra hdisagrees
    exact hunedited ⟨d, hd, d', hd', rfl, hname.symm, hdisagrees⟩

end Edit

end Session

namespace Ideal

open Session

/-- Two machines are in step before and after all bodies are put in place in the left one. -/
theorem Twin.patchAll {sites : NameMap (List CodeId)} {fresh : List Fresh}
    {edited : String → Prop} {l r : Ideal} (hfresh : (fresh.map (·.definition.name)).Nodup)
    (h : Twin (revisionsOf sites fresh) edited [] l r) :
    Twin (revisionsOf sites fresh) edited (revisionsOf sites fresh)
      { l with functions := Session.patchAll sites l.functions fresh } r :=
  ⟨h.context, twin_patchAll h.functions sites hfresh fun _ _ => rfl, h.scopes, h.built⟩

end Ideal

end LiveLisp
