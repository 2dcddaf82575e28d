/-
  Programs that are edited while they run. `Evolved` are the sessions that come from a load by steps
  and edits that do not restart, with the versions of the source that have been taken up. An edit
  that is answered as unchanged takes nothing up.

  Each version brings code: the program when it is loaded, the new bodies after an edit. No two
  versions share the number of a compilation, so the version and the definition can be told from
  what has been compiled (`Version.Compiled.unique`). The sites that a session keeps for a name,
  edit after edit, are those in the code of the versions (`mem_sites_applied`).
-/
import LiveLisp.Proofs.Code.Making
import LiveLisp.Proofs.Session.Edits
import LiveLisp.Proofs.Session.Revisions
import LiveLisp.Proofs.Session.Stepping

namespace LiveLisp

variable {σ : Type}

/-- A source that has been taken up: its program, the functions that it was found to define, and the
code that was compiled from it to be run. -/
structure Version where
  root : Node
  definitions : List Definition
  codes : List Code

/-- The sites that are kept for a name. -/
def Loaded.knownSites (loaded : Loaded) (name : String) : List CodeId :=
  (loaded.sites.get? name).getD []

namespace Version

/-- The function of this name that was found is at this depth. -/
def Defines (v : Version) (name : String) (depth : Nat) : Prop :=
  ∃ d, Definition.get? v.definitions name = some d ∧ d.depth = depth

/-- The body has been compiled from the definition, in the code of this version. -/
structure Compiled (v : Version) (d : Definition) (site : Code) : Prop where
  form : d ∈ v.root.definitions
  code : ∃ c ∈ v.codes, d.CompiledIn c site

/-- These are the parameters of the function of this name that was found, and its body as this
version compiles it. -/
def Body (v : Version) (name : String) (params : List String) (body : Code) : Prop :=
  ∃ d, Definition.get? v.definitions name = some d ∧ d.params = params ∧
    ∃ c ∈ v.codes, Code.ofDefinition c.id.unit d = .ok body

/-- All about a version is made from one source, by compilations with numbers below this. -/
structure Genuine (v : Version) (units : Nat) : Prop where
  source : ∃ source, Node.ofProgram source = .ok v.root
  found : Definition.find v.root = .ok v.definitions
  codes : ∀ c ∈ v.codes, Code.From v.root c ∧ c.id.unit < units

/-- No two versions share the number of a compilation. -/
def Apart (v v' : Version) : Prop :=
  ∀ c ∈ v.codes, ∀ c' ∈ v'.codes, c.id.unit ≠ c'.id.unit

end Version

/-- What an edit takes up. -/
def Session.Edit.version (edit : Session.Edit) : Version :=
  ⟨edit.root, edit.definitions, edit.fresh.map (·.code)⟩

/-- Sessions whose program has been loaded and has gone on since then, by steps and edits that do
not restart it, with the versions that have been taken up, the last one first. The world may change
in between. -/
inductive Session.Evolved (config : Config σ) : Session σ → List Version → Prop where
  | loaded {s s' : Session σ} {source : String} {root : Node}
    {definitions : List Definition} {code : Code}
      (hconfig : s.config = config) (hroot : Node.ofProgram source = .ok root)
      (hfound : Definition.find root = .ok definitions)
        (hcode : Code.ofProgram s.units root = .ok code)
      (hload : load source s = .ok () s') : Evolved config s' [⟨root, definitions, [code]⟩]
  | step {s : Session σ} {versions : List Version} (h : Evolved config s versions) :
    Evolved config (s.after Session.step) versions
  | outside {s : Session σ} {versions : List Version} (h : Evolved config s versions) (w : σ) :
    Evolved config { s with world := w } versions
  | unchanged {s s' : Session σ} {versions : List Version} {source : String}
      (h : Evolved config s versions)
      (hupdate : update source s = .ok .unchanged s') : Evolved config s' versions
  | edited {s s' : Session σ} {versions : List Version} {source : String}
      {root : Node} {edit : Edit}
      {outcome : UpdateOutcome} (h : Evolved config s versions)
        (hroot : Node.ofProgram source = .ok root)
      (hedit : Edit.prepare s.units root = .ok edit) (hupdate : update source s = .ok outcome s')
      (htaken : outcome ≠ .unchanged) (hkept : outcome ≠ .restarted) :
        Evolved config s' (edit.version :: versions)

theorem Session.Evolved.forward {config : Config σ} {s : Session σ} {versions : List Version}
    (h : Evolved config s versions) (n : Nat) : Evolved config (s.forward n) versions := by
  induction n with
  | zero => exact h
  | succ n ih => exact ih.step

/-! ## Code and its version -/

namespace Version

variable {v v' : Version} {units : Nat} {versions : List Version}

theorem Genuine.mono (h : v.Genuine units) {more : Nat} (hle : units ≤ more) : v.Genuine more :=
  ⟨h.source, h.found, fun c hc => ⟨(h.codes c hc).1, Nat.lt_of_lt_of_le (h.codes c hc).2 hle⟩⟩

theorem eq_of_unit (h : versions.Pairwise Apart) (hv : v ∈ versions)
    (hv' : v' ∈ versions) {c c' : Code} (hc : c ∈ v.codes) (hc' : c' ∈ v'.codes)
    (hunit : c.id.unit = c'.id.unit) : v = v' := by
  have : Std.Symm Apart := ⟨fun _ _ hapart c hc c' hc' heq => hapart c' hc' c hc heq.symm⟩
  by_contra hne
  exact h.forall hv hv' hne c hc c' hc' hunit

/-- A body has been compiled from one definition of one version. -/
theorem Compiled.eq (h : versions.Pairwise Apart) (hgenuine : ∀ v ∈ versions, v.Genuine units)
    (hv : v ∈ versions) (hv' : v' ∈ versions) {d d' : Definition} {site : Code}
    (hd : v.Compiled d site) (hd' : d' ∈ v'.root.definitions) {c' : Code} (hc' : c' ∈ v'.codes)
    (hid : site.id ∈ (c'.sites d').map (·.id)) : v = v' ∧ d = d' := by
  obtain ⟨c, hc, hcompiled⟩ := hd.code
  obtain ⟨site', hsite', hsame⟩ := List.mem_map.mp hid
  rw [((hgenuine v' hv').codes c' hc').1.sites d' hd' site' hsite',
    Code.id_of_ofDefinition hcompiled.compiled, CodeId.mk.injEq, Option.some.injEq] at hsame
  obtain rfl := eq_of_unit h hv hv' hc hc' hsame.1.symm
  obtain ⟨source, hsource⟩ := (hgenuine v hv).source
  exact ⟨rfl, Definition.eq_of_span hsource hd.form hd' hsame.2.symm⟩

/-- The version and the definition that a body has been compiled from can be told from it. -/
theorem Compiled.unique (h : versions.Pairwise Apart)
    (hgenuine : ∀ v ∈ versions, v.Genuine units) (hv : v ∈ versions) (hv' : v' ∈ versions)
    {d d' : Definition} {site : Code} (hd : v.Compiled d site) (hd' : v'.Compiled d' site) :
    v = v' ∧ d = d' := by
  obtain ⟨c', hc', hcompiled⟩ := hd'.code
  exact hd.eq h hgenuine hv hv' hd'.form hc' (List.mem_map_of_mem hcompiled.site)

/-- Some definition of the versions is where the body with these operands comes from. -/
def Known (versions : List Version) (f : String) (params : List String) (site : Code) : Prop :=
  ∃ v ∈ versions, ∃ d, d.name = f ∧ d.params = params ∧ v.Compiled d site

/-- The name has been compiled from one of its definitions to a body of this identity. -/
def SiteOf (versions : List Version) (name : String) (id : CodeId) : Prop :=
  ∃ v ∈ versions, ∃ d, Definition.get? v.definitions name = some d ∧
    ∃ c ∈ v.codes, id ∈ (c.sites d).map (·.id)

/-- A body is one that the name has been compiled to if its definition is the one that was found. -/
theorem Compiled.siteOf_iff (h : versions.Pairwise Apart)
    (hgenuine : ∀ v ∈ versions, v.Genuine units) (hv : v ∈ versions) {d : Definition} {site : Code}
    (hd : v.Compiled d site) {name : String} :
    SiteOf versions name site.id ↔ Definition.get? v.definitions name = some d := by
  constructor
  · rintro ⟨v', hv', d', hd', c', hc', hid⟩
    have hform := (Definition.find_eq_ok (hgenuine v' hv').found).2 (Definition.get?_eq_some hd').1
    obtain ⟨rfl, rfl⟩ := hd.eq h hgenuine hv hv' hform hc' hid
    exact hd'
  · intro hfound
    obtain ⟨c, hc, hcompiled⟩ := hd.code
    exact ⟨v, hv, d, hfound, c, hc, List.mem_map_of_mem hcompiled.site⟩

theorem Genuine.makes {O : String → List String → Code → Prop}
    (h : v.Genuine units) (hv : v ∈ versions) (hO : ∀ f params site, Known versions f params site →
      O f params site) {c : Code} (hc : c ∈ v.codes) :
    Makes (Named O) c.instructions := by
  refine (h.codes c hc).1.makes.imp fun f params site hsite => ?_
  obtain ⟨d, hd, rfl, rfl, hcompiled⟩ := hsite
  exact hO _ _ _ ⟨v, hv, d, rfl, rfl, hd, c, hc, hcompiled⟩

end Version

namespace Session

/-! ## What an edit brings -/

variable {units : Nat} {root : Node} {edit : Edit} {fresh : List Fresh}

/-- What has been prepared of an edit: definitions of different names, and a body for each. -/
structure Edit.Prepared (units : Nat) (root : Node) (edit : Edit) : Prop where
  root_eq : edit.root = root
  found : Definition.find root = .ok edit.definitions
  fresh : edit.fresh.map (·.definition) = edit.definitions
  bodies : ∀ f ∈ edit.fresh, ∃ u, units < u ∧ u < units + 1 + edit.fresh.length ∧
    Code.ofDefinition u f.definition = .ok f.code

theorem Edit.prepared (h : Edit.prepare units root = .ok edit) : edit.Prepared units root := by
  obtain ⟨definitions, hfound, h⟩ := except_bind_eq_ok h
  obtain ⟨code, hcode, h⟩ := except_bind_eq_ok h
  obtain ⟨fresh, hfresh, h⟩ := except_bind_eq_ok h
  cases h
  obtain ⟨hdefinitions, hbodies⟩ := freshBodies_eq_ok hfresh
  exact ⟨rfl, hfound, hdefinitions, hbodies⟩

namespace Edit.Prepared

variable (h : edit.Prepared units root)

include h

theorem mem {f : Fresh} (hf : f ∈ edit.fresh) : f.definition ∈ edit.definitions := by
  rw [← h.fresh]
  exact List.mem_map_of_mem hf

theorem names : (edit.fresh.map (·.definition.name)).Nodup := by
  have hnames : edit.fresh.map (·.definition.name) = edit.definitions.map (·.name) := by
    rw [← h.fresh, List.map_map]
    rfl
  rw [hnames]
  exact (Definition.find_eq_ok h.found).1

theorem genuine {source : String} (hroot : Node.ofProgram source = .ok root) :
    edit.version.Genuine (units + 1 + edit.fresh.length) := by
  obtain rfl := h.root_eq
  refine ⟨⟨source, hroot⟩, h.found, fun c hc => ?_⟩
  obtain ⟨f, hf, rfl⟩ := List.mem_map.mp hc
  obtain ⟨u, -, hlt, hcode⟩ := h.bodies f hf
  have hdefinition := (Definition.find_eq_ok h.found).2 (h.mem hf)
  exact ⟨Code.from_ofDefinition hdefinition hcode, by rw [Code.id_of_ofDefinition hcode]; exact hlt⟩

/-- The compilations of an edit have numbers of their own. -/
theorem apart {v : Version} (hv : v.Genuine units) : edit.version.Apart v := by
  intro c hc c' hc'
  obtain ⟨f, hf, rfl⟩ := List.mem_map.mp hc
  obtain ⟨u, hlt, -, hcode⟩ := h.bodies f hf
  have hold := (hv.codes c' hc').2
  rw [Code.id_of_ofDefinition hcode]
  show u ≠ c'.id.unit
  omega

end Edit.Prepared

/-- The sites after an edit are those before and those in the new bodies, for a name that stays at
its depth. -/
theorem mem_sites_applied {loaded : Loaded} {d previous : Definition} {name : String}
    {id : CodeId} (source : String) (m : Machine)
    (hd : Definition.get? edit.definitions name = some d)
    (hprevious : Definition.get? loaded.definitions name = some previous)
    (hdepth : previous.depth = d.depth) :
    id ∈ (edit.applied source loaded m).knownSites name ↔
      id ∈ loaded.knownSites name ∨ ∃ f ∈ edit.fresh, id ∈ (f.code.sites d).map (·.id) := by
  have hsites : (edit.applied source loaded m).sites.get? name =
    some (sitesAfter loaded edit.fresh d) := by
    show NameMap.get? name (edit.definitions.map fun d =>
      (d.name, sitesAfter loaded edit.fresh d)) = _
    rw [Definition.get?_byName, hd]
    rfl
  have hname := (Definition.get?_eq_some hd).2
  unfold Loaded.knownSites
  rw [hsites, Option.getD_some, sitesAfter, hname, hprevious]
  simp only [hdepth, if_true, List.mem_append, List.mem_flatMap]

end Session

end LiveLisp
