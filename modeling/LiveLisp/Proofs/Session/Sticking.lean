/-
  New bodies stick. A function that every version defines at one depth has, whenever it has been
  registered by one of those definitions, the parameters and the body of the latest version: also
  where old code registers it again, and after any number of edits, each of which may take the
  program back to an earlier call (`patches_stick`). A function of the same name that some other
  definition has registered keeps what that definition says.

  The latest version is the last one that has been taken up. An edit that is answered as unchanged
  keeps the code that was compiled before, so bodies have the places of the earlier text
  (`unchanged_keeps_body`).
-/
import LiveLisp.Proofs.Machine.Registered
import LiveLisp.Proofs.Session.Versions

namespace LiveLisp

variable {σ : Type} {versions : List Version} {name : String} {revision? : Option Revision}

/-! ## What is known of machines -/

/-- The functions of the machine come from the versions, and the name has this revision. -/
def Machine.Traces (versions : List Version) (name : String) (revision? : Option Revision)
    (m : Machine) : Prop :=
  ∀ O, (∀ f params site, Version.Known versions f params site → O f params site) →
    m.Registers O name revision?

namespace Machine.Traces

variable {m m' : Machine}

/-- Whatever a machine does that keeps track of where its functions come from. -/
theorem imp (h : m.Traces versions name revision?)
    (hkeeps : ∀ O, m.Registers O name revision? → m'.Registers O name revision?) :
    m'.Traces versions name revision? :=
  fun O hO => hkeeps O (h O hO)

theorem weaken (h : m.Traces versions name revision?) (v : Version) :
    m.Traces (v :: versions) name revision? := by
  refine fun O hO => h O fun f params site hsite => hO f params site ?_
  obtain ⟨w, hw, hcompiled⟩ := hsite
  exact ⟨w, List.mem_cons_of_mem v hw, hcompiled⟩

end Machine.Traces

theorem Machine.Tracks.tidied {P : Option String → List String → Code → Prop} {m : Machine}
    (h : m.Tracks P name revision?) (interval steps : Nat) :
    (m.tidied interval steps).Tracks P name revision? := by
  unfold Machine.tidied
  cases m.context.done with
  | true =>
    obtain ⟨n, m', hrun, hregisters⟩ := h.finish
    simp only [if_true, hrun]
    exact hregisters
  | false =>
    cases 0 < interval && steps % interval == 0 with
    | true =>
      obtain ⟨n, m', hrun, hregisters⟩ := h.collectGarbage
      simp only [Bool.false_eq_true, if_false, if_true, hrun]
      exact hregisters
    | false => exact h

namespace Session

variable {fresh : List Fresh} {sites : NameMap (List CodeId)}

/-! ## New bodies -/

section Bodies

variable {O : Option String → List String → Code → Prop} {table : FunctionTable}

theorem registers_patchAll_other (h : table.Registers O name revision?)
    (hfresh : ∀ f ∈ fresh, f.code.Made O) (hname : name ∉ fresh.map (·.definition.name)) :
    (patchAll sites table fresh).Registers O name revision? := by
  induction fresh generalizing table with
  | nil => exact h
  | cons f fresh ih =>
    rw [List.map_cons, List.mem_cons, not_or] at hname
    have hpatched : (table.patch f.definition.name (f.revision sites)).Registers O name revision? :=
      h.patch_other (hfresh f (List.mem_cons_self ..)) (Ne.symm hname.1)
    exact ih hpatched (fun g hg => hfresh g (List.mem_cons_of_mem _ hg)) hname.2

/-- Among new bodies for different names is the one for this name, which covers all that was covered
before. -/
theorem registers_patchAll (hnames : (fresh.map (·.definition.name)).Nodup)
    {f : Fresh} (hf : f ∈ fresh) (h : table.Registers O f.definition.name revision?)
    (hfresh : ∀ f ∈ fresh, f.code.Made O)
    (hcovers : ∀ old, revision? = some old → old.sites ⊆ (f.revision sites).sites) :
    (patchAll sites table fresh).Registers O f.definition.name (some (f.revision sites)) := by
  induction fresh generalizing table with
  | nil => cases hf
  | cons g fresh ih =>
    obtain ⟨hg, hnames⟩ := List.nodup_cons.mp hnames
    have hrest : ∀ f ∈ fresh, f.code.Made O := fun f hf => hfresh f (List.mem_cons_of_mem _ hf)
    have hcode : (g.revision sites).code.Made O := hfresh g (List.mem_cons_self ..)
    rcases List.mem_cons.mp hf with rfl | hf
    · have hpatched := h.patch hcode hcovers
      have hall : (patchAll sites (table.patch f.definition.name (f.revision sites))
        fresh).Registers O f.definition.name
          (some (f.revision sites)) := registers_patchAll_other hpatched hrest hg
      exact hall
    · have hne : g.definition.name ≠ f.definition.name :=
        fun hsame => hg (List.mem_map.mpr ⟨f, hf, hsame.symm⟩)
      exact ih hnames hf (h.patch_other hcode hne) hrest

end Bodies

/-- The revision that the latest version has made, if it is one that the program has been edited to.
-/
inductive Latest (name : String) (sites : List CodeId) : List Version → Option Revision → Prop where
  | loaded {v : Version} : Latest name sites [v] none
  | edited {v : Version} {versions : List Version} {params : List String} {code : Code}
      (h : v.Body name params code) :
    Latest name sites (v :: versions) (some ⟨params, code, sites⟩)

/-- All that is kept for a name: its sites, the machine that runs, and the states to return to. -/
structure Tracked (versions : List Version) (name : String) (loaded : Loaded)
    (checkpoints : NameMap Snapshot) : Prop where
  sites : ∀ id, id ∈ loaded.knownSites name ↔ Version.SiteOf versions name id
  machine : ∃ revision?, loaded.machine.Traces versions name revision? ∧
    Latest name (loaded.knownSites name) versions revision?
  checkpoints : ∀ k ∈ checkpoints.values, ∃ revision?, k.machine.Traces versions name revision? ∧
    ∀ revision, revision? = some revision → revision.sites ⊆ loaded.knownSites name

namespace Tracked

variable {loaded : Loaded} {checkpoints checkpoints' : NameMap Snapshot}

/-- Of the machine that runs too it can be said that its revision covers no more than is known. -/
theorem present (h : Tracked versions name loaded checkpoints) : ∃ revision?,
    loaded.machine.Traces versions name revision? ∧
      ∀ revision, revision? = some revision → revision.sites ⊆ loaded.knownSites name := by
  obtain ⟨revision?, htraces, hlatest⟩ := h.machine
  refine ⟨revision?, htraces, fun revision hrevision => ?_⟩
  cases hlatest with
  | loaded => cases hrevision
  | edited h =>
    cases hrevision
    exact List.Subset.refl _

/-- The program goes on, and its machine may have been kept. -/
theorem goesOn (h : Tracked versions name loaded checkpoints) {m : Machine}
    (hm : ∀ revision?, loaded.machine.Traces versions name revision? →
      m.Traces versions name revision?)
    (hkept : ∀ k ∈ checkpoints'.values, k.machine = loaded.machine ∨ k ∈ checkpoints.values) :
    Tracked versions name { loaded with machine := m } checkpoints' where
  sites := h.sites
  machine := by
    obtain ⟨revision?, htraces, hlatest⟩ := h.machine
    exact ⟨revision?, hm revision? htraces, hlatest⟩
  checkpoints := fun k hk => by
    rcases hkept k hk with hsame | hold
    · rw [hsame]
      exact h.present
    · exact h.checkpoints k hold

end Tracked

/-- What is kept of the versions that have been taken up. -/
structure Keeps (versions : List Version) (s : Session σ) (loaded : Loaded) : Prop where
  program : s.loaded = some loaded
  genuine : ∀ v ∈ versions, v.Genuine s.units
  apart : versions.Pairwise Version.Apart
  definitions : ∃ latest older, versions = latest :: older ∧ loaded.definitions = latest.definitions
  tracked : ∀ name depth, (∀ v ∈ versions, v.Defines name depth) →
    Tracked versions name loaded s.timeline.checkpoints

variable {s s' : Session σ} {loaded : Loaded}

/-! ## Loading -/

theorem keeps_install {source : String} {root : Node} {definitions : List Definition} {code : Code}
    (hroot : Node.ofProgram source = .ok root) (hfound : Definition.find root = .ok definitions)
    (hcode : Code.ofProgram s.units root = .ok code) :
    ∃ loaded, Keeps [⟨root, definitions, [code]⟩]
      (s.install source root.form definitions code (s.units + 1)) loaded := by
  have hunit : code.id.unit = s.units := Code.unit_of_ofProgram hcode
  have hgenuine : Version.Genuine ⟨root, definitions, [code]⟩ (s.units + 1) := by
    refine ⟨⟨source, hroot⟩, hfound, fun c hc => ?_⟩
    obtain rfl := List.mem_singleton.mp hc
    exact ⟨Code.from_ofProgram hroot hcode, by omega⟩
  refine ⟨⟨source, root.form, definitions, sitesOf code definitions, Machine.start code⟩,
    rfl, fun v hv => ?_,
    List.pairwise_singleton .., ⟨_, [], rfl, rfl⟩, fun name depth hdefines =>
      ⟨fun id => ?_, ?_, fun k hk => ?_⟩⟩
  · rw [List.mem_singleton.mp hv]
    exact hgenuine
  · obtain ⟨d, hd, -⟩ := hdefines _ (List.mem_singleton_self _)
    have hsites : (sitesOf code definitions).get? name = some ((code.sites d).map (·.id)) := by
      unfold sitesOf
      rw [Definition.get?_byName, hd]
      rfl
    unfold Loaded.knownSites
    rw [hsites, Option.getD_some]
    constructor
    · exact fun hid => ⟨_, List.mem_singleton_self _, d, hd, code, List.mem_singleton_self _, hid⟩
    · rintro ⟨v, hv, e, he, c, hc, hid⟩
      obtain rfl := List.mem_singleton.mp hv
      obtain rfl := List.mem_singleton.mp hc
      cases hd.symm.trans he
      exact hid
  · refine ⟨none, fun O hO => Machine.tracks_start (Code.sound_ofProgram hcode) ?_, .loaded⟩
    exact hgenuine.makes (List.mem_singleton_self _) hO (List.mem_singleton_self _)
  · cases hk

/-! ## Steps -/

theorem Keeps.step (h : Keeps versions s loaded) (hs : s.Sound) :
    ∃ loaded', Keeps versions (s.after Session.step) loaded' := by
  by_cases hruns : s.Runs loaded
  · have hhost :
      (replayHost s.config.capabilities s.steps).HonestIn ⟨s.world, s.timeline.answers⟩ :=
      replayHost_honest hs.honest hs.answers
    rcases step_of_running hs hruns with ⟨m, v, hexec, -, -, hstep⟩ | ⟨e, -, -, hstep⟩
    · rw [after_of_ok hstep]
      refine ⟨_, rfl, h.genuine, h.apart, h.definitions, fun name depth hdefines => ?_⟩
      refine (h.tracked name depth hdefines).goesOn (fun revision? htraces => ?_) fun k hk =>
        mem_calls hk
      exact htraces.imp fun O hm => (hm.step hhost hexec).tidied ..
    · rw [after_of_error hstep]
      refine ⟨loaded, h.program, h.genuine, h.apart, h.definitions, fun name depth hdefines => ?_⟩
      exact (h.tracked name depth hdefines).goesOn (fun _ => id) fun k hk => mem_calls hk
  · obtain ⟨e, hstep⟩ := step_of_resting h.program hruns
    rw [after_of_error hstep]
    exact ⟨loaded, h⟩

/-! ## Edits -/

/-- New bodies are put in a machine that the session holds. -/
theorem traces_patchAll {m : Machine} (hnames : (fresh.map (·.definition.name)).Nodup)
    {f : Fresh} (hf : f ∈ fresh) (h : m.Traces versions f.definition.name revision?)
    (hsound : ∀ g ∈ fresh, g.code.Sound)
      (hmakes : ∀ O, (∀ f params site, Version.Known versions f params site → O f params site) →
      ∀ g ∈ fresh, Makes (Named O) g.code.instructions)
    (hcovers : ∀ old, revision? = some old → old.sites ⊆ (f.revision sites).sites) :
    Machine.Traces versions f.definition.name (some (f.revision sites))
      { m with memory :=
        { m.memory with functions := patchAll sites m.memory.functions fresh } } := by
  intro O hO
  obtain ⟨r, hfollows, hr, hregisters⟩ := h O hO
  refine ⟨_, patchAll_follows sites fresh hfollows, patchAll_ideal_sound sites hsound hr,
    hregisters.context, ?_,
    hregisters.scopes⟩
  exact registers_patchAll hnames hf hregisters.functions (fun g hg =>
    (hmakes O hO g hg).made) hcovers

section Edited

variable {source : String} {root : Node} {edit : Edit} {m : Machine} {units : Nat}

/-- The sites of a name after an edit are those in the versions, with the one that is taken up. -/
theorem mem_knownSites_applied (source : String) (m : Machine)
    {d previous : Definition} {id : CodeId} (hd : Definition.get? edit.definitions name = some d)
    (hprevious : Definition.get? loaded.definitions name = some previous)
    (hdepth : previous.depth = d.depth)
    (hsites : id ∈ loaded.knownSites name ↔ Version.SiteOf versions name id) :
    id ∈ (edit.applied source loaded m).knownSites name ↔
      Version.SiteOf (edit.version :: versions) name id := by
  rw [mem_sites_applied source m hd hprevious hdepth, hsites]
  constructor
  · rintro (⟨v, hv, hsite⟩ | ⟨f, hf, hid⟩)
    · exact ⟨v, List.mem_cons_of_mem _ hv, hsite⟩
    · exact ⟨edit.version, List.mem_cons_self .., d, hd, f.code, List.mem_map_of_mem hf, hid⟩
  · rintro ⟨v, hv, e, he, c, hc, hid⟩
    rcases List.mem_cons.mp hv with rfl | hv
    · cases hd.symm.trans he
      obtain ⟨f, hf, rfl⟩ := List.mem_map.mp hc
      exact .inr ⟨f, hf, hid⟩
    · exact .inl ⟨v, hv, e, he, c, hc, hid⟩

theorem Tracked.edited {checkpoints checkpoints' : NameMap Snapshot} {depth : Nat}
    (h : Tracked versions name loaded checkpoints) (hedit : edit.Prepared units root)
    (hgenuine : edit.version.Genuine (units + 1 + edit.fresh.length))
    (hdefines : edit.version.Defines name depth)
    (hprevious : ∃ previous, Definition.get? loaded.definitions name = some previous ∧
      previous.depth = depth)
    (hm : m = loaded.machine ∨ ∃ k ∈ checkpoints.values, m = k.machine)
    (hkept : checkpoints'.values ⊆ checkpoints.values) :
    Tracked (edit.version :: versions) name (edit.applied source loaded m) checkpoints' := by
  obtain ⟨d, hd, rfl⟩ := hdefines
  obtain ⟨previous, hprevious, hdepth⟩ := hprevious
  have hold : ∀ id ∈ loaded.knownSites name, id ∈ (edit.applied source loaded m).knownSites name :=
    fun id hid => (mem_sites_applied source m hd hprevious hdepth).mpr (.inl hid)
  refine ⟨fun id => mem_knownSites_applied source m hd hprevious hdepth (h.sites id), ?_,
    fun k hk => ?_⟩
  · have htraces : ∃ revision?, m.Traces versions name revision? ∧
        ∀ revision, revision? = some revision → revision.sites ⊆ loaded.knownSites name := by
      rcases hm with rfl | ⟨k, hk, rfl⟩
      · exact h.present
      · exact h.checkpoints k hk
    obtain ⟨revision?, htraces, hcovers⟩ := htraces
    obtain ⟨hmem, rfl⟩ := Definition.get?_eq_some hd
    have hbody : ∃ f ∈ edit.fresh, f.definition = d := List.mem_map.mp (hedit.fresh.symm ▸ hmem)
    obtain ⟨f, hf, rfl⟩ := hbody
    obtain ⟨u, -, -, hcode⟩ := hedit.bodies f hf
    refine ⟨_, traces_patchAll hedit.names hf (htraces.weaken edit.version) (fun g hg => ?_)
      (fun O hO g hg => ?_)
      fun revision hrevision id hid => hold id (hcovers revision hrevision hid), .edited ?_⟩
    · obtain ⟨u, -, -, hcode⟩ := hedit.bodies g hg
      exact Code.sound_ofDefinition hcode
    · exact hgenuine.makes (List.mem_cons_self ..) hO (List.mem_map_of_mem hg)
    · refine ⟨_, hd, rfl, f.code, List.mem_map_of_mem hf, ?_⟩
      rw [Code.id_of_ofDefinition hcode]
      exact hcode
  · obtain ⟨revision?, htraces, hcovers⟩ := h.checkpoints k (hkept hk)
    exact ⟨revision?, htraces.weaken _, fun revision hrevision id hid =>
      hold id (hcovers revision hrevision hid)⟩

end Edited

theorem Keeps.edited (h : Keeps versions s loaded) {source : String} {root : Node}
    {edit : Edit} {m : Machine} (hroot : Node.ofProgram source = .ok root)
    (hedit : edit.Prepared s.units root) (hm : m = loaded.machine ∨
      ∃ k ∈ s.timeline.checkpoints.values, m = k.machine)
    (hloaded : s'.loaded = some (edit.applied source loaded m))
    (hunits : s'.units = s.units + 1 + edit.fresh.length)
    (hkept : s'.timeline.checkpoints.values ⊆ s.timeline.checkpoints.values) :
    Keeps (edit.version :: versions) s' (edit.applied source loaded m) := by
  have hgenuine := hedit.genuine hroot
  obtain ⟨latest, older, rfl, hlatest⟩ := h.definitions
  refine ⟨hloaded, fun v hv =>
    ?_, List.pairwise_cons.mpr ⟨fun v hv => hedit.apart (h.genuine v hv), h.apart⟩,
    ⟨edit.version, _, rfl, rfl⟩, fun name depth hdefines => ?_⟩
  · rw [hunits]
    rcases List.mem_cons.mp hv with rfl | hv
    · exact hgenuine
    · exact (h.genuine v hv).mono (by omega)
  · obtain ⟨hedited, hdefines⟩ := List.forall_mem_cons.mp hdefines
    have hprevious := hdefines latest (List.mem_cons_self ..)
    unfold Version.Defines at hprevious
    rw [← hlatest] at hprevious
    exact (h.tracked name depth hdefines).edited hedit hgenuine hedited hprevious hm hkept

/-- An edit that does not restart is one of `Taken`, made from this program. -/
theorem Keeps.taken (h : Keeps versions s loaded) {source : String} {root : Node} {edit : Edit}
    {outcome : UpdateOutcome} (hroot : Node.ofProgram source = .ok root)
    (hedit : Edit.prepare s.units root = .ok edit) (htaken : Taken source s outcome s')
    (hnew : outcome ≠ .unchanged) (hkept : outcome ≠ .restarted) :
    ∃ loaded', Keeps (edit.version :: versions) s' loaded' := by
  cases htaken with
  | unchanged => exact absurd rfl hnew
  | restarted => exact absurd rfl hkept
  | patched hroot' hloaded hedit' =>
    cases hroot.symm.trans hroot'
    cases hedit.symm.trans hedit'
    cases h.program.symm.trans hloaded
    exact ⟨_, h.edited hroot (Edit.prepared hedit) (.inl rfl) rfl rfl (List.Subset.refl _)⟩
  | rewound hroot' hloaded hedit' hearliest hk =>
    cases hroot.symm.trans hroot'
    cases hedit.symm.trans hedit'
    cases h.program.symm.trans hloaded
    refine ⟨_, h.edited hroot (Edit.prepared hedit)
      (.inr ⟨_, NameMap.mem_values_of_get? hk, rfl⟩) rfl rfl ?_⟩
    exact List.map_subset _ (List.filter_subset_self _)

/-- The same program under another text, or in another world. -/
theorem Keeps.same (h : Keeps versions s loaded) (source : String)
    (hloaded : s'.loaded = some { loaded with source }) (hunits : s'.units = s.units)
    (hcheckpoints : s'.timeline.checkpoints = s.timeline.checkpoints) :
    Keeps versions s' { loaded with source } where
  program := hloaded
  genuine := hunits ▸ h.genuine
  apart := h.apart
  definitions := h.definitions
  tracked := by
    intro name depth hdefines
    obtain ⟨hsites, hmachine, hkept⟩ := h.tracked name depth hdefines
    rw [hcheckpoints]
    exact ⟨hsites, hmachine, hkept⟩

/-! ## All sessions that have been edited -/

theorem Evolved.keeps {config : Config σ} (hhonest : ∀ c ∈ config.capabilities, c.Honest)
    (h : Evolved config s versions) : s.Sound ∧ ∃ loaded, Keeps versions s loaded := by
  induction h with
  | @loaded s s' source root definitions code hconfig hroot hfound hcode hload =>
    subst hconfig
    cases (load_of_ok (prepare_of_ok hroot hfound hcode)).symm.trans hload
    exact ⟨install_sound hhonest _ _ _ (Code.sound_ofProgram hcode) _,
      keeps_install hroot hfound hcode⟩
  | step h ih =>
    obtain ⟨hs, loaded, hkeeps⟩ := ih
    exact ⟨(step_safe hs).after_sound, hkeeps.step hs⟩
  | outside h w ih =>
    obtain ⟨hs, loaded, hkeeps⟩ := ih
    exact ⟨hs.setWorld w, _, hkeeps.same loaded.source hkeeps.program rfl rfl⟩
  | unchanged h hupdate ih =>
    obtain ⟨hs, loaded, hkeeps⟩ := ih
    refine ⟨(update_safe _ hs).sound_of_ok hupdate, ?_⟩
    cases update_eq_ok hupdate with
    | unchanged hroot hloaded halike =>
      cases hkeeps.program.symm.trans hloaded
      exact ⟨_, hkeeps.same _ rfl rfl rfl⟩
  | edited h hroot hedit hupdate hnew hkept ih =>
    obtain ⟨hs, loaded, hkeeps⟩ := ih
    exact ⟨(update_safe _ hs).sound_of_ok hupdate,
      hkeeps.taken hroot hedit (update_eq_ok hupdate) hnew hkept⟩

/-- New bodies stick. What is registered under a name has been compiled from a definition of this
name in some version. If every version has found a function of this name at one depth, and that
definition is the one found, then the parameters and the body are those of the latest version; if it
is another one they are its own. -/
theorem patches_stick {config : Config σ} (hhonest : ∀ c ∈ config.capabilities, c.Honest)
    {latest : Version} (h : Evolved config s (latest :: versions)) {depth : Nat}
    (hdefined : ∀ v ∈ latest :: versions, v.Defines name depth) (hloaded : s.loaded = some loaded)
    {entry : NamedFunction}
    (hentry : loaded.machine.memory.functions.entries.get? name = some entry) :
    (∃ v ∈ latest :: versions, ∃ d, d.name = name ∧ v.Compiled d entry.site) ∧
    ∀ v ∈ latest :: versions, ∀ d, d.name = name → v.Compiled d entry.site →
      (Definition.get? v.definitions name = some d → latest.Body name entry.params entry.code) ∧
      (Definition.get? v.definitions name ≠ some d → entry.params = d.params ∧
        entry.code = entry.site) := by
  obtain ⟨-, loaded', hkeeps⟩ := h.keeps hhonest
  cases hkeeps.program.symm.trans hloaded
  obtain ⟨hsites, ⟨revision?, htraces, hlatest⟩, -⟩ := hkeeps.tracked name depth hdefined
  have hregisters : loaded.machine.Registers (Version.Known (latest :: versions)) name revision? :=
    htraces _ fun _ _ _ hsite => hsite
  obtain ⟨params, ⟨v, hv, d, hd, rfl, hcompiled⟩, hbody⟩ := hregisters.entry hentry
  refine ⟨⟨v, hv, d, hd, hcompiled⟩, fun v' hv' d' _ hcompiled' => ?_⟩
  obtain ⟨rfl, rfl⟩ := hcompiled.unique hkeeps.apart hkeeps.genuine hv hv' hcompiled'
  have hrevision := hregisters.revision
  cases hlatest with
  | loaded =>
    -- Nothing has been edited: the body is the one that the program was compiled to.
    have hown : entry.params = d.params ∧ entry.code = entry.site := by
      rw [← Prod.mk.injEq, hbody]
      unfold reissued
      rw [Option.bind_some, hrevision]
    obtain rfl := List.mem_singleton.mp hv
    refine ⟨fun hfound => ?_, fun _ => hown⟩
    obtain ⟨c, hc, hsite⟩ := hcompiled.code
    exact ⟨d, hfound, hown.1.symm, c, hc, hown.2 ▸ hsite.compiled⟩
  | @edited _ _ params code hlatest =>
    -- The new body covers all bodies that the name has been compiled to, and no others.
    have hcovered : Revision.covers ⟨params, code, loaded.knownSites name⟩ entry.site = true ↔
        Definition.get? v.definitions name = some d :=
      Revision.covers_iff.trans
        ((hsites _).trans (hcompiled.siteOf_iff hkeeps.apart hkeeps.genuine hv))
    rw [reissued_of_revision hrevision] at hbody
    refine ⟨fun hfound => ?_, fun hother => ?_⟩
    · rw [if_pos (hcovered.mpr hfound), Prod.mk.injEq] at hbody
      rw [hbody.1, hbody.2]
      exact hlatest
    · rw [if_neg (mt hcovered.mp hother), Prod.mk.injEq] at hbody
      exact hbody

/-- A function is edited before it is registered; then the code of the first version registers it.
-/
theorem patches_stick_reregistered : ∃ (s : Session World)
    (latest first : Version) (loaded : Loaded)
      (entry : NamedFunction),
    Evolved playground s [latest, first] ∧ (∀ v ∈ [latest, first], v.Defines "f" 1) ∧
      s.loaded = some loaded ∧
    loaded.machine.memory.functions.entries.get? "f" = some entry ∧ entry.site.id ≠ entry.code.id ∧
    latest.Body "f" entry.params entry.code := by
  have hrun : yields (fun root =>
    yields (fun definitions => yields (fun code => yields (fun root' =>
        decide ((Definition.get? definitions "f").map (·.depth) = some 1) &&
        succeedsWith (fun _ s₁ => yields (fun edit =>
            decide ((Definition.get? edit.definitions "f").map (·.depth) = some 1) &&
            succeedsWith (fun outcome s₂ => decide (outcome = .patched ["f"]) &&
              ((s₂.forward 3).loaded.any fun loaded =>
                (loaded.machine.memory.functions.entries.get? "f").any fun entry =>
                  decide (entry.site.id ≠ entry.code.id)))
              (update "(defn f () 2) (f)" s₁)) (Edit.prepare s₁.units root'))
          (load "(defn f () 1) (f)" (.start playground {})))
        (Node.ofProgram "(defn f () 2) (f)")) (Code.ofProgram 0 root)) (Definition.find root))
      (Node.ofProgram "(defn f () 1) (f)") = true := by decide +kernel
  obtain ⟨root, hroot, hrun⟩ := yields_iff.mp hrun
  obtain ⟨definitions, hfound, hrun⟩ := yields_iff.mp hrun
  obtain ⟨code, hcode, hrun⟩ := yields_iff.mp hrun
  obtain ⟨root', hroot', hrun⟩ := yields_iff.mp hrun
  simp only [Bool.and_eq_true, decide_eq_true_eq, succeedsWith_iff, yields_iff, Option.any_eq_true,
    Option.map_eq_some_iff] at hrun
  obtain ⟨hfirst, _, s₁, hload, edit, hedit, hlatest, _, s₂, hupdate, rfl, loaded, hloaded, entry,
    hentry, hne⟩ := hrun
  have hstart : Evolved playground s₁ [⟨root, definitions, [code]⟩] :=
    .loaded rfl hroot hfound hcode hload
  have hedited : Evolved playground s₂ [edit.version, ⟨root, definitions, [code]⟩] :=
    hstart.edited hroot' hedit hupdate (by decide) (by decide)
  have hdefined : ∀ v ∈ [edit.version, ⟨root, definitions, [code]⟩], v.Defines "f" 1 :=
    List.forall_mem_cons.mpr ⟨hlatest, List.forall_mem_singleton.mpr hfirst⟩
  obtain ⟨⟨v, hv, d, hname, hcompiled⟩, hsticks⟩ :=
    patches_stick (fun c hc => (playground_complies c hc).honest)
    (hedited.forward 3) hdefined hloaded hentry
  obtain ⟨hlatest, hown⟩ := hsticks v hv d hname hcompiled
  have hfound : Definition.get? v.definitions "f" = some d := by
    by_contra hother
    exact hne (congrArg Code.id (hown hother).2.symm)
  exact ⟨s₂.forward 3, _, _, loaded, entry, hedited.forward 3, hdefined, hloaded, hentry,
    hne, hlatest hfound⟩

/-- A blank is put into a program that runs, which is answered as unchanged. The function has been
registered by its only definition and keeps the body compiled from that, which is not what the text
now says: its forms are at other places. -/
theorem unchanged_keeps_body : ∃ (s₁ s' : Session World) (root root' : Node)
    (definitions definitions' : List Definition)
      (d d' : Definition) (loaded : Loaded) (entry : NamedFunction),
    Node.ofProgram "(defn f () 1) (f)" = .ok root ∧
      Node.ofProgram "(defn f  () 1) (f)" = .ok root' ∧
    Definition.find root = .ok definitions ∧ Definition.find root' = .ok definitions' ∧
    Definition.get? definitions "f" = some d ∧ Definition.get? definitions' "f" = some d' ∧
      d.depth = d'.depth ∧
    load "(defn f () 1) (f)" (.start playground {}) = .ok () s₁ ∧
    update "(defn f  () 1) (f)" (s₁.forward 3) = .ok .unchanged s' ∧ s'.loaded = some loaded ∧
    loaded.machine.memory.functions.entries.get? "f" = some entry ∧
      Code.ofDefinition 0 d = .ok entry.site ∧
    ∀ unit, Code.ofDefinition unit d' ≠ .ok entry.code := by
  have hrun : yields (fun root =>
    yields (fun definitions => yields (fun code => yields (fun root' =>
        yields (fun definitions' => decide (root.definitions.map (·.name)).Nodup &&
          ((Definition.get? definitions "f").any fun d =>
            (Definition.get? definitions' "f").any fun d' =>
            decide (d.depth = d'.depth) &&
            succeedsWith (fun _ s₁ =>
                succeedsWith (fun outcome s' => decide (outcome = .unchanged) &&
                (s'.loaded.any fun loaded =>
                  (loaded.machine.memory.functions.entries.get? "f").any fun entry =>
                  decide (entry.code.id.form ≠ some d'.node.span)))
                (update "(defn f  () 1) (f)" (s₁.forward 3)))
              (load "(defn f () 1) (f)" (.start playground {}))))
          (Definition.find root'))
        (Node.ofProgram "(defn f  () 1) (f)")) (Code.ofProgram 0 root)) (Definition.find root))
      (Node.ofProgram "(defn f () 1) (f)") = true := by decide +kernel
  obtain ⟨root, hroot, hrun⟩ := yields_iff.mp hrun
  obtain ⟨definitions, hfound, hrun⟩ := yields_iff.mp hrun
  obtain ⟨code, hcode, hrun⟩ := yields_iff.mp hrun
  obtain ⟨root', hroot', hrun⟩ := yields_iff.mp hrun
  obtain ⟨definitions', hfound', hrun⟩ := yields_iff.mp hrun
  simp only [Bool.and_eq_true, decide_eq_true_eq, succeedsWith_iff, Option.any_eq_true] at hrun
  obtain ⟨hdistinct, d, hd, d', hd', hdepth, _, s₁, hload, _, s', hupdate, rfl, loaded, hloaded,
    entry, hentry, hform⟩ :=
    hrun
  have hevolved : Evolved playground s' [⟨root, definitions, [code]⟩] :=
    ((Evolved.loaded rfl hroot hfound hcode hload).forward 3).unchanged hupdate
  obtain ⟨-, loaded', hkeeps⟩ := hevolved.keeps fun c hc => (playground_complies c hc).honest
  cases hkeeps.program.symm.trans hloaded
  obtain ⟨revision?, htraces, -⟩ :=
    (hkeeps.tracked "f" d.depth (List.forall_mem_singleton.mpr ⟨d, hd, rfl⟩)).machine
  obtain ⟨params, ⟨v, hv, e, hname, -, hcompiled⟩, -⟩ :=
    (htraces _ fun _ _ _ hsite => hsite).entry hentry
  cases List.mem_singleton.mp hv
  obtain ⟨c, hc, hsite⟩ := hcompiled.code
  cases List.mem_singleton.mp hc
  have hsame : e = d := Definition.Distinct.eq hdistinct hcompiled.form
    ((Definition.find_eq_ok hfound).2 (Definition.get?_eq_some hd).1)
      (hname.trans (Definition.get?_eq_some hd).2.symm)
  refine ⟨s₁, s', root, root', definitions, definitions', d, d', loaded, entry, hroot, hroot',
    hfound, hfound', hd, hd',
    hdepth, hload, hupdate, hloaded, hentry, ?_, fun unit hbody => hform ?_⟩
  · rw [← Code.unit_of_ofProgram hcode, ← hsame]
    exact hsite.compiled
  · rw [Code.id_of_ofDefinition hbody]

end Session

end LiveLisp
