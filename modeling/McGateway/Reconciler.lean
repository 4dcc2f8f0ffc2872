import McGateway.CommitProgress
import McGateway.Interference
import McGateway.LeadsTo
import McGateway.RenderEmission
import McGateway.Watches

/-! # The control loop (`controller.go`, `run` of `main.go`)

A pass of the reconciler lists the pools, lists the keyspaces, renders what it has listed and commits
the tree.  It lists from copies of the resources that two watches keep up to date; every version that
arrives enqueues the one request there is, and a pass that fails has its request enqueued again after
a while.  The copies change during a pass, so what it renders may be pools of one moment with
keyspaces of another.

`ControlStep` has one constructor per event: the resources are edited and the edits arrive, a pass
begins, makes one of its calls and ends, the process dies anywhere and is started again.  With
`disturbed := False` there are no edits and no crashes, and only an operation on a name that is too
long for a file system fails.  The queue and the watches are those of the controller library, reduced
to the single request that this controller has.

Three results hold of every run from an empty mount.  What is on the mount is at all times a complete
configuration of versions that the resources have had (`control_loop_safe`).  No edit is lost:
whenever nothing is queued, delayed or on its way, the mount has converged to the current resources
(`control_loop_converges`).  And no history of failures leaves the loop stuck: left alone, it comes to
rest, and it rests only in such a state (`control_loop_recovers`).  The last needs the names of the
inlined modules to be short enough for file names, which nothing in the resources enforces: a pass
over a longer one fails, and is repeated for ever. -/

namespace McGateway.Operator

open Bytes (ascii)

/-! ### A pass -/

/-- The gauges of `metrics.go`. -/
inductive Gauge where
  | renderWarnings
  | snapshotObjects (kind : Kind)
deriving DecidableEq, Repr

/-- What a pass calls besides the mount. -/
inductive ControlOp where
  | listPools
  | listKeyspaces
  | setGauge (g : Gauge) (value : ℕ)
  | countCommit (ok : Bool)
  | storeCommitted
deriving DecidableEq, Repr

/-- A list that fails is `none`. -/
@[reducible] def ControlOp.Answer : ControlOp → Type
  | listPools => Option (List Pool)
  | listKeyspaces => Option (List Keyspace)
  | _ => Unit

/-- The mount and the rest. -/
abbrev Control : Interface := FS.plus ⟨ControlOp, ControlOp.Answer⟩

inductive ReconcileError where
  /-- `list pools: <err>` -/
  | listPools
  /-- `list keyspaces: <err>` -/
  | listKeyspaces
  | commit (e : CommitError)
deriving DecidableEq, Repr

/-- A pass, or what is left of it. -/
abbrev Pass := Prog Control (Except ReconcileError Unit)

def control (op : ControlOp) : Prog Control op.Answer := Prog.ask (S := Control) (.inr op)

/-- The end of a pass. -/
def finishPass (o : Outcome) : Pass :=
  match o.2 with
  | some e => do
      control (.countCommit false)
      pure (.error (.commit e))
  | none => do
      control (.countCommit true)
      control .storeCommitted
      pure (.ok ())

/-- A pass that has listed the resources. -/
def applySnapshot (s : Snapshot) : Pass := do
  control (.setGauge (.snapshotObjects .pool) s.pools.length)
  control (.setGauge (.snapshotObjects .keyspace) s.keyspaces.length)
  control (.setGauge .renderWarnings (render s).2.length)
  (commit (render s).1).inl >>= finishPass

/-- `Reconcile`. -/
def reconcile : Pass := do
  match ← control .listPools with
  | none => pure (.error .listPools)
  | some pools =>
      match ← control .listKeyspaces with
      | none => pure (.error .listKeyspaces)
      | some keyspaces => applySnapshot ⟨pools, keyspaces⟩

/-! ### Long names -/

/-- The longest name of a file, in bytes. -/
def nameMax : ℕ := 255

/-- The path has a name that is too long for a file. -/
def TooLong (name : Bytes) : Prop := ∃ p, resolve name = some p ∧ ∃ f ∈ p, nameMax < f.1.length

/-- The operation is on a file that cannot exist for the length of its name.  A name that has been
listed is not too long. -/
def FsOp.Exceeds : FsOp → Prop
  | .readFile name => TooLong name
  | .writeFile name _ => TooLong name
  | .rename oldname newname => TooLong oldname ∨ TooLong newname
  | _ => False

/-- The temp files of the inlined modules have names that are not too long. -/
def ShortModules (keyspaces : List Keyspace) : Prop :=
  ∀ ks ∈ keyspaces, ∀ m, ks.spec.merge = some m → m.wasm ≠ [] → m.name.length ≤ 246

theorem not_tooLong {name : Bytes} {p : Path} (hname : resolve name = some p)
    (hp : ∀ f ∈ p, f.1.length ≤ nameMax) : ¬TooLong name := by
  rintro ⟨q, hq, f, hf, hlong⟩
  obtain rfl : p = q := Option.some.inj (hname.symm.trans hq)
  exact absurd (hp f hf) (not_le.mpr hlong)

/-- The files of a rendered tree, and their temp files. -/
theorem ShortModules.not_tooLong {sn : Snapshot} (h : ShortModules sn.keyspaces) {path : Bytes}
    (hpath : path ∈ (render sn).1) : ¬TooLong path ∧ ¬TooLong (path ++ tmpSuffix) := by
  have hudf : udfName.1.length ≤ nameMax := by decide
  rcases mem_render.mp hpath with rfl | ⟨n, hn, rfl⟩
  · refine ⟨Operator.not_tooLong resolve_configFile ?_, Operator.not_tooLong resolve_configFile_tmp ?_⟩
    all_goals decide
  · have hsafe := (mem_emittedModules hn).1
    have h0 := nul_not_mem_moduleEntry hsafe
    obtain ⟨w, hw⟩ := Option.isSome_iff_exists.mp (AList.lookup_isSome.mpr hn)
    obtain ⟨ks, hks⟩ := lookup_emittedModules_iff.mp hw
    have hlen : n.length ≤ 246 := h ks hks.unique.1 _ hks.inlines.merge hks.inlines.bytes
    have hentry : (moduleEntry n hsafe).1.length = n.length + 5 := by
      simp [moduleEntry, wasmSuffix, ascii]
    have htmp : (moduleEntry n hsafe).tmp.1.length = n.length + 9 := by
      simp [Name.tmp, hentry, tmpSuffix, ascii]
    rw [← udfPath_moduleEntry hsafe]
    refine ⟨Operator.not_tooLong (resolve_udfPath h0) ?_, Operator.not_tooLong (resolve_udfPath_tmp h0) ?_⟩
    · simp only [List.mem_cons, List.not_mem_nil, or_false, forall_eq_or_imp, forall_eq, hudf, true_and]
      unfold nameMax
      omega
    · simp only [List.mem_cons, List.not_mem_nil, or_false, forall_eq_or_imp, forall_eq, hudf, true_and]
      unfold nameMax
      omega

theorem ShortModules.commit {sn : Snapshot} (h : ShortModules sn.keyspaces) :
    (commit (render sn).1).CallsOnly fun op : FsOp => ¬op.Exceeds := by
  refine commit_callsOnly (fun _ => id) (fun _ => id) ⟨?_, ?_, ?_⟩
  · exact fun path hpath => (h.not_tooLong (mem_sortedKeys.mp hpath)).1
  · exact fun path hpath _ => (h.not_tooLong (mem_sortedKeys.mp hpath)).2
  · intro path hpath
    obtain ⟨hat, htmp⟩ := h.not_tooLong (mem_sortedKeys.mp hpath)
    exact not_or.mpr ⟨htmp, hat⟩

/-! ### The system -/

/-- What a pass and its surroundings share. -/
structure Site where
  pools : Watch (List Pool)
  keyspaces : Watch (List Keyspace)
  queued : Bool
  disk : Disk
  gauge : Gauge → ℕ
  commits : Bool → ℕ
  committed : Bool

/-- The resources as they are. -/
def Site.resources (s : Site) : Snapshot := ⟨s.pools.server, s.keyspaces.server⟩

/-- The resources as the watches have reported them. -/
def Site.cached (s : Site) : Snapshot := ⟨s.pools.cache, s.keyspaces.cache⟩

/-- A call of a pass; failures happen only if `disturbed`, or on a name that is too long. -/
inductive ReconcileStep (disturbed : Prop) : (op : Control.Op) → Site → Control.Answer op → Site → Prop where
  /-- Whatever fails, the mount stays a tree. -/
  | fs (s : Site) (op : FsOp) (a : op.Answer) (d : Disk)
      (h : MountStep (disturbed ∨ op.Exceeds) op s.disk a d)
      (htree : s.disk.Tree → d.Tree) : ReconcileStep disturbed (.inl op) s a { s with disk := d }
  | listPools (s : Site) : ReconcileStep disturbed (.inr .listPools) s (some s.pools.cache) s
  | listPoolsFails (s : Site) (h : disturbed) : ReconcileStep disturbed (.inr .listPools) s none s
  | listKeyspaces (s : Site) : ReconcileStep disturbed (.inr .listKeyspaces) s (some s.keyspaces.cache) s
  | listKeyspacesFails (s : Site) (h : disturbed) : ReconcileStep disturbed (.inr .listKeyspaces) s none s
  | setGauge (s : Site) (g : Gauge) (value : ℕ) : ReconcileStep disturbed (.inr (.setGauge g value)) s ()
      { s with gauge := Function.update s.gauge g value }
  | countCommit (s : Site) (ok : Bool) : ReconcileStep disturbed (.inr (.countCommit ok)) s ()
      { s with commits := Function.update s.commits ok (s.commits ok + 1) }
  | storeCommitted (s : Site) :
      ReconcileStep disturbed (.inr .storeCommitted) s () { s with committed := true }

/-- What happens around a pass. -/
inductive EnvStep (disturbed : Prop) : Site → Site → Prop where
  | editPools (s : Site) (v : List Pool) (h : disturbed) :
      EnvStep disturbed s { s with pools := s.pools.edit v }
  | editKeyspaces (s : Site) (v : List Keyspace) (h : disturbed) :
      EnvStep disturbed s { s with keyspaces := s.keyspaces.edit v }
  | deliverPools (s : Site) (w : Watch (List Pool)) (h : s.pools.Delivers w) :
      EnvStep disturbed s { s with pools := w, queued := true }
  | deliverKeyspaces (s : Site) (w : Watch (List Keyspace)) (h : s.keyspaces.Delivers w) :
      EnvStep disturbed s { s with keyspaces := w, queued := true }
  /-- The request is enqueued, for whatever reason. -/
  | enqueue (s : Site) (h : disturbed) : EnvStep disturbed s { s with queued := true }

/-- Where the process is. -/
inductive Loop where
  | down
  | waiting
  | pass (p : Pass)

structure ControlWorld where
  site : Site
  /-- A failed pass will be repeated. -/
  delayed : Bool
  loop : Loop

/-- The site of a process that has just been started on the mount `d`. -/
def Site.booted (s : Site) (d : Disk) : Site where
  pools := s.pools.sync
  keyspaces := s.keyspaces.sync
  queued := true
  disk := d
  gauge := fun _ => 0
  commits := fun _ => 0
  committed := false

/-- Edits and crashes happen only if `disturbed`. -/
inductive ControlStep (disturbed : Prop) : ControlWorld → ControlWorld → Prop where
  | env (w : ControlWorld) (s : Site) (hs : EnvStep disturbed w.site s) :
      ControlStep disturbed w { w with site := s }
  | retry (w : ControlWorld) (h : w.delayed = true) :
      ControlStep disturbed w { w with site := { w.site with queued := true }, delayed := false }
  | begin (w : ControlWorld) (hloop : w.loop = .waiting) (hq : w.site.queued = true) :
      ControlStep disturbed w { w with site := { w.site with queued := false }, loop := .pass reconcile }
  | call (w : ControlWorld) (op : Control.Op) (k : Control.Answer op → Pass) (a : Control.Answer op)
      (s : Site) (hloop : w.loop = .pass (.call op k)) (hs : ReconcileStep disturbed op w.site a s) :
      ControlStep disturbed w { w with site := s, loop := .pass (k a) }
  | done (w : ControlWorld) (hloop : w.loop = .pass (.ret (.ok ()))) :
      ControlStep disturbed w { w with loop := .waiting }
  | failed (w : ControlWorld) (e : ReconcileError) (hloop : w.loop = .pass (.ret (.error e))) :
      ControlStep disturbed w { w with delayed := true, loop := .waiting }
  | crash (w : ControlWorld) (h : disturbed) :
      ControlStep disturbed w ⟨{ w.site with queued := false, committed := false }, false, .down⟩
  /-- `run`: the module directory is made, and the first request is enqueued by hand. -/
  | boot (w : ControlWorld) (d : Disk) (hloop : w.loop = .down)
      (hd : w.site.disk.mkdirAll [udfName] = some d) :
      ControlStep disturbed w ⟨w.site.booted d, false, .waiting⟩

/-- An empty mount, and a process that has not been started. -/
def ControlWorld.init (s : Snapshot) : ControlWorld :=
  ⟨⟨.fresh [] s.pools, .fresh [] s.keyspaces, false, ∅, fun _ => 0, fun _ => 0, false⟩, false, .down⟩

/-- Nothing is queued, delayed, on its way or in progress. -/
structure AtRest (w : ControlWorld) : Prop where
  loop : w.loop = .waiting
  queued : w.site.queued = false
  delayed : w.delayed = false
  pools : w.site.pools.feed = []
  keyspaces : w.site.keyspaces.feed = []

/-! ### The invariant -/

/-- The resources of the snapshot have been current at some time, the pools and the keyspaces each. -/
def Site.HasHeld (s : Site) (sn : Snapshot) : Prop :=
  sn.pools ∈ s.pools.versions ∧ sn.keyspaces ∈ s.keyspaces.versions

def Site.HasConfig (s : Site) : Prop := (s.disk.contents configFile).isSome

structure SiteInv (s : Site) : Prop where
  pools : s.pools.Tracks
  keyspaces : s.keyspaces.Tracks
  plain : Plain s.disk
  mount : ∃ started, MountInv started s.disk ∧ ∀ sn ∈ started, s.HasHeld sn
  ready : s.committed = true → s.HasConfig

/-- The mount, the gauges and the readiness are those of the resources that have been reported. -/
structure UpToDate (s : Site) : Prop where
  converged : Converged (render s.cached).1 s.disk s.disk
  warnings : s.gauge .renderWarnings = (render s.cached).2.length
  pools : s.gauge (.snapshotObjects .pool) = s.cached.pools.length
  keyspaces : s.gauge (.snapshotObjects .keyspace) = s.cached.keyspaces.length
  committed : s.committed = true

/-- A step that keeps the invariant and a configuration that is there. -/
def Keeps (s s' : Site) : Prop := SiteInv s → SiteInv s' ∧ (s.HasConfig → s'.HasConfig)

/-- What a pass relies on: its surroundings do not touch the mount, and if they change a copy that it
may have listed, the request is queued again. -/
structure Rely (s s' : Site) : Prop where
  keeps : Keeps s s'
  disk : s'.disk = s.disk
  gauge : s'.gauge = s.gauge
  committed : s'.committed = s.committed
  queued : s.queued = true → s'.queued = true
  cached : s'.queued = true ∨ s'.cached = s.cached
  held : ∀ sn, s.HasHeld sn → s'.HasHeld sn

theorem Keeps.refl (s : Site) : Keeps s s := fun h => ⟨h, id⟩

theorem Rely.refl (s : Site) : Rely s s :=
  ⟨.refl s, rfl, rfl, rfl, id, Or.inr rfl, fun _ => id⟩

theorem Rely.trans {s t u : Site} (h : Rely s t) (h' : Rely t u) : Rely s u where
  keeps hinv := by
    obtain ⟨ht, hc⟩ := h.keeps hinv
    obtain ⟨hu, hc'⟩ := h'.keeps ht
    exact ⟨hu, hc' ∘ hc⟩
  disk := h'.disk.trans h.disk
  gauge := h'.gauge.trans h.gauge
  committed := h'.committed.trans h.committed
  queued := h'.queued ∘ h.queued
  cached := by
    rcases h'.cached with hq | he
    · exact Or.inl hq
    · rcases h.cached with hq | he'
      · exact Or.inl (h'.queued hq)
      · exact Or.inr (he.trans he')
  held sn := h'.held sn ∘ h.held sn

/-- A site that differs from a good one in the watches, the queue, the gauges and the counters. -/
theorem SiteInv.of_disk {s s' : Site} (h : SiteInv s) (hpools : s'.pools.Tracks)
    (hkeyspaces : s'.keyspaces.Tracks) (hdisk : s'.disk = s.disk) (hheld : ∀ sn, s.HasHeld sn → s'.HasHeld sn)
    (hready : s'.committed = true → s'.HasConfig) : SiteInv s' := by
  obtain ⟨started, hmount, hstarted⟩ := h.mount
  exact ⟨hpools, hkeyspaces, hdisk ▸ h.plain, ⟨started, hdisk ▸ hmount, fun sn hsn => hheld sn (hstarted sn hsn)⟩,
    hready⟩

section env
variable {disturbed : Prop} {s s' : Site}

theorem EnvStep.rely (h : EnvStep disturbed s s') : Rely s s' := by
  cases h with
  | editPools v _ =>
      have hheld (sn : Snapshot) (hsn : s.HasHeld sn) :
          Site.HasHeld { s with pools := s.pools.edit v } sn := ⟨Watch.mem_versions_edit v hsn.1, hsn.2⟩
      exact ⟨fun hinv => ⟨hinv.of_disk (hinv.pools.edit v) hinv.keyspaces rfl hheld hinv.ready, id⟩,
        rfl, rfl, rfl, id, Or.inr rfl, hheld⟩
  | editKeyspaces v _ =>
      have hheld (sn : Snapshot) (hsn : s.HasHeld sn) :
          Site.HasHeld { s with keyspaces := s.keyspaces.edit v } sn :=
        ⟨hsn.1, Watch.mem_versions_edit v hsn.2⟩
      exact ⟨fun hinv => ⟨hinv.of_disk hinv.pools (hinv.keyspaces.edit v) rfl hheld hinv.ready, id⟩,
        rfl, rfl, rfl, id, Or.inr rfl, hheld⟩
  | deliverPools w hw =>
      have hheld (sn : Snapshot) (hsn : s.HasHeld sn) :
          Site.HasHeld { s with pools := w, queued := true } sn := ⟨hw.versions ▸ hsn.1, hsn.2⟩
      exact ⟨fun hinv => ⟨hinv.of_disk (hinv.pools.delivers hw) hinv.keyspaces rfl hheld hinv.ready, id⟩,
        rfl, rfl, rfl, fun _ => rfl, Or.inl rfl, hheld⟩
  | deliverKeyspaces w hw =>
      have hheld (sn : Snapshot) (hsn : s.HasHeld sn) :
          Site.HasHeld { s with keyspaces := w, queued := true } sn := ⟨hsn.1, hw.versions ▸ hsn.2⟩
      exact ⟨fun hinv => ⟨hinv.of_disk hinv.pools (hinv.keyspaces.delivers hw) rfl hheld hinv.ready, id⟩,
        rfl, rfl, rfl, fun _ => rfl, Or.inl rfl, hheld⟩
  | enqueue _ =>
      exact ⟨fun hinv => ⟨hinv.of_disk hinv.pools hinv.keyspaces rfl (fun _ => id) hinv.ready, id⟩,
        rfl, rfl, rfl, fun _ => rfl, Or.inl rfl, fun _ => id⟩

theorem UpToDate.rely (h : UpToDate s) (hr : Rely s s') : s'.queued = true ∨ UpToDate s' := by
  apply hr.cached.imp id
  intro hc
  obtain ⟨hconv, hwarn, hpools, hkeyspaces, hcomm⟩ := h
  refine ⟨?_, ?_, ?_, ?_, hr.committed.trans hcomm⟩
  · rwa [hc, hr.disk]
  all_goals rw [hc, hr.gauge]; assumption

end env

/-! ### What a pass does -/

/-- An operation of the mount that keeps it a tree. -/
def TreeStep : Effect FS Disk := fun op d a d' => MountStep True op d a d' ∧ (d.Tree → d'.Tree)

/-- The mount without a difference from the tree is as it was. -/
theorem Converged.self {desired : ByteMap Bytes} {d₀ d : Disk} (h : Converged desired d₀ d) :
    Converged desired d d :=
  ⟨h.tree, h.placed, h.noTemp, h.noStale, h.udf, fun _ _ _ _ => Or.inl rfl⟩

theorem Converged.hasConfig {sn : Snapshot} {d₀ d : Disk} (h : Converged (render sn).1 d₀ d) :
    (d.contents configFile).isSome := by
  rw [h.placed configFile (flatTree_render sn).config, lookup_render_config]
  rfl

theorem Converged.inPlace {sn : Snapshot} {d₀ d : Disk} (h : Converged (render sn).1 d₀ d) :
    InPlace (render sn).1 d := by
  have hat : ∀ path data q, (render sn).1.lookup path = some data → resolve path = some q →
      d.node q = some (.file data) := by
    intro path data q hdata hq
    have hmem : path ∈ (render sn).1 := AList.lookup_isSome.mp (by rw [hdata]; rfl)
    obtain ⟨p, hp, hnode⟩ := contents_eq_some.mp ((h.placed path hmem).trans hdata)
    rw [hq, Option.some.injEq] at hp
    exact hp ▸ hnode
  constructor
  · intro f data hmem hdata
    exact hat _ _ _ hdata (resolve_udfPath ((flatTree_render sn).udf (mem_sortedKeys.mp hmem)).1)
  · intro data hdata
    exact hat _ _ _ hdata resolve_configFile

/-- Everything a commit guarantees, on a mount that stays a tree. -/
theorem commit_pass (sn : Snapshot) {d : Disk} (hd : d.Tree) :
    (commit (render sn).1).Guarantees TreeStep
      (fun op d d' => CommitStep (render sn).1 op d d' ∧ (Plain d → Plain d'))
      (fun o d' => o.2 = none → Converged (render sn).1 d' d') d := by
  have hflat := flatTree_render sn
  have hsteps : (commit (render sn).1).Guarantees TreeStep (CommitStep (render sn).1)
      (OnSuccess (InPlace (render sn).1)) d :=
    (commit_guarantees hflat d).restrict fun op d r d' h => h.1.fsStep
  have hplaced : (commit (render sn).1).Guarantees TreeStep (fun op d d' => Placed op) (fun _ _ => True) d :=
    (commit_placed hflat).guarantees d
  have hyields : (commit (render sn).1).Guarantees TreeStep (fun _ _ _ => True)
      (fun o d' => o.2 = none → Converged (render sn).1 d' d') d := by
    have hlogged : (commit (render sn).1).Guarantees (LoggedStep True) (fun _ _ _ => True)
        (fun o s => o.2 = none → Converged (render sn).1 s.1 s.1) (d, []) :=
      (commit_yields True hflat.desiredTree hd).mono fun o s hdone hok => (hdone.success hok).2.2.self
    exact hlogged.unlogged.restrict fun op d r d' h => h.1
  refine (hsteps.and (hplaced.and hyields)).imp ?_ fun o d' h => h.2.2
  rintro op d a d' hstep ⟨hcommit, hop, -⟩
  exact ⟨hcommit, fun hp => hp.step hop hstep.1.fsStep (hstep.2 hp.tree)⟩

/-- The pass works on `sn`: the copies are the same, or the request is queued again. -/
structure Holding (sn : Snapshot) (s : Site) : Prop where
  inv : SiteInv s
  held : s.HasHeld sn
  current : s.queued = true ∨ s.cached = sn

/-- The gauges show `sn`. -/
structure Shown (sn : Snapshot) (s : Site) : Prop where
  pools : s.gauge (.snapshotObjects .pool) = sn.pools.length
  keyspaces : s.gauge (.snapshotObjects .keyspace) = sn.keyspaces.length
  warnings : s.gauge .renderWarnings = (render sn).2.length

section pass
variable {disturbed : Prop} {sn : Snapshot} {s s' : Site}

theorem Holding.rely (h : Holding sn s) (hr : Rely s s') : Holding sn s' := by
  refine ⟨(hr.keeps h.inv).1, hr.held sn h.held, ?_⟩
  rcases h.current with hq | hc
  · exact Or.inl (hr.queued hq)
  · exact hr.cached.imp id fun he => he.trans hc

theorem Shown.rely (h : Shown sn s) (hr : Rely s s') : Shown sn s' := by
  obtain ⟨hp, hk, hw⟩ := h
  exact ⟨hr.gauge ▸ hp, hr.gauge ▸ hk, hr.gauge ▸ hw⟩

/-- An operation of the commit keeps what holds of the pass. -/
theorem Holding.commitStep {op : FsOp} {d : Disk} (h : Holding sn s)
    (hstep : CommitStep (render sn).1 op s.disk d) (hplain : Plain s.disk → Plain d) :
    Keeps s { s with disk := d } ∧ Holding sn { s with disk := d } := by
  obtain ⟨started, hmount, hstarted⟩ := h.inv.mount
  have hconfig : s.HasConfig → Site.HasConfig { s with disk := d } := config_persists hstep
  have hinv : SiteInv { s with disk := d } := by
    refine ⟨h.inv.pools, h.inv.keyspaces, hplain h.inv.plain, ⟨sn :: started, ?_, ?_⟩,
      fun hc => hconfig (h.inv.ready hc)⟩
    · exact (hmount.cons sn).step List.mem_cons_self hstep
    · intro sn' hsn'
      cases List.mem_cons.mp hsn' with
      | inl he => exact he ▸ h.held
      | inr hmem => exact hstarted sn' hmem
  exact ⟨fun _ => ⟨hinv, hconfig⟩, hinv, h.held, h.current⟩

/-- The result of a pass that has returned. -/
def PassResult (r : Except ReconcileError Unit) (s : Site) : Prop :=
  r = .ok () → s.queued = true ∨ UpToDate s

/-- The specification of a pass, or of what is left of it. -/
abbrev PassSpec (disturbed : Prop) (p : Pass) (s : Site) : Prop :=
  p.Withstands (ReconcileStep disturbed) Rely (fun _ => Keeps) PassResult s

theorem PassSpec.later {p : Pass} (h : PassSpec disturbed p s) (hr : Rely s s') : PassSpec disturbed p s' :=
  Prog.Withstands.later (R := Rely) (fun _ _ _ => Rely.trans) h hr

theorem PassSpec.error (e : ReconcileError) : PassSpec disturbed (.ret (.error e)) s := by
  intro s' _ h
  cases h

/-- A call that is not about the mount. -/
theorem PassSpec.control {op : ControlOp} {k : op.Answer → Pass}
    (h : ∀ s', Rely s s' → ∀ a s'', ReconcileStep disturbed (.inr op) s' a s'' →
      Keeps s' s'' ∧ PassSpec disturbed (k a) s'') : PassSpec disturbed (control op >>= k) s := h

/-- Counting, and setting a gauge, keep the invariant. -/
theorem Keeps.of_eq (hpools : s'.pools = s.pools) (hkeyspaces : s'.keyspaces = s.keyspaces)
    (hdisk : s'.disk = s.disk) (hcommitted : s'.committed = s.committed) : Keeps s s' := by
  have hconfig : s.HasConfig → s'.HasConfig := by
    intro hc
    rwa [Site.HasConfig, hdisk]
  have hheld (sn : Snapshot) (h : s.HasHeld sn) : s'.HasHeld sn := by
    rwa [Site.HasHeld, hpools, hkeyspaces]
  intro hinv
  refine ⟨hinv.of_disk (hpools ▸ hinv.pools) (hkeyspaces ▸ hinv.keyspaces) hdisk hheld ?_, hconfig⟩
  intro hc
  exact hconfig (hinv.ready (hcommitted ▸ hc))

/-- A pass whose commit has returned no error. -/
structure Landed (sn : Snapshot) (s : Site) : Prop where
  holding : Holding sn s
  shown : Shown sn s
  converged : Converged (render sn).1 s.disk s.disk

theorem Landed.rely (h : Landed sn s) (hr : Rely s s') : Landed sn s' :=
  ⟨h.holding.rely hr, h.shown.rely hr, hr.disk ▸ h.converged⟩

theorem Landed.countCommit (h : Landed sn s) (ok : Bool) :
    Landed sn { s with commits := Function.update s.commits ok (s.commits ok + 1) } := by
  have hkeeps : Keeps s { s with commits := Function.update s.commits ok (s.commits ok + 1) } :=
    .of_eq rfl rfl rfl rfl
  exact ⟨⟨(hkeeps h.holding.inv).1, h.holding.held, h.holding.current⟩, ⟨h.shown.pools, h.shown.keyspaces, h.shown.warnings⟩,
    h.converged⟩

theorem Landed.storeCommitted (h : Landed sn s) :
    Keeps s { s with committed := true } ∧
      (s.queued = true ∨ UpToDate { s with committed := true }) := by
  constructor
  · intro hinv
    refine ⟨hinv.of_disk hinv.pools hinv.keyspaces rfl (fun _ => id) ?_, id⟩
    exact fun _ => h.converged.hasConfig
  · apply h.holding.current.imp id
    rintro rfl
    exact ⟨h.converged, h.shown.warnings, h.shown.pools, h.shown.keyspaces, rfl⟩

theorem finishPass_spec {o : Outcome} (ho : o.2 = none → Landed sn s) :
    PassSpec disturbed (finishPass o) s := by
  unfold finishPass
  cases hn : o.2 with
  | some e =>
      apply PassSpec.control
      intro s₁ hr _ s₂ hstep
      cases hstep
      exact ⟨.of_eq rfl rfl rfl rfl, PassSpec.error _⟩
  | none =>
      apply PassSpec.control
      intro s₁ hr _ s₂ hstep
      cases hstep
      refine ⟨.of_eq rfl rfl rfl rfl, ?_⟩
      have hlanded := ((ho hn).rely hr).countCommit true
      apply PassSpec.control
      intro s₃ hr' _ s₄ hstep
      cases hstep
      obtain ⟨hkeeps, hdone⟩ := (hlanded.rely hr').storeCommitted
      refine ⟨hkeeps, ?_⟩
      intro s₅ hr'' _
      cases hdone with
      | inl hq => exact Or.inl (hr''.queued hq)
      | inr hup => exact hup.rely hr''

/-- Setting a gauge. -/
theorem Holding.setGauge (h : Holding sn s) (g : Gauge) (value : ℕ) :
    Holding sn { s with gauge := Function.update s.gauge g value } := by
  have hkeeps : Keeps s { s with gauge := Function.update s.gauge g value } := .of_eq rfl rfl rfl rfl
  exact ⟨(hkeeps h.inv).1, h.held, h.current⟩

theorem commitPass_spec (h : Holding sn s) (hshown : Shown sn s) :
    PassSpec disturbed ((commit (render sn).1).inl >>= finishPass) s := by
  apply Prog.Withstands.bind Rely.refl
  refine Prog.Guarantees.withstands_inl Site.disk (P := fun s => Holding sn s ∧ Shown sn s)
    (fun hr => hr.disk) (fun hr hP => ⟨hP.1.rely hr, hP.2.rely hr⟩) ?_ ?_
    (commit_pass sn h.inv.plain.tree) ⟨h, hshown⟩
  · rintro op s a s' ⟨hhold, hshow⟩ hstep
    cases hstep with
    | fs _ _ _ d hmount htree =>
        refine ⟨⟨hmount.imp id fun hf => ⟨trivial, hf.2⟩, htree⟩, ?_⟩
        rintro ⟨hcommit, hplain⟩
        obtain ⟨hkeeps, hhold'⟩ := hhold.commitStep hcommit hplain
        exact ⟨hkeeps, hhold', ⟨hshow.pools, hshow.keyspaces, hshow.warnings⟩⟩
  · rintro o s ⟨hhold, hshow⟩ hconv
    exact finishPass_spec fun hn => ⟨hhold, hshow, hconv hn⟩

theorem applySnapshot_spec (h : Holding sn s) : PassSpec disturbed (applySnapshot sn) s := by
  apply PassSpec.control
  intro s₁ hr₁ _ t₁ hstep
  cases hstep
  refine ⟨.of_eq rfl rfl rfl rfl, ?_⟩
  have h₁ := (h.rely hr₁).setGauge (.snapshotObjects .pool) sn.pools.length
  apply PassSpec.control
  intro s₂ hr₂ _ t₂ hstep
  cases hstep
  refine ⟨.of_eq rfl rfl rfl rfl, ?_⟩
  have h₂ := (h₁.rely hr₂).setGauge (.snapshotObjects .keyspace) sn.keyspaces.length
  apply PassSpec.control
  intro s₃ hr₃ _ t₃ hstep
  cases hstep
  refine ⟨.of_eq rfl rfl rfl rfl, commitPass_spec ((h₂.rely hr₃).setGauge _ _) ⟨?_, ?_, ?_⟩⟩
  all_goals simp [hr₂.gauge, hr₃.gauge, Function.update]

theorem reconcile_spec (h : SiteInv s) : PassSpec disturbed reconcile s := by
  apply PassSpec.control
  intro s₁ hr₁ a t₁ hstep
  have h₁ := (hr₁.keeps h).1
  refine ⟨?_, ?_⟩
  · cases hstep <;> exact .refl _
  cases hstep with
  | listPoolsFails _ _ => exact PassSpec.error _
  | listPools _ =>
      apply PassSpec.control
      intro s₂ hr₂ b t₂ hstep
      obtain ⟨h₂, -⟩ := hr₂.keeps h₁
      refine ⟨?_, ?_⟩
      · cases hstep <;> exact .refl _
      cases hstep with
      | listKeyspacesFails _ _ => exact PassSpec.error _
      | listKeyspaces _ =>
          apply applySnapshot_spec
          refine ⟨h₂, ⟨?_, h₂.keyspaces.cache_mem⟩, ?_⟩
          · have hheld : s₁.HasHeld s₁.cached := ⟨h₁.pools.cache_mem, h₁.keyspaces.cache_mem⟩
            exact (hr₂.held _ hheld).1
          · refine hr₂.cached.imp id fun he => ?_
            have hpools : s₂.pools.cache = s₁.pools.cache := congrArg Snapshot.pools he
            rw [Site.cached, hpools]

end pass

/-! ### Runs -/

/-- The calls of a pass on the mount are those of a commit. -/
def PassCall : Control.Op → Prop
  | .inl op => Placed op
  | .inr _ => True

theorem callsOnly_inl {α : Type} {p : Prog FS α} (h : p.CallsOnly Placed) :
    (p.inl : Prog Control α).CallsOnly PassCall := by
  induction p with
  | ret a => trivial
  | call op k ih => exact ⟨h.1, fun r => ih r (h.2 r)⟩

theorem finishPass_callsOnly (o : Outcome) : (finishPass o).CallsOnly PassCall := by
  unfold finishPass
  cases o.2 with
  | some e => exact ⟨trivial, fun _ => trivial⟩
  | none => exact ⟨trivial, fun _ => ⟨trivial, fun _ => trivial⟩⟩

theorem reconcile_callsOnly : reconcile.CallsOnly PassCall := by
  refine ⟨trivial, fun listed => ?_⟩
  cases listed with
  | none => trivial
  | some pools =>
      refine ⟨trivial, fun listed => ?_⟩
      cases listed with
      | none => trivial
      | some keyspaces =>
          refine ⟨trivial, fun _ => ⟨trivial, fun _ => ⟨trivial, fun _ => ?_⟩⟩⟩
          exact (callsOnly_inl (commit_placed (flatTree_render _))).bind finishPass_callsOnly

/-- What holds of the process. -/
def LoopInv (w : ControlWorld) : Prop :=
  match w.loop with
  | .down => w.site.committed = false
  | .waiting => w.delayed = true ∨ w.site.queued = true ∨ UpToDate w.site
  | .pass p => PassSpec True p w.site ∧ p.CallsOnly PassCall

structure ControlInv (w : ControlWorld) : Prop where
  site : SiteInv w.site
  loop : LoopInv w

/-- The directory that `run` makes is none of a commit's files. -/
theorem SiteInv.booted {s : Site} {d : Disk} (h : SiteInv s) (hd : s.disk.mkdirAll [udfName] = some d) :
    SiteInv (s.booted d) ∧ (s.HasConfig → (s.booted d).HasConfig) := by
  obtain ⟨d', hd', hplain, hdir, hframe⟩ := h.plain.mkdirAll (g := [udfName]) (Or.inr rfl)
  obtain rfl : d = d' := Option.some.inj (hd.symm.trans hd')
  have hstep : CommitStep (render s.resources).1 (.readDir udfDir) s.disk d := by
    refine .temp _ _ _ fun q _ => ?_
    by_cases hq : q = [udfName]
    · subst hq
      rcases Disk.mkdirAll_node hd [udfName] with hold | ⟨hnone, hnew, -⟩
      · exact Or.inl hold
      · exact Or.inr ⟨rfl, hnone, hnew⟩
    · exact Or.inl (hframe q hq)
  obtain ⟨started, hmount, hstarted⟩ := h.mount
  refine ⟨⟨.sync _, .sync _, hplain, ⟨s.resources :: started, ?_, ?_⟩, fun hc => by cases hc⟩,
    config_persists hstep⟩
  · exact (hmount.cons _).step List.mem_cons_self hstep
  · intro sn hsn
    cases List.mem_cons.mp hsn with
    | inl he => exact he ▸ ⟨List.mem_cons_self, List.mem_cons_self⟩
    | inr hmem => exact hstarted sn hmem

/-- What the surroundings do keeps it, and so does the end of a delay. -/
theorem LoopInv.rely {w w' : ControlWorld} (h : LoopInv w) (hloop : w'.loop = w.loop) (hr : Rely w.site w'.site)
    (hdelayed : w.delayed = true → w'.delayed = true ∨ w'.site.queued = true) : LoopInv w' := by
  unfold LoopInv at h ⊢
  rw [hloop]
  cases hl : w.loop with
  | down =>
      simp only [hl] at h
      exact hr.committed.trans h
  | waiting =>
      simp only [hl] at h
      rcases h with hd | hq | hup
      · exact (hdelayed hd).imp_right Or.inl
      · exact Or.inr (Or.inl (hr.queued hq))
      · exact Or.inr (hup.rely hr)
  | pass p =>
      simp only [hl] at h
      exact ⟨PassSpec.later h.1 hr, h.2⟩

/-- A step keeps the invariant and the configuration. -/
theorem ControlInv.step {w w' : ControlWorld} (hstep : ControlStep True w w') (h : ControlInv w) :
    ControlInv w' ∧ (w.site.HasConfig → w'.site.HasConfig) := by
  have hloop := h.loop
  unfold LoopInv at hloop
  cases hstep with
  | env s hs =>
      obtain ⟨hsite, hconfig⟩ := hs.rely.keeps h.site
      exact ⟨⟨hsite, h.loop.rely rfl hs.rely Or.inl⟩, hconfig⟩
  | retry hd =>
      have hr : Rely w.site { w.site with queued := true } :=
        (EnvStep.enqueue w.site trivial : EnvStep True w.site _).rely
      obtain ⟨hsite, hconfig⟩ := hr.keeps h.site
      exact ⟨⟨hsite, h.loop.rely rfl hr fun _ => Or.inr rfl⟩, hconfig⟩
  | begin hl hq =>
      have hsite : SiteInv { w.site with queued := false } :=
        h.site.of_disk h.site.pools h.site.keyspaces rfl (fun _ => id) h.site.ready
      exact ⟨⟨hsite, reconcile_spec hsite, reconcile_callsOnly⟩, id⟩
  | call op k a s hl hs =>
      simp only [hl] at hloop
      obtain ⟨hkeeps, hrest⟩ := hloop.1.of_call Rely.refl hs
      obtain ⟨hsite, hconfig⟩ := hkeeps h.site
      exact ⟨⟨hsite, hrest, hloop.2.2 a⟩, hconfig⟩
  | done hl =>
      simp only [hl] at hloop
      exact ⟨⟨h.site, Or.inr (hloop.1.of_ret Rely.refl rfl)⟩, id⟩
  | failed e hl => exact ⟨⟨h.site, Or.inl rfl⟩, id⟩
  | crash _ =>
      refine ⟨⟨?_, rfl⟩, id⟩
      exact h.site.of_disk h.site.pools h.site.keyspaces rfl (fun _ => id) fun hc => by cases hc
  | boot d hl hd =>
      obtain ⟨hsite, hconfig⟩ := h.site.booted hd
      exact ⟨⟨hsite, Or.inr (Or.inl rfl)⟩, hconfig⟩

theorem ControlInv.init (s : Snapshot) : ControlInv (ControlWorld.init s) := by
  refine ⟨⟨Watch.tracks_fresh _ _, Watch.tracks_fresh _ _, plain_empty, ⟨[], WorldInv.init.mount, ?_⟩, ?_⟩, rfl⟩
  · intro sn hsn
    cases hsn
  · intro hc
    cases hc

/-- A run of the control loop. -/
abbrev ControlRun (disturbed : Prop) : ControlWorld → ControlWorld → Prop :=
  Relation.ReflTransGen (ControlStep disturbed)

theorem ControlInv.run {w w' : ControlWorld} (hrun : ControlRun True w w') (h : ControlInv w) :
    ControlInv w' ∧ (w.site.HasConfig → w'.site.HasConfig) := by
  induction hrun with
  | refl => exact ⟨h, id⟩
  | tail _ hstep ih =>
      obtain ⟨h', hconfig⟩ := ih
      obtain ⟨h'', hconfig'⟩ := h'.step hstep
      exact ⟨h'', hconfig' ∘ hconfig⟩

/-! ### Recovery -/

/-- The keyspaces a pass may come to list have short module names. -/
def Site.Short (s : Site) : Prop :=
  ∀ v ∈ s.keyspaces.server :: s.keyspaces.cache :: s.keyspaces.feed, ShortModules v

/-- What a pass relies on if it is left alone. -/
structure CalmRely (s s' : Site) : Prop where
  rely : Rely s s'
  short : s.Short → s'.Short

theorem CalmRely.refl (s : Site) : CalmRely s s := ⟨.refl s, id⟩

theorem CalmRely.trans {s t u : Site} (h : CalmRely s t) (h' : CalmRely t u) : CalmRely s u :=
  ⟨h.rely.trans h'.rely, h'.short ∘ h.short⟩

section recovery
variable {s s' : Site}

/-- Deliveries bring no other versions. -/
theorem EnvStep.calm (h : EnvStep False s s') : CalmRely s s' := by
  refine ⟨h.rely, ?_⟩
  intro hshort
  cases h with
  | editPools v hf => exact hf.elim
  | editKeyspaces v hf => exact hf.elim
  | deliverPools w hw => exact hshort
  | deliverKeyspaces w hw =>
      obtain ⟨skipped, v, rest, hfeed⟩ := hw
      intro u hu
      apply hshort u
      simp only [List.mem_cons, hfeed, List.mem_append] at hu ⊢
      tauto
  | enqueue hf => exact hf.elim

/-- Undisturbed, the pass can only end without an error. -/
abbrev PassSucceeds (p : Pass) (s : Site) : Prop :=
  p.Withstands (ReconcileStep False) CalmRely (fun _ _ _ => True) (fun r _ => r = .ok ()) s

theorem PassSucceeds.control {op : ControlOp} {k : op.Answer → Pass}
    (h : ∀ s', CalmRely s s' → ∀ a s'', ReconcileStep False (.inr op) s' a s'' → PassSucceeds (k a) s'') :
    PassSucceeds (control op >>= k) s :=
  fun s' hr a s'' hstep => ⟨trivial, h s' hr a s'' hstep⟩

theorem finishPass_succeeds {o : Outcome} (ho : NoError o) : PassSucceeds (finishPass o) s := by
  unfold finishPass
  rw [NoError] at ho
  rw [ho]
  apply PassSucceeds.control
  intro _ _ _ _ _
  apply PassSucceeds.control
  intro _ _ _ _ _ _ _
  rfl

theorem applySnapshot_succeeds {sn : Snapshot} (h : SiteInv s) (hshort : ShortModules sn.keyspaces) :
    PassSucceeds (applySnapshot sn) s := by
  -- nothing before the commit touches the mount
  apply PassSucceeds.control
  intro s₁ hr₁ _ t₁ hstep
  cases hstep
  apply PassSucceeds.control
  intro s₂ hr₂ _ t₂ hstep
  cases hstep
  apply PassSucceeds.control
  intro s₃ hr₃ _ t₃ hstep
  cases hstep
  have hdisk : s₃.disk = s.disk := by rw [hr₃.rely.disk, hr₂.rely.disk, hr₁.rely.disk]
  have hplain : Plain s₃.disk := hdisk ▸ h.plain
  have hcommit : (commit (render sn).1).Guarantees (fun (op : FsOp) d a d' => MountStep op.Exceeds op d a d')
      (fun _ _ _ => True) (fun o d' => NoError o ∧ Plain d') s₃.disk := by
    refine hshort.commit.restrict ?_ (commit_noError (flatTree_render sn) hplain)
    exact fun op hop d a d' hstep => hstep.imp id fun hfault => absurd hfault.1 hop
  apply Prog.Withstands.bind CalmRely.refl
  refine Prog.Guarantees.withstands_inl Site.disk (P := fun _ => True) (fun hr => hr.rely.disk)
    (fun _ _ => trivial) ?_ ?_ hcommit trivial
  · intro op s a s' _ hstep
    cases hstep with
    | fs _ _ _ d hmount htree =>
        exact ⟨hmount.imp id fun hfault => ⟨hfault.1.resolve_left id, hfault.2⟩, fun _ => ⟨trivial, trivial⟩⟩
  · intro o s _ ho
    exact finishPass_succeeds ho.1

theorem reconcile_succeeds (h : SiteInv s) (hshort : s.Short) : PassSucceeds reconcile s := by
  apply PassSucceeds.control
  intro s₁ hr₁ _ t₁ hstep
  have h₁ := (hr₁.rely.keeps h).1
  cases hstep with
  | listPoolsFails _ hfalse => exact hfalse.elim
  | listPools _ =>
      apply PassSucceeds.control
      intro s₂ hr₂ _ t₂ hstep
      cases hstep with
      | listKeyspacesFails _ hfalse => exact hfalse.elim
      | listKeyspaces _ =>
          have hcache := hr₂.short (hr₁.short hshort) s₂.keyspaces.cache (.tail _ (.head _))
          exact applySnapshot_succeeds (hr₂.rely.keeps h₁).1 hcache

end recovery

section calm
variable {w w' : ControlWorld}

theorem ReconcileStep.disturb {op : Control.Op} {a : Control.Answer op} {s s' : Site}
    (h : ReconcileStep False op s a s') : ReconcileStep True op s a s' := by
  cases h with
  | fs _ op a d hmount htree => exact .fs _ _ _ _ (hmount.imp id fun hf => ⟨Or.inl trivial, hf.2⟩) htree
  | listPools _ => exact .listPools _
  | listPoolsFails _ hf => exact hf.elim
  | listKeyspaces _ => exact .listKeyspaces _
  | listKeyspacesFails _ hf => exact hf.elim
  | setGauge _ g value => exact .setGauge _ g value
  | countCommit _ ok => exact .countCommit _ ok
  | storeCommitted _ => exact .storeCommitted _

theorem EnvStep.disturb {s s' : Site} (h : EnvStep False s s') : EnvStep True s s' := by
  cases h with
  | editPools v hf => exact hf.elim
  | editKeyspaces v hf => exact hf.elim
  | deliverPools w hw => exact .deliverPools _ w hw
  | deliverKeyspaces w hw => exact .deliverKeyspaces _ w hw
  | enqueue hf => exact hf.elim

theorem ControlStep.disturb (h : ControlStep False w w') : ControlStep True w w' := by
  cases h with
  | env s hs => exact .env _ s hs.disturb
  | retry hd => exact .retry _ hd
  | begin hl hq => exact .begin _ hl hq
  | call op k a s hl hs => exact .call _ op k a s hl hs.disturb
  | done hl => exact .done _ hl
  | failed e hl => exact .failed _ e hl
  | crash hf => exact hf.elim
  | boot d hl hd => exact .boot _ d hl hd

/-- The pass in progress may still fail, or there is no process. -/
def MayFail (w : ControlWorld) : Prop :=
  match w.loop with
  | .down => True
  | .waiting => False
  | .pass p => ¬PassSucceeds p w.site

open Classical in
noncomputable def failureLeft (w : ControlWorld) : ℕ := if MayFail w then 1 else 0

/-- What is left to do: versions to deliver, a failure, a repetition, a request. -/
noncomputable def workLeft (w : ControlWorld) : ℕ :=
  8 * (w.site.pools.feed.length + w.site.keyspaces.feed.length) + 4 * failureLeft w +
    2 * w.delayed.toNat + w.site.queued.toNat

theorem failureLeft_le (h : MayFail w' → MayFail w) : failureLeft w' ≤ failureLeft w := by
  unfold failureLeft
  by_cases h' : MayFail w'
  · rw [if_pos h', if_pos (h h')]
  · rw [if_neg h']
    exact Nat.zero_le _

theorem failureLeft_eq_one (h : MayFail w) : failureLeft w = 1 := if_pos h

theorem failureLeft_eq_zero (h : ¬MayFail w) : failureLeft w = 0 := if_neg h

theorem MayFail.of_rely (hloop : w'.loop = w.loop) (hr : CalmRely w.site w'.site) (h : MayFail w') : MayFail w := by
  unfold MayFail at h ⊢
  rw [hloop] at h
  cases hl : w.loop with
  | down => trivial
  | waiting =>
      rw [hl] at h
      exact h
  | pass p =>
      rw [hl] at h
      exact fun hp => h (Prog.Withstands.later (R := CalmRely) (fun _ _ _ => CalmRely.trans) hp hr)

/-- A call leaves the queue and the watches alone. -/
theorem ReconcileStep.frame {disturbed : Prop} {op : Control.Op} {a : Control.Answer op} {s s' : Site}
    (h : ReconcileStep disturbed op s a s') :
    s'.pools = s.pools ∧ s'.keyspaces = s.keyspaces ∧ s'.queued = s.queued := by
  cases h <;> exact ⟨rfl, rfl, rfl⟩

/-- The invariant of a system that is left alone. -/
structure CalmInv (w : ControlWorld) : Prop where
  inv : ControlInv w
  short : w.site.Short

theorem CalmInv.step (hstep : ControlStep False w w') (h : CalmInv w) : CalmInv w' := by
  refine ⟨(h.inv.step hstep.disturb).1, ?_⟩
  have hshort := h.short
  cases hstep with
  | env s hs => exact hs.calm.short hshort
  | call op k a s hl hs =>
      unfold Site.Short
      rw [hs.frame.2.1]
      exact hshort
  | boot d hl hd =>
      intro v hv
      apply hshort v
      simp only [Site.booted, Watch.sync, Watch.fresh, List.mem_cons, List.not_mem_nil, or_false,
        or_self] at hv
      exact hv ▸ List.mem_cons_self
  | crash hf => exact hf.elim
  | retry _ | begin _ _ | done _ | failed _ _ => exact hshort

theorem CalmInv.run (hrun : ControlRun False w w') (h : CalmInv w) : CalmInv w' := by
  induction hrun with
  | refl => exact h
  | tail _ hstep ih => exact ih.step hstep

/-- A delivery leaves less work, though it may enqueue the request. -/
theorem EnvStep.workLeft_lt {s : Site} (hs : EnvStep False w.site s) : workLeft { w with site := s } < workLeft w := by
  have hfail : failureLeft { w with site := s } ≤ failureLeft w := failureLeft_le (MayFail.of_rely rfl hs.calm)
  have hq := Bool.toNat_le true
  cases hs with
  | editPools v hf | editKeyspaces v hf | enqueue hf => exact hf.elim
  | deliverPools v hv | deliverKeyspaces v hv =>
      have hlt := hv.feed_lt
      simp only [workLeft] at hfail ⊢
      omega

/-- A pass that begins will not fail. -/
theorem CalmInv.workLeft_begin (h : CalmInv w) (hq : w.site.queued = true) :
    workLeft { w with site := { w.site with queued := false }, loop := .pass reconcile } < workLeft w := by
  have hsite := h.inv.site
  have hsite' : SiteInv { w.site with queued := false } :=
    hsite.of_disk hsite.pools hsite.keyspaces rfl (fun _ => id) hsite.ready
  have hnot : ¬MayFail { w with site := { w.site with queued := false }, loop := .pass reconcile } :=
    fun hfail => hfail (reconcile_succeeds hsite' h.short)
  simp only [workLeft, failureLeft_eq_zero hnot, hq, Bool.toNat_true, Bool.toNat_false]
  omega

/-- Undisturbed, a step has less work to do, or it takes a pass one call further, or ends it. -/
theorem ControlStep.calm_cases (hstep : ControlStep False w w') (hcalm : CalmInv w) :
    workLeft w' < workLeft w ∨ (workLeft w' ≤ workLeft w ∧
      ((∃ op k a, w.loop = .pass (.call op k) ∧ w'.loop = .pass (k a)) ∨
        ∃ r, w.loop = .pass (.ret r) ∧ w'.loop = .waiting)) := by
  cases hstep with
  | env s hs => exact Or.inl hs.workLeft_lt
  | retry hd =>
      have hr : CalmRely w.site { w.site with queued := true } :=
        ⟨(EnvStep.enqueue w.site trivial : EnvStep True w.site _).rely, id⟩
      have hfail : failureLeft { w with site := { w.site with queued := true }, delayed := false } ≤
          failureLeft w := failureLeft_le (MayFail.of_rely rfl hr)
      left
      simp only [workLeft, hd, Bool.toNat_true, Bool.toNat_false] at hfail ⊢
      omega
  | begin hl hq => exact Or.inl (hcalm.workLeft_begin hq)
  | call op k a s hl hs =>
      right
      obtain ⟨hpools, hkeyspaces, hqueued⟩ := hs.frame
      have hfail : failureLeft { w with site := s, loop := .pass (k a) } ≤ failureLeft w := by
        apply failureLeft_le
        unfold MayFail
        simp only [hl]
        exact fun hk hp => hk (Prog.Withstands.of_call CalmRely.refl hp hs).2
      refine ⟨?_, Or.inl ⟨op, k, a, hl, rfl⟩⟩
      simp only [workLeft, hpools, hkeyspaces, hqueued]
      omega
  | done hl =>
      right
      have hfail : failureLeft { w with loop := .waiting } = 0 := failureLeft_eq_zero id
      refine ⟨?_, Or.inr ⟨_, hl, rfl⟩⟩
      simp only [workLeft, hfail]
      omega
  | failed e hl =>
      left
      have hbefore : failureLeft w = 1 := by
        apply failureLeft_eq_one
        unfold MayFail
        simp only [hl]
        intro hp
        cases Prog.Withstands.of_ret CalmRely.refl hp
      have hafter : failureLeft { w with delayed := true, loop := .waiting } = 0 := failureLeft_eq_zero id
      simp only [workLeft, hbefore, hafter, Bool.toNat_true]
      omega
  | crash hf => exact hf.elim
  | boot d hl hd =>
      left
      have hbefore : failureLeft w = 1 := by
        apply failureLeft_eq_one
        unfold MayFail
        simp only [hl]
      have hafter : failureLeft ⟨w.site.booted d, false, .waiting⟩ = 0 := failureLeft_eq_zero id
      have hpools : (w.site.booted d).pools.feed.length = 0 := rfl
      have hkeyspaces : (w.site.booted d).keyspaces.feed.length = 0 := rfl
      have hq : (w.site.booted d).queued.toNat = 1 := rfl
      simp only [workLeft, hbefore, hafter, hpools, hkeyspaces, hq, Bool.toNat_false]
      omega

/-- Undisturbed steps, backwards. -/
abbrev CalmAfter (w' w : ControlWorld) : Prop := ControlStep False w w'

theorem acc_of_workLeft (n : ℕ) (ih : ∀ w, CalmInv w → workLeft w < n → Acc CalmAfter w) :
    ∀ w, CalmInv w → workLeft w ≤ n → Acc CalmAfter w := by
  have hwaiting : ∀ w, CalmInv w → workLeft w ≤ n → (∀ p, w.loop ≠ .pass p) → Acc CalmAfter w := by
    intro w hw hn hloop
    refine ⟨w, fun w' hstep => ?_⟩
    have hw' := hw.step hstep
    rcases hstep.calm_cases hw with hlt | ⟨-, ⟨op, k, a, hl, -⟩ | ⟨r, hl, -⟩⟩
    · exact ih w' hw' (by omega)
    · exact absurd hl (hloop _)
    · exact absurd hl (hloop _)
  -- a pass is shorter after every call
  have hpass : ∀ (p : Pass) w, CalmInv w → workLeft w ≤ n → w.loop = .pass p → Acc CalmAfter w := by
    intro p
    induction p with
    | ret r =>
        intro w hw hn hl
        refine ⟨w, fun w' hstep => ?_⟩
        have hw' := hw.step hstep
        rcases hstep.calm_cases hw with hlt | ⟨hle, ⟨op, k, a, hl', -⟩ | ⟨r, -, hl'⟩⟩
        · exact ih w' hw' (by omega)
        · rw [hl] at hl'
          cases hl'
        · exact hwaiting w' hw' (by omega) fun p hp => by rw [hl'] at hp; cases hp
    | call op k ihk =>
        intro w hw hn hl
        refine ⟨w, fun w' hstep => ?_⟩
        have hw' := hw.step hstep
        rcases hstep.calm_cases hw with hlt | ⟨hle, ⟨op', k', a, hl', hnext⟩ | ⟨r, hl', -⟩⟩
        · exact ih w' hw' (by omega)
        · rw [hl] at hl'
          cases hl'
          exact ihk a w' hw' (by omega) hnext
        · rw [hl] at hl'
          cases hl'
  intro w hw hn
  cases hl : w.loop with
  | down => exact hwaiting w hw hn fun p hp => by rw [hl] at hp; cases hp
  | waiting => exact hwaiting w hw hn fun p hp => by rw [hl] at hp; cases hp
  | pass p => exact hpass p w hw hn hl

theorem CalmInv.acc (h : CalmInv w) : Acc CalmAfter w := by
  have hall : ∀ n w, CalmInv w → workLeft w < n → Acc CalmAfter w := by
    intro n
    induction n with
    | zero => exact fun w _ hlt => absurd hlt (Nat.not_lt_zero _)
    | succ n ih => exact fun w hw hlt => acc_of_workLeft n ih w hw (by omega)
  exact hall (workLeft w + 1) w h (by omega)

/-- Every call of a pass can go well. -/
theorem SiteInv.exists_call {s : Site} (h : SiteInv s) {op : Control.Op} (hop : PassCall op) :
    ∃ a s', ReconcileStep False op s a s' := by
  cases op with
  | inl op => exact ⟨_, _, .fs _ op _ _ (MountStep.exec _ op _) fun _ => (h.plain.exec hop).tree⟩
  | inr op =>
      cases op with
      | listPools => exact ⟨_, _, .listPools _⟩
      | listKeyspaces => exact ⟨_, _, .listKeyspaces _⟩
      | setGauge g value => exact ⟨_, _, .setGauge _ g value⟩
      | countCommit ok => exact ⟨_, _, .countCommit _ ok⟩
      | storeCommitted => exact ⟨_, _, .storeCommitted _⟩

/-- A state that is not settled has an undisturbed step. -/
theorem ControlInv.settled_of_stuck (h : ControlInv w) (hstuck : ∀ w', ¬ControlStep False w w') :
    AtRest w := by
  have hdelayed : w.delayed = false := by
    rw [Bool.eq_false_iff]
    exact fun hd => hstuck _ (.retry w hd)
  have hpools : w.site.pools.feed = [] := by
    by_contra hne
    obtain ⟨v, hv, -⟩ := Watch.exists_delivers hne
    exact hstuck _ (.env w _ (.deliverPools _ v hv))
  have hkeyspaces : w.site.keyspaces.feed = [] := by
    by_contra hne
    obtain ⟨v, hv, -⟩ := Watch.exists_delivers hne
    exact hstuck _ (.env w _ (.deliverKeyspaces _ v hv))
  have hloop := h.loop
  unfold LoopInv at hloop
  cases hl : w.loop with
  | down =>
      obtain ⟨d, hd, -⟩ := h.site.plain.mkdirAll (g := [udfName]) (Or.inr rfl)
      exact absurd (.boot w d hl hd) (hstuck _)
  | waiting =>
      refine ⟨hl, ?_, hdelayed, hpools, hkeyspaces⟩
      rw [Bool.eq_false_iff]
      exact fun hq => hstuck _ (.begin w hl hq)
  | pass p =>
      exfalso
      cases p with
      | ret r =>
          cases r with
          | ok u => exact hstuck _ (.done w hl)
          | error e => exact hstuck _ (.failed w e hl)
      | call op k =>
          simp only [hl] at hloop
          obtain ⟨a, s, hs⟩ := h.site.exists_call hloop.2.1
          exact hstuck _ (.call w op k a s hl hs)

/-- Left alone, the resources stay as they are. -/
theorem ControlStep.calm_resources (hstep : ControlStep False w w') : w'.site.resources = w.site.resources := by
  cases hstep with
  | env s hs =>
      cases hs with
      | editPools v hf | editKeyspaces v hf | enqueue hf => exact hf.elim
      | deliverPools v hv | deliverKeyspaces v hv =>
          cases hv
          rfl
  | call op k a s hl hs =>
      obtain ⟨hpools, hkeyspaces, -⟩ := hs.frame
      rw [Site.resources, Site.resources, hpools, hkeyspaces]
  | crash hf => exact hf.elim
  | retry _ | begin _ _ | done _ | failed _ _ | boot d _ _ => rfl

theorem ControlRun.calm_resources (hrun : ControlRun False w w') : w'.site.resources = w.site.resources := by
  induction hrun with
  | refl => rfl
  | tail _ hstep ih => rw [hstep.calm_resources, ih]

theorem ControlInv.upToDate (h : ControlInv w) (hs : AtRest w) :
    w.site.cached = w.site.resources ∧ UpToDate w.site := by
  have hloop := h.loop
  simp only [LoopInv, hs.loop, hs.delayed, hs.queued, Bool.false_eq_true, false_or] at hloop
  refine ⟨?_, hloop⟩
  rw [Site.cached, Site.resources, h.site.pools.cache_eq hs.pools, h.site.keyspaces.cache_eq hs.keyspaces]

theorem ControlRun.disturb (hrun : ControlRun False w w') : ControlRun True w w' :=
  hrun.lift id fun _ _ hstep => hstep.disturb

theorem CalmInv.exists_settled (h : CalmInv w) : ∃ w', ControlRun True w w' ∧ AtRest w' := by
  obtain ⟨w', hrun, hstuck⟩ := exists_stuck h.acc
  exact ⟨w', ControlRun.disturb hrun, (h.run hrun).inv.settled_of_stuck hstuck⟩

theorem CalmInv.init {s : Snapshot} (h : ShortModules s.keyspaces) : CalmInv (ControlWorld.init s) := by
  refine ⟨ControlInv.init s, ?_⟩
  intro v hv
  simp only [ControlWorld.init, Watch.fresh, List.mem_cons, List.not_mem_nil, or_false, or_self] at hv
  exact hv ▸ h

end calm

theorem shortModules_contested : ShortModules contestedSnapshot.keyspaces := by
  intro ks hks m hm _
  revert hm m
  revert ks
  decide +kernel

/-! ### The results -/

/-- In every state of every run, with edits, failures and crashes anywhere: `config.lua` is the
complete configuration of pools and of keyspaces that the resources have had, every merge it refers to
is built in or on the mount, a process that reports ready has one, and it never disappears. -/
theorem control_loop_safe (s : Snapshot) (w : ControlWorld) (hrun : ControlRun True (.init s) w) :
    (∀ b, w.site.disk.contents configFile = some b →
      (∃ sn, w.site.HasHeld sn ∧ b = configBytes sn) ∧
      ∀ n ∈ referencedMerges b, n ∈ builtinMerges ∨ (w.site.disk.contents (modulePath n)).isSome) ∧
    (w.site.committed = true → w.site.HasConfig) ∧
    ∀ w', ControlRun True w w' → w.site.HasConfig → w'.site.HasConfig := by
  have hinv := (ControlInv.run hrun (ControlInv.init s)).1
  refine ⟨?_, hinv.site.ready, fun w' hw' => (hinv.run hw').2⟩
  intro b hb
  obtain ⟨p, hp, hnode⟩ := contents_eq_some.mp hb
  rw [resolve_configFile, Option.some.injEq] at hp
  subst hp
  obtain ⟨started, hmount, hheld⟩ := hinv.site.mount
  obtain ⟨sn, hsn, rfl, href⟩ := hmount.config b hnode
  refine ⟨⟨sn, hheld sn hsn, rfl⟩, ?_⟩
  intro n hn
  rw [referencedMerges_configBytes, List.mem_map] at hn
  obtain ⟨ks, hks, rfl⟩ := hn
  exact (href ks hks).imp id ModulePresent.contents

theorem control_loop_safe_contested : ∃ w, ControlRun True (.init contestedSnapshot) w ∧
    w.site.committed = true ∧ w.site.HasConfig := by
  obtain ⟨w, hrun, hsettled⟩ := (CalmInv.init shortModules_contested).exists_settled
  have hcomm := ((ControlInv.run hrun (ControlInv.init contestedSnapshot)).1.upToDate hsettled).2.committed
  exact ⟨w, hrun, hcomm, (control_loop_safe contestedSnapshot w hrun).2.1 hcomm⟩

/-- No edit is lost: whenever nothing is queued, delayed, on its way or in progress, the mount has
converged to the resources as they are, the gauges show them, and the process is ready. -/
theorem control_loop_converges (s : Snapshot) (w : ControlWorld) (hrun : ControlRun True (.init s) w)
    (h : AtRest w) :
    Converged (render w.site.resources).1 w.site.disk w.site.disk ∧
    w.site.gauge .renderWarnings = (render w.site.resources).2.length ∧
    w.site.gauge (.snapshotObjects .pool) = w.site.resources.pools.length ∧
    w.site.gauge (.snapshotObjects .keyspace) = w.site.resources.keyspaces.length ∧
    w.site.committed = true := by
  obtain ⟨hcached, hconv, hwarn, hpools, hkeyspaces, hcomm⟩ :=
    (ControlInv.run hrun (ControlInv.init s)).1.upToDate h
  rw [hcached] at hconv hwarn hpools hkeyspaces
  exact ⟨hconv, hwarn, hpools, hkeyspaces, hcomm⟩

theorem control_loop_converges_contested : ∃ w, ControlRun True (.init contestedSnapshot) w ∧
    Converged (render w.site.resources).1 w.site.disk w.site.disk ∧ w.site.committed = true := by
  obtain ⟨w, hrun, hsettled⟩ := (CalmInv.init shortModules_contested).exists_settled
  obtain ⟨hconv, -, -, -, hcomm⟩ := control_loop_converges contestedSnapshot w hrun hsettled
  exact ⟨w, hrun, hconv, hcomm⟩

/-- However a run has gone, left alone the loop comes to rest if the modules that are inlined in the
keyspaces have names of at most 246 bytes: there is no endless run of undisturbed steps, and a run that
cannot go on has ended in a settled state. -/
theorem control_loop_recovers (s : Snapshot) (w : ControlWorld) (hrun : ControlRun True (.init s) w)
    (hshort : w.site.Short) :
    (∀ f : ℕ → ControlWorld, f 0 = w → ∃ n, ¬ControlStep False (f n) (f (n + 1))) ∧
    ∀ w', ControlRun False w w' → (∀ w'', ¬ControlStep False w' w'') → AtRest w' := by
  have hcalm : CalmInv w := ⟨(ControlInv.run hrun (ControlInv.init s)).1, hshort⟩
  refine ⟨no_endless_run hcalm.acc, ?_⟩
  intro w' hleft hstuck
  exact (hcalm.run hleft).inv.settled_of_stuck hstuck

theorem control_loop_recovers_contested :
    (∀ f : ℕ → ControlWorld, f 0 = .init contestedSnapshot → ∃ n, ¬ControlStep False (f n) (f (n + 1))) ∧
    ∀ w', ControlRun False (.init contestedSnapshot) w' → (∀ w'', ¬ControlStep False w' w'') → AtRest w' :=
  control_loop_recovers contestedSnapshot _ .refl (CalmInv.init shortModules_contested).short

end McGateway.Operator
