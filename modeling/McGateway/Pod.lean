import McGateway.Reconciler
import McGateway.GatewayProcess

/-! # The pod

The operator and the gateway run side by side on one mount: the control loop of `Reconciler` writes
it, the process of `GatewayProcess` follows it.  The gateway is held back until the operator has been
ready once; from then on each may die and be started again at any time.

What the gateway serves is at all times a configuration that was on the mount before, rendered from
resources that there have been, and good for the registry of that moment (`pod_serves_rendered`).  The
other two results are about runs in which startup can afford what the operator writes meanwhile
(`CoveredRun`).  When both processes have come to rest, the registry holds exactly the modules of the
current resources that load, and if the modules in use are among them, the current configuration is
served (`pod_converges`).  Left alone, the operator comes to rest and the gateway comes to serve the
current configuration for good, even if its own reads keep it busy for ever (`pod_recovers`). -/

namespace McGateway.Live

open Lua Config McGateway.Operator McGateway.Core McGateway.Watcher
open Bytes (ascii hasSuffix validUtf8)

/-! ### The system -/

structure Pod where
  control : ControlWorld
  /-- The startup probe of the operator has passed. -/
  admitted : Bool
  gateway : Option Stage

/-- The mount as the gateway sees it. -/
def Pod.mount (w : Pod) : Mount := mountOf w.control.site.disk

def Pod.init (s : Snapshot) : Pod := ⟨.init s, false, none⟩

section system
variable {B P : Type} (E : Platform B P)

/-- Edits, failures and crashes happen only if `disturbed`. -/
inductive PodStep (disturbed : Prop) : Pod → Pod → Prop where
  | control (w : Pod) (c : ControlWorld) (evs : List Event) (h : ControlStep disturbed w.control c)
      (hevs : ∀ g, w.gateway = some g → g.Hears w.mount (mountOf c.site.disk) evs) :
      PodStep disturbed w ⟨c, w.admitted, w.gateway.map (Stage.notified evs)⟩
  /-- The other containers are held back until the operator has been ready once. -/
  | release (w : Pod) (hnew : w.admitted = false) (hready : w.control.site.committed = true) :
      PodStep disturbed w { w with admitted := true }
  | process (w : Pod) (g : Option Stage) (hadmitted : w.admitted = true)
      (h : ProcessStep E disturbed w.mount w.gateway g) : PodStep disturbed w { w with gateway := g }

/-- A run of the pod. -/
abbrev PodRun (disturbed : Prop) : Pod → Pod → Prop := Relation.ReflTransGen (PodStep E disturbed)

/-- A step that changes nothing startup cannot afford. -/
def CoveredStep (disturbed : Prop) (w w' : Pod) : Prop :=
  PodStep E disturbed w w' ∧ ∀ g, w.gateway = some g → g.Affords w.mount w'.mount

abbrev CoveredRun (disturbed : Prop) : Pod → Pod → Prop := Relation.ReflTransGen (CoveredStep E disturbed)

/-- The configuration was on the mount at a moment of the run, rendered from pools and from keyspaces
that there had been, and it validated against the registry of that moment. -/
def Rendered (w₀ w : Pod) (cfg : Value) : Prop :=
  ∃ (w₁ : Pod) (s₁ : State) (sn : Snapshot), PodRun E True w₀ w₁ ∧ PodRun E True w₁ w ∧
    w₁.gateway = some (.running s₁) ∧ w₁.control.site.HasHeld sn ∧
    w₁.mount.config = some (configBytes sn) ∧
    Config.load E.length (nativeRequiredFlags s₁.table) (literalFile (some (configBytes sn))) = .ok cfg

/-- An endless run in which nothing disturbs the pod: it goes on as long as it can, the operator gets
its turns, and a reload that is requested is run at some time. -/
structure FairRun (f : ℕ → Pod) : Prop where
  step : ∀ n, CoveredStep E False (f n) (f (n + 1)) ∨ f (n + 1) = f n ∧ ∀ w, ¬PodStep E False (f n) w
  operator : ∀ n, ∃ k, n ≤ k ∧
    (ControlStep False (f k).control (f (k + 1)).control ∨ ∀ c, ¬ControlStep False (f k).control c)
  reloads : ∀ n, ∃ k, n ≤ k ∧ ∀ s, (f k).gateway = some (.running s) → s.pending = false

end system

/-! ### The invariant -/

section proofs
variable {B P : Type} {E : Platform B P} {disturbed : Prop} {w w' : Pod}

structure PodInv (E : Platform B P) (w : Pod) : Prop where
  control : ControlInv w.control
  admitted : w.admitted = true → w.control.site.HasConfig
  gateway : w.gateway.isSome → w.admitted = true
  fallback : ∀ g, w.gateway = some g → Fallback E g

theorem Fallback.notified {g : Stage} (evs : List Event) (h : Fallback E g) : Fallback E (g.notified evs) := by
  intro s hs
  cases g with
  | starting | scanning | published | configWatched => cases hs
  | running s₀ =>
      cases hs
      exact h s₀ rfl

theorem PodInv.step (hstep : PodStep E True w w') (h : PodInv E w) : PodInv E w' := by
  cases hstep with
  | control c evs hc hevs =>
      obtain ⟨hctrl, hkeep⟩ := h.control.step hc
      refine ⟨hctrl, fun hadm => hkeep (h.admitted hadm), ?_, ?_⟩
      · rw [Option.isSome_map]
        exact h.gateway
      · intro g hg
        obtain ⟨g₀, hg₀, rfl⟩ := Option.map_eq_some_iff.mp hg
        exact (h.fallback g₀ hg₀).notified evs
  | release _ hready => exact ⟨h.control, fun _ => h.control.site.ready hready, fun _ => rfl, h.fallback⟩
  | process g hadm hg =>
      exact ⟨h.control, h.admitted, fun _ => hadm, Fallback.process hg h.fallback⟩

theorem PodInv.run (hrun : PodRun E True w w') (h : PodInv E w) : PodInv E w' := by
  induction hrun with
  | refl => exact h
  | tail _ hstep ih => exact ih.step hstep

theorem PodInv.init (s : Snapshot) : PodInv E (.init s) := by
  refine ⟨ControlInv.init s, fun h => (by cases h), fun h => (by cases h), ?_⟩
  intro g hg
  cases hg

theorem CoveredRun.podRun (hrun : CoveredRun E disturbed w w') : PodRun E disturbed w w' :=
  hrun.lift id fun _ _ hstep => hstep.1

/-- The process keeps track of the mount. -/
def Tracking (E : Platform B P) (w : Pod) : Prop :=
  ∀ g, w.gateway = some g → StartupInv E.load literalFile E.length (g.on w.mount)

theorem Tracking.step (hstep : CoveredStep E disturbed w w') (h : Tracking E w) : Tracking E w' := by
  obtain ⟨hstep, hafford⟩ := hstep
  cases hstep with
  | control c evs hc hevs =>
      intro g hg
      obtain ⟨g₀, hg₀, rfl⟩ := Option.map_eq_some_iff.mp hg
      exact Stage.startupInv_notified (hevs g₀ hg₀) (hafford g₀ hg₀) (h g₀ hg₀)
  | release _ _ => exact h
  | process g hadm hg => exact startupInv_process hg h

theorem Tracking.run (hrun : CoveredRun E disturbed w w') (h : Tracking E w) : Tracking E w' := by
  induction hrun with
  | refl => exact h
  | tail _ hstep ih => exact ih.step hstep

theorem Tracking.init (s : Snapshot) : Tracking E (.init s) := by
  intro g hg
  cases hg

/-! ### What is served -/

/-- The configuration on the mount is that of resources that there have been. -/
theorem PodInv.exists_held (h : PodInv E w) (hadmitted : w.admitted = true) :
    ∃ sn, w.control.site.HasHeld sn ∧ w.mount.config = some (configBytes sn) := by
  obtain ⟨b, hb⟩ := Option.isSome_iff_exists.mp (h.admitted hadmitted)
  obtain ⟨p, hp, hnode⟩ := contents_eq_some.mp hb
  rw [resolve_configFile, Option.some.injEq] at hp
  subst hp
  obtain ⟨started, hmount, hheld⟩ := h.control.site.mount
  obtain ⟨sn, hsn, rfl, -⟩ := hmount.config b hnode
  exact ⟨sn, hheld sn hsn, hb⟩

/-- A reload takes the configuration that is on the mount, or keeps what the process falls back on. -/
theorem reload_cases (m : Mount) (s : State) {cfg : Value}
    (h : (reload literalFile E.length m s).config = some cfg ∨
      (reload literalFile E.length m s).lastGood = some cfg) :
    Config.load E.length (nativeRequiredFlags s.table) (literalFile m.config) = .ok cfg ∨
      s.gateway.config = some cfg ∨ s.gateway.lastGood = some cfg := by
  simp only [Watcher.reload, loadConfig] at h
  cases hl : Config.load E.length (nativeRequiredFlags s.table) (literalFile m.config) with
  | ok good =>
      left
      rw [hl] at h
      exact congrArg Except.ok (h.elim Option.some.inj Option.some.inj)
  | error e =>
      right
      rw [hl] at h
      cases hg : s.gateway.lastGood with
      | none =>
          simp only [hg] at h
          exact h.imp id fun hc => by cases hc
      | some good =>
          simp only [hg] at h
          exact Or.inr (h.elim id id)

/-- A step of the process serves what it served or fell back on before, or what is on the mount. -/
theorem ProcessStep.served_cases {m : Mount} {g : Option Stage} {s' : State} {cfg : Value}
    (hstep : ProcessStep E disturbed m g (some (.running s')))
    (h : s'.gateway.config = some cfg ∨ s'.gateway.lastGood = some cfg) :
    ∃ s, g = some (.running s) ∧ (Config.load E.length (nativeRequiredFlags s.table) (literalFile m.config) = .ok cfg ∨
      s.gateway.config = some cfg ∨ s.gateway.lastGood = some cfg) := by
  generalize hto : some (Stage.running s') = g' at hstep
  cases hstep with
  | start | fatal | stop => cases hto
  | startup g g' hnew hstart _ =>
      obtain rfl := Option.some.inj hto
      rcases startup_cases hnew hstart with ⟨_, -, -, hs⟩ | ⟨_, _, _, -, hs⟩ | ⟨_, -, hs⟩ | ⟨_, -, hs⟩ |
        ⟨table, queue, -, hs⟩ | ⟨_, _, _, -, hs⟩
      all_goals cases hs
      -- a process that has just come to run serves nothing
      exact h.elim (fun hc => by cases hc) fun hc => by cases hc
  | step s s₁ evs hs _ _ =>
      cases hto
      refine ⟨s, rfl, ?_⟩
      cases hs with
      | reload _ => exact reload_cases m s h
      | receive | absorb | closeRescan | closeConfig | closeClean | visit | swap | request | notify => exact Or.inr h

/-- In every state of a run, what is served and what is kept to fall back on has been on the mount. -/
theorem rendered_run {sn : Snapshot} (hrun : PodRun E True (.init sn) w) :
    ∀ s, w.gateway = some (.running s) → ∀ cfg,
      (s.gateway.config = some cfg ∨ s.gateway.lastGood = some cfg) → Rendered E (.init sn) w cfg := by
  induction hrun with
  | refl =>
      intro s hs
      cases hs
  | @tail w w' hprev hstep ih =>
      have hinv := PodInv.run hprev (PodInv.init sn)
      have hlater : ∀ cfg, Rendered E (.init sn) w cfg → Rendered E (.init sn) w' cfg := by
        rintro cfg ⟨w₁, s₁, held, h₀, h₁, hrest⟩
        exact ⟨w₁, s₁, held, h₀, h₁.tail hstep, hrest⟩
      have hsteps := Relation.ReflTransGen.single hstep
      intro s hs cfg hcfg
      cases hstep with
      | control c evs hc hevs =>
          obtain ⟨g₀, hg₀, hg⟩ := Option.map_eq_some_iff.mp hs
          cases g₀ with
          | starting | scanning | published | configWatched => cases hg
          | running s₀ =>
              cases hg
              exact hlater cfg (ih s₀ hg₀ cfg hcfg)
      | release _ _ => exact hlater cfg (ih s hs cfg hcfg)
      | process g hadm hg =>
          cases hs
          obtain ⟨s₀, hs₀, hload | hold⟩ := hg.served_cases hcfg
          · obtain ⟨held, hheld, hconfig⟩ := hinv.exists_held hadm
            exact ⟨w, s₀, held, hprev, hsteps, hs₀, hheld, hconfig, hconfig ▸ hload⟩
          · exact hlater cfg (ih s₀ hs₀ cfg hold)

/-! ### The mount of the current resources -/

/-- A scan of the mount finds the modules of the resources, and nothing else. -/
theorem scanned_converged {sn : Snapshot} {d : Disk} (h : Converged (render sn).1 d d) (n : Bytes) :
    scanned E.load (mountOf d).udf n = ((emittedModules sn).1.lookup n).bind (E.load n) := by
  cases hw : (emittedModules sn).1.lookup n with
  | some w =>
      have hmem : n ∈ (emittedModules sn).1 := AList.lookup_isSome.mp (by rw [hw]; rfl)
      obtain ⟨hsafe, hb⟩ := mem_emittedModules hmem
      have hbuiltin : builtin n = none := by
        rw [mem_builtinMerges_iff] at hb
        simpa using hb
      have hne : n ≠ [] := by
        rintro rfl
        cases hsafe
      have hpath : (render sn).1.lookup (udfPath (moduleEntry n hsafe)) = some w := by
        rw [udfPath_moduleEntry, lookup_render_module, hw]
      have hkey : udfPath (moduleEntry n hsafe) ∈ sortedKeys (render sn).1 :=
        mem_sortedKeys.mpr (AList.lookup_isSome.mp (by rw [hpath]; rfl))
      have hfile : (mountOf d).udf.lookup (n ++ ascii ".wasm") = some w :=
        lookup_mountOf_udf.mpr ⟨moduleEntry n hsafe, rfl, h.inPlace.modules _ _ hkey hpath⟩
      rw [scanned, if_pos ⟨hne, validUtf8_of_safe hsafe, hbuiltin⟩, hfile]
  | none =>
      unfold scanned
      split_ifs with hn
      · cases hfile : (mountOf d).udf.lookup (n ++ ascii ".wasm") with
        | none => rfl
        | some data =>
            obtain ⟨f, hf, hnode⟩ := lookup_mountOf_udf.mp hfile
            refine absurd ⟨f, rfl, ?_, ?_, data, hnode⟩ (h.noStale [udfName, f])
            · rw [hf]
              exact Bytes.hasSuffix_append n _
            · have hpath : udfPath f = modulePath n := by
                rw [udfPath, modulePath, hf, ← List.append_assoc]
              rw [hpath, modulePath_mem_render, ← AList.lookup_isSome, hw]
              exact Bool.false_ne_true
      · rfl

/-- At rest, the registry is a scan of the directory, and a configuration that validates is served. -/
theorem inv_quiescent {m : Mount} {s : State} (h : Watcher.Inv E.load literalFile E.length ⟨m, s⟩)
    (hq : Quiescent s) :
    (∀ n, s.table.lookup n = scanned E.load m.udf n) ∧ Serving literalFile E.length m s := by
  have hudf : UdfDirty s = false := by
    simp [UdfDirty, hq.queue, hq.phase, Phase.udfDirty]
  have hreload : ReloadDue s = false := by
    simp [ReloadDue, hq.queue, hq.phase, hq.pending, Phase.reloadDue]
  refine ⟨?_, h.serving.resolve_left (by rw [hreload]; exact Bool.false_ne_true)⟩
  have htable := h.table.resolve_left (by rw [hudf]; exact Bool.false_ne_true)
  simpa only [TableOk, hq.phase] using htable

theorem mount_config_converged {sn : Snapshot} {d : Disk} (h : Converged (render sn).1 d d) :
    (mountOf d).config = some (configBytes sn) :=
  (h.placed configFile (flatTree_render sn).config).trans (lookup_render_config sn)

/-- The configuration of the resources validates against their modules, if those in use load. -/
theorem load_converged {sn : Snapshot} {d : Disk} (h : Converged (render sn).1 d d)
    (hload : UsedModulesLoad E.load sn) :
    ∃ cfg, Config.load E.length (nativeRequiredFlags (scanDir E.load (mountOf d).udf))
      (literalFile (mountOf d).config) = .ok cfg := by
  have haccepts : GatewayAccepts E.length E.load d := by
    rw [gatewayAccepts_of_inPlace h.inPlace, resolves_iff_usedModulesLoad h.inPlace]
    exact hload
  obtain ⟨b, hb, v, hv, cfg, hcfg⟩ := haccepts
  exact ⟨cfg, by simp only [literalFile, hb, hv, Config.load, hcfg]⟩

/-- The addresses of a rendered configuration are those of its pools. -/
theorem addresses_configValue (pools : List Pool) (keyspaces : List Keyspace) :
    addresses (configValue pools keyspaces) = pools.flatMap fun p => p.spec.addrs.map Value.str := by
  have hpools : rawget (configFields pools keyspaces) (.str (ascii "pools")) =
      .table (ofList (pools.map poolValue)) := by
    rfl
  have hlist : ipairs (ofList (pools.map poolValue)) = pools.map poolValue := by
    apply ipairs_ofList
    intro v hv
    obtain ⟨p, -, rfl⟩ := List.mem_map.mp hv
    simp [poolValue]
  have hpool : ∀ p, poolAddrs (poolValue p) = p.spec.addrs.map Value.str := by
    intro p
    simp only [poolAddrs, poolValue, poolFields_addrs, stringList, ipairs_strings]
  simp only [addresses, configValue, hpools, hlist, List.flatMap_map, hpool]

/-- If in addition every address is `host:port`, the mount is good. -/
theorem goodMount_converged {sn : Snapshot} {d : Disk} (h : Converged (render sn).1 d d)
    (hload : UsedModulesLoad E.load sn) (haddrs : ∀ p ∈ sn.pools, ∀ a ∈ p.spec.addrs, HostPort a)
    (haccepting : Accepting E.backend E.pool) : ∃ cfg, GoodMount E (mountOf d) cfg := by
  obtain ⟨cfg, hcfg⟩ := load_converged h hload
  refine ⟨cfg, hcfg, ?_⟩
  have hliteral : literalFile (mountOf d).config =
      .returns (configValue (emittedPools sn).1 (emittedKeyspaces sn).1) := by
    simp only [mount_config_converged h, literalFile, configBytes, loadLiteral_renderConfig]
  rw [hliteral] at hcfg
  apply (exists_buildPools_iff haccepting hcfg).mpr
  rw [addresses_configValue]
  intro addr haddr
  obtain ⟨p, hp, hmem⟩ := List.mem_flatMap.mp haddr
  obtain ⟨a, ha, rfl⟩ := List.mem_map.mp hmem
  exact ⟨a, rfl, haddrs p (mem_emittedPools.mp hp).1 a ha⟩

/-! ### Left alone -/

theorem PodStep.disturb (h : PodStep E False w w') : PodStep E True w w' := by
  cases h with
  | control c evs hc hevs => exact .control w c evs hc.disturb hevs
  | release hnew hready => exact .release w hnew hready
  | process g hadm hg =>
      refine .process w g hadm ?_
      generalize w.gateway = before at hg
      cases hg with
      | start => exact .start
      | startup g g' hnew hs hidle => exact .startup g g' hnew hs (Or.inl trivial)
      | step s s' evs hs hhook hevs => exact .step s s' evs hs hhook (Or.inl trivial)
      | fatal s e hpending hhook => exact .fatal s e hpending hhook
      | stop g hf => exact hf.elim

theorem CoveredRun.disturb (hrun : CoveredRun E False w w') : CoveredRun E True w w' :=
  hrun.lift id fun _ _ hstep => ⟨hstep.1.disturb, hstep.2⟩

theorem PodStep.calm_cases (h : PodStep E False w w') :
    ControlStep False w.control w'.control ∨ w'.control = w.control := by
  cases h with
  | control c evs hc _ => exact Or.inl hc
  | release _ _ => exact Or.inr rfl
  | process _ _ _ => exact Or.inr rfl

theorem CoveredRun.control (hrun : CoveredRun E False w w') : ControlRun False w.control w'.control := by
  induction hrun with
  | refl => exact .refl
  | tail _ hstep ih =>
      rcases hstep.1.calm_cases with hcontrol | hsame
      · exact ih.tail hcontrol
      · rw [hsame]
        exact ih

/-- Once the operator has no step, the gateway is released, and then the process goes on. -/
theorem PodStep.of_stuck (h : PodStep E False w w') (hstuck : ∀ c, ¬ControlStep False w.control c) :
    w.admitted = false ∧ w' = { w with admitted := true } ∨
      w.admitted = true ∧ w'.admitted = true ∧ ProcessStep E False w.mount w.gateway w'.gateway := by
  cases h with
  | control c evs hc _ => exact absurd hc (hstuck c)
  | release hnew _ => exact Or.inl ⟨hnew, rfl⟩
  | process g hadm hg => exact Or.inr ⟨hadm, hadm, hg⟩

section fair
variable {f : ℕ → Pod}

theorem FairRun.run (hf : FairRun E f) (n : ℕ) : CoveredRun E False (f 0) (f n) := by
  induction n with
  | zero => exact .refl
  | succ n ih =>
      rcases hf.step n with hstep | ⟨hsame, -⟩
      · exact ih.tail hstep
      · rw [hsame]
        exact ih

theorem FairRun.inv (hf : FairRun E f) (h : PodInv E (f 0) ∧ Tracking E (f 0)) (n : ℕ) :
    PodInv E (f n) ∧ Tracking E (f n) :=
  ⟨h.1.run (hf.run n).disturb.podRun, h.2.run (hf.run n)⟩

theorem FairRun.control_step (hf : FairRun E f) (n : ℕ) :
    ControlStep False (f n).control (f (n + 1)).control ∨ (f (n + 1)).control = (f n).control := by
  rcases hf.step n with hstep | ⟨hsame, -⟩
  · exact hstep.1.calm_cases
  · exact Or.inr (congrArg Pod.control hsame)

/-- The operator comes to rest. -/
theorem FairRun.operator_rests (hf : FairRun E f) (h : CalmInv (f 0).control) :
    ∃ N, AtRest (f N).control ∧ (∀ c, ¬ControlStep False (f N).control c) ∧
      ∀ n, N ≤ n → (f n).control = (f N).control := by
  obtain ⟨N, -, hstuck, hconst⟩ := eventually_stuck (f := fun n => (f n).control) hf.control_step hf.operator
    h.acc 0 rfl
  exact ⟨N, (h.run (hf.run N).control).inv.settled_of_stuck hstuck, hstuck, hconst⟩

/-- Once the operator is at rest, the gateway is released. -/
theorem FairRun.released (hf : FairRun E f) {N : ℕ} (hinv : PodInv E (f N)) (hrest : AtRest (f N).control)
    (hstuck : ∀ c, ¬ControlStep False (f N).control c) : (f (N + 1)).admitted = true := by
  rcases hf.step N with ⟨hstep, -⟩ | ⟨hsame, hnone⟩
  · rcases hstep.of_stuck hstuck with ⟨-, hnext⟩ | ⟨-, hadmitted, -⟩
    · rw [hnext]
    · exact hadmitted
  · rw [hsame]
    by_contra hnot
    exact hnone _ (.release (f N) (Bool.eq_false_iff.mpr hnot) (hinv.control.upToDate hrest).2.committed)

/-- From then on the process runs on a mount that nobody changes. -/
theorem FairRun.processRun (hf : FairRun E f) (h : PodInv E (f 0) ∧ Tracking E (f 0)) {N : ℕ}
    (hstuck : ∀ c, ¬ControlStep False (f N).control c) (hconst : ∀ n, N ≤ n → (f n).control = (f N).control)
    (hadmitted : (f N).admitted = true) : ProcessRun E (f N).mount fun n => (f (N + n)).gateway := by
  have hmount : ∀ n, (f (N + n)).mount = (f N).mount := by
    intro n
    rw [Pod.mount, hconst (N + n) (Nat.le_add_right N n), Pod.mount]
  have hstep : ∀ n, (f (N + n)).admitted = true →
      (f (N + n + 1)).admitted = true ∧
      (ProcessStep E False (f N).mount (f (N + n)).gateway (f (N + n + 1)).gateway ∨
        (f (N + n + 1)).gateway = (f (N + n)).gateway ∧
        ∀ g, ¬ProcessStep E False (f N).mount (f (N + n)).gateway g) := by
    intro n hadm
    have hnone : ∀ c, ¬ControlStep False (f (N + n)).control c := by
      rw [hconst (N + n) (Nat.le_add_right N n)]
      exact hstuck
    rcases hf.step (N + n) with ⟨hstep, -⟩ | ⟨hsame, hblocked⟩
    · rcases hstep.of_stuck hnone with ⟨hnew, -⟩ | ⟨-, hadm', hg⟩
      · rw [hadm] at hnew
        cases hnew
      · exact ⟨hadm', Or.inl (hmount n ▸ hg)⟩
    · rw [hsame]
      refine ⟨hadm, Or.inr ⟨rfl, fun g hg => hblocked _ (.process _ g hadm ?_)⟩⟩
      rw [hmount n]
      exact hg
  have hadm : ∀ n, (f (N + n)).admitted = true := by
    intro n
    induction n with
    | zero => exact hadmitted
    | succ n ih => exact (hstep n ih).1
  refine ⟨fun n => (hstep n (hadm n)).2, ?_, ?_⟩
  · intro g hg
    obtain ⟨hinv, htrack⟩ := hf.inv h N
    exact ⟨htrack g hg, hinv.fallback g hg⟩
  · intro n
    obtain ⟨k, hk, hdone⟩ := hf.reloads (N + n)
    refine ⟨k - N, by omega, ?_⟩
    show ∀ s, (f (N + (k - N))).gateway = some (.running s) → s.pending = false
    rw [show N + (k - N) = k by omega]
    exact hdone

end fair

/-! ### A run that comes to rest -/

section rest
variable {cfg : Value}

theorem scan_run (m : Mount) : ∀ (todo : List Bytes) (out : WasmTable), ∃ out',
    Relation.ReflTransGen (ProcessStep E False m) (some (.scanning todo out)) (some (.scanning [] out'))
  | [], out => ⟨out, .refl⟩
  | file :: todo, out => by
      obtain ⟨out', hrun⟩ := scan_run m todo (scanStep E.load out file (m.udf.lookup file))
      exact ⟨out', .head (.startup _ (.scanning todo _) (by rintro s ⟨⟩) (.visit m file todo out) (Or.inr le_rfl)) hrun⟩

/-- On a good mount, a process that is told of nothing loads the configuration and waits. -/
theorem exists_quiescent {m : Mount} (hgood : GoodMount E m cfg) : ∃ s,
    Relation.ReflTransGen (ProcessStep E False m) none (some (.running s)) ∧ Quiescent s ∧
      s.gateway.config = some cfg := by
  obtain ⟨table, hscan⟩ := scan_run (E := E) m m.udf.keys ∅
  have hrun : Relation.ReflTransGen (ProcessStep E False m) none
      (some (.running ⟨[], .idle, true, table, .init⟩)) := by
    refine .trans (.head .start (.head (.startup _ (.scanning _ _) (by rintro s ⟨⟩) (.list m _ (.refl _)) (Or.inr le_rfl))
      hscan)) ?_
    exact .head (.startup _ (.published table) (by rintro s ⟨⟩) (.swap m table) (Or.inr le_rfl)) <|
      .head (.startup _ (.configWatched table []) (by rintro s ⟨⟩) (.watchConfig m table) (Or.inr le_rfl)) <|
      .single (.startup _ (.running _) (by rintro s ⟨⟩) (.watchUdf m table []) (Or.inr le_rfl))
  have hinv : ∀ g, Relation.ReflTransGen (ProcessStep E False m) none g →
      ∀ x, g = some x → StartupInv E.load literalFile E.length (x.on m) := by
    intro g hg
    induction hg with
    | refl =>
        intro x hx
        cases hx
    | tail _ hstep ih => exact startupInv_process hstep ih
  have hwatcher : Watcher.Inv E.load literalFile E.length ⟨m, ⟨[], .idle, true, table, .init⟩⟩ := hinv _ hrun _ rfl
  have hcurrent : Current E m ⟨[], .idle, true, table, .init⟩ :=
    ⟨hwatcher.table.resolve_left Bool.false_ne_true, by rintro todo out ⟨⟩⟩
  obtain ⟨hreload, hhook⟩ := hcurrent.reload hgood
  refine ⟨_, hrun.tail (.step _ _ [] (.reload _ rfl) (fun _ => Or.inr hhook) (Or.inr ⟨le_rfl, by simp⟩)),
    ⟨rfl, rfl, rfl⟩, ?_⟩
  show (Watcher.reload literalFile E.length m _).config = some cfg
  rw [hreload]

/-- A pod at rest has no step of its own. -/
theorem stuck_of_quiescent {s : State} (hstuck : ∀ c, ¬ControlStep False w.control c)
    (hadmitted : w.admitted = true) (hs : w.gateway = some (.running s)) (hq : Quiescent s) :
    ∀ w', ¬PodStep E False w w' := by
  intro w' hstep
  rcases hstep.of_stuck hstuck with ⟨hnew, -⟩ | ⟨-, -, hg⟩
  · rw [hadmitted] at hnew
    cases hnew
  · rw [hs] at hg
    generalize w'.gateway = g at hg
    cases hg with
    | startup _ g' hnew _ _ => exact hnew s rfl
    | stop _ hf => exact hf
    | fatal _ e hp _ =>
        rw [hq.pending] at hp
        cases hp
    | step _ s' evs hgateway _ hevs =>
        have hidle := (hevs.resolve_left id).idle
        cases hgateway with
        | receive ev q _ hqueue =>
            rw [hq.queue] at hqueue
            cases hqueue
        | absorb _ _ _ _ hp _ | closeRescan _ _ hp _ | closeConfig hp | closeClean hp | request hp =>
            rw [hq.phase] at hp
            cases hp
        | visit _ _ _ hp | swap _ hp =>
            rw [hq.phase] at hp
            cases hp
        | reload hp =>
            rw [hq.pending] at hp
            cases hp
        | notify ev => exact absurd hidle (not_length_append_le _ ev)

/-- The operator comes to rest first, then the gateway is started. -/
theorem exists_rest {sn : Snapshot} (hshort : ShortModules sn.keyspaces) (hload : UsedModulesLoad E.load sn)
    (haddrs : ∀ p ∈ sn.pools, ∀ a ∈ p.spec.addrs, HostPort a) (haccepting : Accepting E.backend E.pool) :
    ∃ w s, CoveredRun E False (.init sn) w ∧ AtRest w.control ∧ w.gateway = some (.running s) ∧ Quiescent s ∧
      s.gateway.config.isSome ∧ ∀ w', ¬PodStep E False w w' := by
  have hcalm := CalmInv.init hshort
  obtain ⟨c, hcontrol, hstuck⟩ := exists_stuck hcalm.acc
  have hrest := (hcalm.run hcontrol).inv.settled_of_stuck hstuck
  obtain ⟨hcached, hup⟩ := (hcalm.run hcontrol).inv.upToDate hrest
  have hresources : c.site.resources = sn := ControlRun.calm_resources hcontrol
  have hconv : Converged (render sn).1 c.site.disk c.site.disk := by
    rw [← hresources, ← hcached]
    exact hup.converged
  obtain ⟨cfg, hgood⟩ := goodMount_converged hconv hload haddrs haccepting
  obtain ⟨s, hprocess, hq, hconfig⟩ := exists_quiescent hgood
  -- without a process, nothing has to be reported or afforded
  have hfirst : CoveredRun E False (.init sn) ⟨c, false, none⟩ := by
    refine hcontrol.lift (fun c => (⟨c, false, none⟩ : Pod)) fun c c' hstep => ?_
    refine ⟨.control ⟨c, false, none⟩ c' [] hstep ?_, ?_⟩
    all_goals
      intro g hg
      cases hg
  have hrelease : CoveredStep E False ⟨c, false, none⟩ ⟨c, true, none⟩ :=
    ⟨.release _ rfl hup.committed, fun g hg => by cases hg⟩
  have hthen : CoveredRun E False ⟨c, true, none⟩ ⟨c, true, some (.running s)⟩ :=
    hprocess.lift (fun g => (⟨c, true, g⟩ : Pod)) fun g g' hstep =>
      ⟨.process ⟨c, true, g⟩ g' rfl hstep, fun x _ => Stage.affords_refl _ x⟩
  exact ⟨_, s, (hfirst.tail hrelease).trans hthen, hrest, rfl, hq, by rw [hconfig]; rfl,
    stuck_of_quiescent hstuck rfl rfl hq⟩

end rest

/-- A platform that accepts everything. -/
def permissive : Platform Unit Unit := ⟨loadsAll, .least, fun _ _ _ => some (), fun _ _ _ => some ()⟩

theorem permissive_loads (sn : Snapshot) : UsedModulesLoad permissive.load sn :=
  ⟨_, _, emission sn, fun _ _ _ _ _ _ => rfl⟩

theorem permissive_accepting : Accepting permissive.backend permissive.pool :=
  ⟨fun _ _ _ => rfl, fun _ _ _ _ _ => rfl⟩

theorem hostPort_contested : ∀ p ∈ contestedSnapshot.pools, ∀ a ∈ p.spec.addrs, HostPort a := by
  have hports : ∀ p ∈ contestedSnapshot.pools, ∀ a ∈ p.spec.addrs, (parseAddr a).isSome := by decide +kernel
  exact fun p hp a ha => hostPort_iff.mpr (hports p hp a ha)

theorem exists_rest_contested : ∃ w s, CoveredRun permissive False (.init contestedSnapshot) w ∧ AtRest w.control ∧
    w.gateway = some (.running s) ∧ Quiescent s ∧ s.gateway.config.isSome ∧
    ∀ w', ¬PodStep permissive False w w' :=
  exists_rest shortModules_contested (permissive_loads contestedSnapshot) hostPort_contested permissive_accepting

/-! ### The results -/

/-- In every state of every run, with edits, failures and crashes anywhere: while the gateway runs,
there is a configuration on the mount, and what is served was on the mount at a moment of the run,
rendered from pools and from keyspaces that the resources had had, and validated against the registry of
that moment; its pools could be built. -/
theorem pod_serves_rendered (E : Platform B P) (sn : Snapshot) (w : Pod) (s : State)
    (hrun : PodRun E True (.init sn) w) (hs : w.gateway = some (.running s)) :
    w.control.site.HasConfig ∧
    ∀ cfg, s.gateway.config = some cfg → Rendered E (.init sn) w cfg ∧ E.Builds cfg := by
  have hinv := PodInv.run hrun (PodInv.init sn)
  refine ⟨hinv.admitted (hinv.gateway (by rw [hs]; rfl)), ?_⟩
  intro cfg hcfg
  obtain ⟨hsame, hbuilds⟩ := hinv.fallback _ hs s rfl
  exact ⟨rendered_run hrun s hs cfg (Or.inl hcfg), hbuilds cfg (hsame ▸ hcfg)⟩

theorem pod_serves_rendered_contested :
    ∃ w s cfg, PodRun permissive True (.init contestedSnapshot) w ∧ w.gateway = some (.running s) ∧
      s.gateway.config = some cfg ∧ Rendered permissive (.init contestedSnapshot) w cfg := by
  obtain ⟨w, s, hrun, -, hs, -, hconfig, -⟩ := exists_rest_contested
  obtain ⟨cfg, hcfg⟩ := Option.isSome_iff_exists.mp hconfig
  have hrun' := hrun.disturb.podRun
  exact ⟨w, s, cfg, hrun', hs, hcfg,
    ((pod_serves_rendered permissive contestedSnapshot w s hrun' hs).2 cfg hcfg).1⟩

/-- No edit is lost on its way to the routes: whenever both processes are at rest, and startup could
afford what was written meanwhile, the registry holds the modules of the resources as they are, those
that load, and nothing else; and if those in use are among them, the configuration of the resources as
they are is served. -/
theorem pod_converges (E : Platform B P) (sn : Snapshot) (w : Pod) (s : State)
    (hrun : CoveredRun E True (.init sn) w) (hs : w.gateway = some (.running s)) (hsettled : AtRest w.control)
    (hq : Quiescent s) :
    (∀ n, s.table.lookup n = ((emittedModules w.control.site.resources).1.lookup n).bind (E.load n)) ∧
    (UsedModulesLoad E.load w.control.site.resources →
      ∃ cfg, s.gateway.config = some cfg ∧ Config.load E.length (nativeRequiredFlags s.table)
        (literalFile (some (configBytes w.control.site.resources))) = .ok cfg) := by
  have hinv := PodInv.run hrun.podRun (PodInv.init sn)
  obtain ⟨hcached, hup⟩ := hinv.control.upToDate hsettled
  have hconv : Converged (render w.control.site.resources).1 _ _ := hcached ▸ hup.converged
  obtain ⟨htable, hserving⟩ := inv_quiescent (Tracking.run hrun (Tracking.init sn) _ hs) hq
  refine ⟨fun n => by rw [htable n]; exact scanned_converged hconv n, ?_⟩
  intro hload
  obtain ⟨cfg, hcfg⟩ := load_converged hconv hload
  have hreg : nativeRequiredFlags s.table = nativeRequiredFlags (scanDir E.load w.mount.udf) :=
    nativeRequiredFlags_congr fun n => by rw [htable, lookup_scanDir]
  have hok : Config.load E.length (nativeRequiredFlags s.table) (literalFile w.mount.config) = .ok cfg :=
    hreg ▸ hcfg
  exact ⟨cfg, hserving cfg hok, mount_config_converged hconv ▸ hok⟩

theorem pod_converges_contested :
    ∃ w s, CoveredRun permissive True (.init contestedSnapshot) w ∧ w.gateway = some (.running s) ∧
      AtRest w.control ∧ Quiescent s ∧ s.gateway.config.isSome ∧
      ∀ n, s.table.lookup n = ((emittedModules w.control.site.resources).1.lookup n).bind (loadsAll n) := by
  obtain ⟨w, s, hrun, hrest, hs, hq, -, -⟩ := exists_rest_contested
  have hrun' := hrun.disturb
  obtain ⟨htable, hserves⟩ := pod_converges permissive contestedSnapshot w s hrun' hs hrest hq
  obtain ⟨cfg, hcfg, -⟩ := hserves (permissive_loads _)
  exact ⟨w, s, hrun', hs, hrest, hq, by rw [hcfg]; rfl, htable⟩

/-- However a run has gone, left alone the pod comes to serve the current resources, if the names of the
inlined modules fit in file names, the modules in use load, every address is `host:port`, memcached
refuses nothing, and startup can afford what is written meanwhile.  From some moment on the operator is
at rest, and the gateway runs, with the modules of the resources in its registry and the configuration of
the resources in its routes. -/
theorem pod_recovers (E : Platform B P) (sn : Snapshot) (w : Pod) (hrun : CoveredRun E True (.init sn) w)
    (hshort : w.control.site.Short) (hload : UsedModulesLoad E.load w.control.site.resources)
    (haddrs : ∀ p ∈ w.control.site.resources.pools, ∀ a ∈ p.spec.addrs, HostPort a)
    (haccepting : Accepting E.backend E.pool) (f : ℕ → Pod) (hf : FairRun E f) (h0 : f 0 = w) :
    ∃ N, ∀ n, N ≤ n → (f n).control.site.resources = w.control.site.resources ∧ AtRest (f n).control ∧
      ∃ s cfg, (f n).gateway = some (.running s) ∧
        (∀ name, s.table.lookup name =
          ((emittedModules w.control.site.resources).1.lookup name).bind (E.load name)) ∧
        s.gateway.config = some cfg ∧ Config.load E.length (nativeRequiredFlags s.table)
          (literalFile (some (configBytes w.control.site.resources))) = .ok cfg := by
  subst h0
  have hinv : PodInv E (f 0) ∧ Tracking E (f 0) :=
    ⟨PodInv.run hrun.podRun (PodInv.init sn), Tracking.run hrun (Tracking.init sn)⟩
  obtain ⟨N, hrest, hstuck, hconst⟩ := hf.operator_rests ⟨hinv.1.control, hshort⟩
  have hreleased := hf.released (hf.inv hinv N).1 hrest hstuck
  have hsame : (f (N + 1)).control = (f N).control := hconst (N + 1) (Nat.le_succ N)
  -- the mount of the resources
  obtain ⟨hcached, hup⟩ := (hf.inv hinv N).1.control.upToDate hrest
  have hconv : Converged (render (f 0).control.site.resources).1 (f (N + 1)).control.site.disk
      (f (N + 1)).control.site.disk := by
    rw [hsame, ← (hf.run N).control.calm_resources, ← hcached]
    exact hup.converged
  obtain ⟨cfg, hgood⟩ := goodMount_converged hconv hload haddrs haccepting
  have hprocess := hf.processRun (N := N + 1) hinv (by rw [hsame]; exact hstuck)
    (fun n hn => (hconst n (by omega)).trans hsame.symm) hreleased
  obtain ⟨M, hserves⟩ := process_settles hprocess hgood
  refine ⟨N + 1 + M, ?_⟩
  intro n hn
  obtain ⟨s, hs, hcurrent, hconfig⟩ := hserves (n - (N + 1)) (by omega)
  have hs' : (f n).gateway = some (.running s) := by
    rw [show n = N + 1 + (n - (N + 1)) by omega]
    exact hs
  refine ⟨(hf.run n).control.calm_resources, by rw [hconst n (by omega)]; exact hrest, s, cfg, hs', ?_, by rw [hconfig], ?_⟩
  · intro name
    rw [hcurrent.table name]
    exact scanned_converged hconv name
  · rw [← mount_config_converged hconv]
    exact hcurrent.load hgood

/-- From an empty mount on. -/
theorem pod_recovers_contested : ∃ f : ℕ → Pod, f 0 = .init contestedSnapshot ∧ FairRun permissive f ∧
    ∃ N, ∀ n, N ≤ n → (f n).control.site.resources = contestedSnapshot ∧ AtRest (f n).control ∧
      ∃ s, (f n).gateway = some (.running s) ∧ s.gateway.config.isSome := by
  obtain ⟨w, s, hrun, hrest, hs, hq, -, hstuck⟩ := exists_rest_contested
  obtain ⟨f, N, h0, hsteps, hend⟩ := exists_endless hrun
  have hcontrol : ∀ c, ¬ControlStep False w.control c := by
    intro c hc
    obtain ⟨evs, hevs⟩ := exists_reports w.mount (mountOf c.site.disk)
    exact hstuck _ (.control w c evs hc fun g _ => hevs.hears g)
  have hfair : FairRun permissive f := by
    refine ⟨?_, ?_, ?_⟩
    · intro n
      by_cases hn : n < N
      · exact Or.inl (hsteps n hn)
      · rw [hend n (by omega), hend (n + 1) (by omega)]
        exact Or.inr ⟨rfl, hstuck⟩
    · intro n
      refine ⟨max n N, le_max_left n N, Or.inr ?_⟩
      rw [hend _ (le_max_right n N)]
      exact hcontrol
    · intro n
      refine ⟨max n N, le_max_left n N, ?_⟩
      rw [hend _ (le_max_right n N), hs]
      rintro _ ⟨⟩
      exact hq.pending
  obtain ⟨M, hserves⟩ := pod_recovers permissive contestedSnapshot (.init contestedSnapshot) .refl
    (CalmInv.init shortModules_contested).short (permissive_loads _) hostPort_contested permissive_accepting f hfair h0
  refine ⟨f, h0, hfair, M, fun n hn => ?_⟩
  obtain ⟨hresources, hatRest, s', cfg, hs', -, hcfg, -⟩ := hserves n hn
  exact ⟨hresources, hatRest, s', hs', by rw [hcfg]; rfl⟩

end proofs

end McGateway.Live
