import McGateway.Startup
import McGateway.LiveRoutes
import McGateway.LeadsTo

/-! # The gateway process

The life of the gateway process next to a mount: it is started, goes through the stages of `Startup`,
and then takes the steps of `Watcher`.  A reload is the hook of `mcgateway.lua`, pools included; if it
raises, memcached exits, and the process is started anew.

The armed watches report every change of the files they watch (`Stage.Hears`), and the order of startup
can afford some changes only (`Stage.Affords`, which is `Covered` for any change of the mount).  They may
also report the process's own reads (`OwnReads`), so the process need not ever become quiescent.
`process_settles` says what holds nevertheless: on a mount that nobody changes and whose configuration
is good, the process comes to serve that configuration, and it serves it from then on. -/

namespace McGateway.Live

open Lua Config McGateway.Operator McGateway.Core McGateway.Watcher
open Bytes (ascii validUtf8)

/-! ### Stages -/

/-- The stages of `Startup`, without the mount. -/
inductive Stage where
  | starting
  | scanning (todo : List Bytes) (out : WasmTable)
  | published (table : WasmTable)
  | configWatched (table : WasmTable) (queue : List Event)
  | running (s : State)

/-- The process on the mount `m`. -/
def Stage.on (m : Mount) : Stage → Startup
  | starting => .starting m
  | scanning todo out => .scanning m todo out
  | published table => .published m table
  | configWatched table queue => .configWatched m table queue
  | running s => .running ⟨m, s⟩

/-- The notifications that wait. -/
def Stage.queue : Stage → List Event
  | configWatched _ queue => queue
  | running s => s.queue
  | _ => []

/-- Notifications arrive, if a watch is armed. -/
def Stage.notified (evs : List Event) : Stage → Stage
  | configWatched table queue => .configWatched table (queue ++ evs)
  | running s => .running { s with queue := s.queue ++ evs }
  | g => g

/-! ### Changes of the mount -/

/-- The notifications name every file that has changed. -/
structure Reports (m m' : Mount) (evs : List Event) : Prop where
  config : m'.config = m.config ∨ ∃ ev ∈ evs, WatchPath.config ∈ ev
  udf : ∀ file, m'.udf.lookup file = m.udf.lookup file ∨ ∃ ev ∈ evs, WatchPath.udfEntry file ∈ ev

/-- The watches that are armed report the change. -/
def Stage.Hears (m m' : Mount) (evs : List Event) : Stage → Prop
  | .configWatched _ _ => m'.config = m.config ∨ ∃ ev ∈ evs, WatchPath.config ∈ ev
  | .running _ => Reports m m' evs
  | _ => True

/-- A change that the order of startup can afford: until the UDF watch is armed, only of modules that
the scan has yet to reach. -/
def Stage.Affords (m m' : Mount) : Stage → Prop
  | .scanning todo _ =>
      ∀ file, m'.udf.lookup file ≠ m.udf.lookup file → wasmStem file = none ∨ file ∈ todo
  | .published _ => ∀ file, m'.udf.lookup file ≠ m.udf.lookup file → wasmStem file = none
  | .configWatched _ _ => ∀ file, m'.udf.lookup file ≠ m.udf.lookup file → wasmStem file = none
  | _ => True

/-! ### Steps -/

/-- What the gateway takes from outside: the loader of modules, the length operator of Lua and the
constructors of memcached. -/
structure Platform (B P : Type) where
  load : Bytes → Bytes → Option Merge
  length : LengthOp
  backend : Bytes → Bytes → Bytes → Option B
  pool : List B → Value → Value → Option P

/-- The files that a step of the process opens. -/
inductive Opened (s s' : State) : WatchPath → Prop where
  | config (hpending : s.pending = true) (hpending' : s'.pending = false) : Opened s s' .config
  | udfDir (c : Bool) (todo : List Bytes) (out : WasmTable) (hphase : s.phase = .batch c true)
      (hphase' : s'.phase = .rescanning todo out) : Opened s s' .udfDir
  | udfEntry (file : Bytes) (todo : List Bytes) (out out' : WasmTable)
      (hphase : s.phase = .rescanning (file :: todo) out) (hphase' : s'.phase = .rescanning todo out') :
      Opened s s' (.udfEntry file)

/-- The notifications are about files that the step opens, any number of them. -/
structure OwnReads (s s' : State) (evs : List Event) : Prop where
  idle : s'.queue.length ≤ s.queue.length
  opened : ∀ ev ∈ evs, ∃ p, ev = [p] ∧ Opened s s' p

section system
variable {B P : Type} (E : Platform B P)

/-- A reload: `mcp_config_pools`. -/
def Platform.hook (m : Mount) (s : State) : Gateway × Except HookError (Bundle P) :=
  mcpConfigPools E.backend E.pool E.length s.gateway ⟨literalFile m.config, nativeRequiredFlags s.table⟩

/-- A step of the process on the mount `m`; it is killed, and told of more than its own reads, only if
`disturbed`. -/
inductive ProcessStep (disturbed : Prop) (m : Mount) : Option Stage → Option Stage → Prop where
  | start : ProcessStep disturbed m none (some .starting)
  | startup (g g' : Stage) (hnew : ∀ s, g ≠ .running s)
      (h : StartupStep E.load literalFile E.length (g.on m) none (g'.on m))
      (hidle : disturbed ∨ g'.queue.length ≤ g.queue.length) : ProcessStep disturbed m (some g) (some g')
  /-- A reload whose hook raises does not return. -/
  | step (s s' : State) (evs : List Event) (h : GatewayStep E.load literalFile E.length m s s')
      (hhook : s.pending = true → s'.pending = true ∨ ∃ b, (E.hook m s).2 = .ok b)
      (hevs : disturbed ∨ OwnReads s s' evs) :
      ProcessStep disturbed m (some (.running s)) (some (.running { s' with queue := s'.queue ++ evs }))
  /-- memcached exits when its hook raises. -/
  | fatal (s : State) (e : HookError) (hpending : s.pending = true) (hhook : (E.hook m s).2 = .error e) :
      ProcessStep disturbed m (some (.running s)) none
  | stop (g : Stage) (h : disturbed) : ProcessStep disturbed m (some g) none

end system

/-! ### The invariant -/

section changes
variable {load : Bytes → Bytes → Option Merge} {L : LengthOp}

theorem touchesConfig_of_mem {ev : Event} (h : WatchPath.config ∈ ev) : touchesConfig ev = true :=
  List.any_eq_true.mpr ⟨_, h, by decide⟩

theorem touchesUdf_of_mem {ev : Event} {file : Bytes} (h : WatchPath.udfEntry file ∈ ev)
    (hs : (wasmStem file).isSome) : touchesUdf ev = true :=
  List.any_eq_true.mpr ⟨_, h, hs⟩

theorem udfDirty_of_mem {s : State} {evs : List Event} (h : UdfDirty s = true ∨ ∃ ev ∈ evs, touchesUdf ev = true) :
    UdfDirty { s with queue := s.queue ++ evs } = true := by
  simp only [UdfDirty, List.any_append, Bool.or_eq_true, List.any_eq_true] at h ⊢
  rcases h with (h | h) | h
  · exact Or.inl (Or.inl h)
  · exact Or.inr h
  · exact Or.inl (Or.inr h)

theorem reloadDue_of_mem {s : State} {evs : List Event}
    (h : ReloadDue s = true ∨ ∃ ev ∈ evs, (touchesConfig ev || touchesUdf ev) = true) :
    ReloadDue { s with queue := s.queue ++ evs } = true := by
  simp only [ReloadDue, List.any_append, Bool.or_eq_true, List.any_eq_true] at h ⊢
  rcases h with ((h | h) | h) | h
  · exact Or.inl (Or.inl (Or.inl h))
  · exact Or.inl (Or.inr h)
  · exact Or.inr h
  · exact Or.inl (Or.inl (Or.inr h))

/-- Only the file of a module matters to what is registered under its name. -/
theorem scanned_of_lookup {dir dir' : ByteMap Bytes} {n : Bytes}
    (h : n ≠ [] → dir'.lookup (n ++ ascii ".wasm") = dir.lookup (n ++ ascii ".wasm")) :
    scanned load dir' n = scanned load dir n := by
  unfold scanned
  split_ifs with hn
  · rw [h hn.1]
  · rfl

theorem wasmStem_module_ne_none {n : Bytes} (hn : n ≠ []) : wasmStem (n ++ ascii ".wasm") ≠ none := by
  rw [wasmStem_eq_some.mpr ⟨hn, rfl⟩]
  exact Option.some_ne_none n

/-- If no module is named, a scan finds what it found before. -/
theorem Reports.scanned_eq {m m' : Mount} {evs : List Event} (h : Reports m m' evs)
    (hclean : ¬∃ ev ∈ evs, touchesUdf ev = true) (n : Bytes) :
    scanned load m'.udf n = scanned load m.udf n := by
  apply scanned_of_lookup
  intro hn
  rcases h.udf (n ++ ascii ".wasm") with hsame | ⟨ev, hev, hmem⟩
  · exact hsame
  · have hstem := Option.isSome_iff_ne_none.mpr (wasmStem_module_ne_none hn)
    exact absurd ⟨ev, hev, touchesUdf_of_mem hmem hstem⟩ hclean

/-- A change that is reported keeps the invariant of the watcher. -/
theorem Reports.inv {m m' : Mount} {s : State} {evs : List Event} (hr : Reports m m' evs)
    (h : Watcher.Inv load literalFile L ⟨m, s⟩) :
    Watcher.Inv load literalFile L ⟨m', { s with queue := s.queue ++ evs }⟩ := by
  by_cases hudf : ∃ ev ∈ evs, touchesUdf ev = true
  · refine ⟨Or.inl (udfDirty_of_mem (Or.inr hudf)), Or.inl (reloadDue_of_mem (Or.inr ?_))⟩
    obtain ⟨ev, hev, ht⟩ := hudf
    exact ⟨ev, hev, by rw [ht, Bool.or_true]⟩
  · constructor
    · exact h.table.imp (fun hd => udfDirty_of_mem (Or.inl hd)) fun ht => ht.congr (hr.scanned_eq hudf) rfl rfl
    · rcases hr.config with hsame | ⟨ev, hev, hmem⟩
      · apply h.serving.imp (fun hd => reloadDue_of_mem (Or.inl hd))
        intro hs cfg hcfg
        exact hs cfg (hsame ▸ hcfg)
      · refine Or.inl (reloadDue_of_mem (Or.inr ⟨ev, hev, ?_⟩))
        rw [touchesConfig_of_mem hmem, Bool.true_or]

theorem Reports.refl (m : Mount) (evs : List Event) : Reports m m evs :=
  ⟨Or.inl rfl, fun _ => Or.inl rfl⟩

/-- Every change can be reported. -/
theorem exists_reports (m m' : Mount) : ∃ evs, Reports m m' evs := by
  refine ⟨[.config :: (m.udf.keys ++ m'.udf.keys).map .udfEntry], Or.inr ⟨_, List.mem_singleton_self _, ?_⟩, ?_⟩
  · exact List.mem_cons_self
  · intro file
    by_cases hmem : file ∈ m.udf ∨ file ∈ m'.udf
    · refine Or.inr ⟨_, List.mem_singleton_self _, List.mem_cons_of_mem _ (List.mem_map_of_mem ?_)⟩
      rwa [List.mem_append, AList.mem_keys.symm, AList.mem_keys.symm]
    · rw [not_or] at hmem
      left
      rw [AList.lookup_eq_none.mpr hmem.1, AList.lookup_eq_none.mpr hmem.2]

theorem Reports.hears {m m' : Mount} {evs : List Event} (h : Reports m m' evs) (g : Stage) : g.Hears m m' evs := by
  cases g with
  | starting | scanning | published => trivial
  | configWatched table queue => exact h.config
  | running s => exact h

theorem Stage.affords_refl (m : Mount) (g : Stage) : g.Affords m m := by
  cases g with
  | starting => trivial
  | running s => trivial
  | scanning todo out => exact fun file hne => absurd rfl hne
  | published table => exact fun file hne => absurd rfl hne
  | configWatched table queue => exact fun file hne => absurd rfl hne

/-- A change that is reported, and that startup can afford, keeps the invariant of startup. -/
theorem Stage.startupInv_notified {m m' : Mount} {evs : List Event} {g : Stage} (hhears : g.Hears m m' evs)
    (hafford : g.Affords m m') (h : StartupInv load literalFile L (g.on m)) :
    StartupInv load literalFile L ((g.notified evs).on m') := by
  -- before the watch of the modules is armed, a module that matters is as it was
  have hmodule : (∀ file, m'.udf.lookup file ≠ m.udf.lookup file → wasmStem file = none) →
      ∀ n, scanned load m'.udf n = scanned load m.udf n := by
    intro hsame n
    apply scanned_of_lookup
    intro hn
    by_contra hne
    exact wasmStem_module_ne_none hn (hsame _ hne)
  cases g with
  | starting => trivial
  | scanning todo out =>
      refine ⟨h.nodup, h.left, ?_⟩
      intro n hn
      rw [h.done n hn]
      symm
      apply scanned_of_lookup
      intro hne
      by_contra hchanged
      rcases hafford _ hchanged with hnone | hmem
      · exact wasmStem_module_ne_none hne hnone
      · exact hn hmem
  | published table => exact fun n => (h n).trans (hmodule hafford n).symm
  | configWatched table queue => exact fun n => (h n).trans (hmodule hafford n).symm
  | running s => exact Reports.inv hhears h

end changes

section process
variable {B P : Type} {E : Platform B P} {disturbed : Prop} {m : Mount} {s s' : State} {g g' : Stage}

/-- The pools of the configuration can be built. -/
def Platform.Builds (E : Platform B P) (cfg : Value) : Prop :=
  ∃ pools, Config.buildPools E.backend E.pool cfg = .ok pools

/-- What the process serves is what it falls back on, and that could be built. -/
def Fallback (E : Platform B P) (g : Stage) : Prop :=
  ∀ s, g = .running s →
    s.gateway.config = s.gateway.lastGood ∧ ∀ cfg, s.gateway.lastGood = some cfg → E.Builds cfg

/-- What holds of the process if startup could afford the changes of the mount. -/
structure StageInv (E : Platform B P) (m : Mount) (g : Stage) : Prop where
  startup : StartupInv E.load literalFile E.length (g.on m)
  fallback : Fallback E g

/-- The hook leaves the state of a reload. -/
theorem Platform.hook_fst (m : Mount) (s : State) : (E.hook m s).1 = reload literalFile E.length m s := by
  unfold Platform.hook mcpConfigPools Watcher.reload
  dsimp only
  split
  · rfl
  · split <;> rfl

theorem covered_none (s : Startup) : Covered s none := by
  cases s <;> trivial

theorem Stage.on_injective (m : Mount) : Function.Injective (Stage.on m) := by
  intro g g' h
  cases g <;> cases g' <;> simp_all [Stage.on]

/-- The steps of startup. -/
theorem startup_cases (hnew : ∀ s, g ≠ .running s)
    (h : StartupStep E.load literalFile E.length (g.on m) none (g'.on m)) :
    (∃ todo, g = .starting ∧ todo.Perm m.udf.keys ∧ g' = .scanning todo ∅) ∨
    (∃ file todo out, g = .scanning (file :: todo) out ∧
      g' = .scanning todo (scanStep E.load out file (m.udf.lookup file))) ∨
    (∃ out, g = .scanning [] out ∧ g' = .published out) ∨
    (∃ table, g = .published table ∧ g' = .configWatched table []) ∨
    (∃ table queue, g = .configWatched table queue ∧ g' = .running ⟨queue, .idle, true, table, .init⟩) ∨
    ∃ table queue ev, g = .configWatched table queue ∧ g' = .configWatched table (queue ++ [ev]) := by
  generalize hat : g'.on m = next at h
  have heq : ∀ x : Stage, next = x.on m → g' = x := fun x hx => Stage.on_injective m (hat.trans hx)
  cases g with
  | running s => exact absurd rfl (hnew s)
  | starting =>
      cases h with
      | list _ todo htodo => exact Or.inl ⟨todo, rfl, htodo, heq (.scanning todo ∅) rfl⟩
  | scanning todo out =>
      cases h with
      | visit _ file todo _ => exact Or.inr (Or.inl ⟨file, todo, out, rfl, heq (.scanning _ _) rfl⟩)
      | swap _ _ => exact Or.inr (Or.inr (Or.inl ⟨out, rfl, heq (.published out) rfl⟩))
  | published table =>
      cases h with
      | watchConfig _ _ => exact Or.inr (Or.inr (Or.inr (Or.inl ⟨table, rfl, heq (.configWatched table []) rfl⟩)))
  | configWatched table queue =>
      cases h with
      | watchUdf _ _ _ =>
          exact Or.inr (Or.inr (Or.inr (Or.inr (Or.inl ⟨table, queue, rfl, heq (.running _) rfl⟩))))
      | notify _ _ _ ev =>
          exact Or.inr (Or.inr (Or.inr (Or.inr (Or.inr ⟨table, queue, ev, rfl, heq (.configWatched _ _) rfl⟩))))

/-- A reload whose hook returns falls back on what has been built. -/
theorem fallback_reload {b : Bundle P} (hhook : (E.hook m s).2 = .ok b)
    (h : s.gateway.config = s.gateway.lastGood) :
    (reload literalFile E.length m s).config = (reload literalFile E.length m s).lastGood ∧
      ∀ cfg, (reload literalFile E.length m s).lastGood = some cfg → E.Builds cfg := by
  constructor
  · unfold Watcher.reload loadConfig
    split
    · rfl
    · split
      · exact h
      · rename_i good hgood
        exact hgood.symm
  · obtain ⟨hlast, hok⟩ := @mcpConfigPools_spec B P E.backend E.pool E.length s.gateway
      ⟨literalFile m.config, nativeRequiredFlags s.table⟩
    obtain ⟨hsettled, hbuilt⟩ := (hok b).mp hhook
    intro cfg hcfg
    rw [← E.hook_fst, Platform.hook, hlast, hsettled, Option.some.injEq] at hcfg
    exact ⟨b.pools, hcfg ▸ hbuilt⟩

/-- Every step of the process keeps what it falls back on. -/
theorem Fallback.process {g g' : Option Stage} (hstep : ProcessStep E disturbed m g g')
    (h : ∀ x, g = some x → Fallback E x) : ∀ x, g' = some x → Fallback E x := by
  cases hstep with
  | start =>
      rintro _ ⟨⟩ s hs
      cases hs
  | startup g g' hnew hs _ =>
      rintro _ ⟨⟩ s rfl
      rcases startup_cases hnew hs with ⟨_, -, -, hs⟩ | ⟨_, _, _, -, hs⟩ | ⟨_, -, hs⟩ | ⟨_, -, hs⟩ |
        ⟨table, queue, -, hs⟩ | ⟨_, _, _, -, hs⟩
      all_goals cases hs
      refine ⟨rfl, ?_⟩
      intro cfg hcfg
      cases hcfg
  | step s s' evs hs hhook _ =>
      rintro _ ⟨⟩ _ ⟨⟩
      have hkeep := h _ rfl s rfl
      cases hs with
      | reload hpending =>
          obtain ⟨b, hb⟩ := (hhook hpending).resolve_left (by simp)
          exact fallback_reload hb hkeep.1
      | receive | absorb | closeRescan | closeConfig | closeClean | visit | swap | request | notify => exact hkeep
  | fatal | stop =>
      intro x hx
      cases hx

/-- Every step of the process keeps it on the track of the mount. -/
theorem startupInv_process {g g' : Option Stage} (hstep : ProcessStep E disturbed m g g')
    (h : ∀ x, g = some x → StartupInv E.load literalFile E.length (x.on m)) :
    ∀ x, g' = some x → StartupInv E.load literalFile E.length (x.on m) := by
  cases hstep with
  | start =>
      rintro _ ⟨⟩
      trivial
  | startup g g' hnew hs _ =>
      rintro _ ⟨⟩
      exact StartupInv.step hs (covered_none _) (h g rfl)
  | step s s' evs hs hhook _ =>
      rintro _ ⟨⟩
      have hwatcher : Watcher.Inv E.load literalFile E.length ⟨m, s⟩ := h _ rfl
      exact (Reports.refl m evs).inv (s := s') ⟨hs.table hwatcher.table, hs.serving hwatcher.serving⟩
  | fatal | stop =>
      intro x hx
      cases hx

theorem StageInv.process {g g' : Option Stage} (hstep : ProcessStep E disturbed m g g')
    (h : ∀ x, g = some x → StageInv E m x) : ∀ x, g' = some x → StageInv E m x :=
  fun x hx => ⟨startupInv_process hstep (fun y hy => (h y hy).startup) x hx,
    Fallback.process hstep (fun y hy => (h y hy).fallback) x hx⟩

/-! ### On a mount that nobody changes -/

/-- The configuration on the mount validates against the modules on the mount, and its pools can be
built. -/
structure GoodMount (E : Platform B P) (m : Mount) (cfg : Value) : Prop where
  load : Config.load E.length (nativeRequiredFlags (scanDir E.load m.udf)) (literalFile m.config) = .ok cfg
  builds : E.Builds cfg

/-- The registry is a scan of the directory, and so will be the one being built. -/
structure Current (E : Platform B P) (m : Mount) (s : State) : Prop where
  table : ∀ n, s.table.lookup n = scanned E.load m.udf n
  scan : ∀ todo out, s.phase = .rescanning todo out → ScanInv E.load m.udf todo out

/-- A process that is running, in such a state. -/
def Running (p : State → Prop) (g : Option Stage) : Prop := ∃ s, g = some (.running s) ∧ p s

/-- There is no process, or it has not come to run. -/
def Booting (g : Option Stage) : Prop := ∀ s, g ≠ some (.running s)

section current
variable {cfg : Value}

theorem Current.load (h : Current E m s) (hgood : GoodMount E m cfg) :
    Config.load E.length (nativeRequiredFlags s.table) (literalFile m.config) = .ok cfg := by
  have htable : nativeRequiredFlags s.table = nativeRequiredFlags (scanDir E.load m.udf) :=
    nativeRequiredFlags_congr fun n => by rw [h.table, lookup_scanDir]
  rw [htable, hgood.load]

/-- With a current registry, a reload succeeds. -/
theorem Current.reload (h : Current E m s) (hgood : GoodMount E m cfg) :
    Watcher.reload literalFile E.length m s = ⟨some cfg, some cfg⟩ ∧ ∃ b, (E.hook m s).2 = .ok b := by
  have hload := h.load hgood
  refine ⟨by simp only [Watcher.reload, loadConfig, hload], ?_⟩
  obtain ⟨pools, hpools⟩ := hgood.builds
  refine ⟨⟨pools, cfg⟩, ((mcpConfigPools_spec s.gateway _).2 ⟨pools, cfg⟩).mpr ⟨?_, hpools⟩⟩
  simp only [hload, Except.toOption, Option.some_or]

/-- A registry that is current stays so. -/
theorem Current.gateway_step (evs : List Event) (h : Current E m s)
    (hstep : GatewayStep E.load literalFile E.length m s s') :
    Current E m { s' with queue := s'.queue ++ evs } := by
  cases hstep with
  | receive | absorb | closeConfig | closeClean | request =>
      exact ⟨h.table, by intro todo out hphase; cases hphase⟩
  | reload | notify => exact ⟨h.table, h.scan⟩
  | closeRescan c todo hphase htodo =>
      refine ⟨h.table, ?_⟩
      rintro _ _ ⟨⟩
      exact ScanInv.init fun file hfile => htodo.mem_iff.mpr (AList.mem_keys.mp hfile)
  | visit file todo out hphase =>
      refine ⟨h.table, ?_⟩
      rintro _ _ ⟨⟩
      exact (h.scan _ _ hphase).step
  | swap out hphase =>
      refine ⟨(h.scan _ _ hphase).done, ?_⟩
      intro todo out' hphase'
      cases hphase'

/-- The process serves the configuration on the mount, with its modules. -/
structure Settled (E : Platform B P) (m : Mount) (cfg : Value) (s : State) : Prop where
  current : Current E m s
  config : s.gateway = ⟨some cfg, some cfg⟩

/-- A process with a current registry goes on with one, and it keeps serving a configuration that is
good. -/
theorem Current.process {g : Option Stage} (hgood : GoodMount E m cfg) (h : Current E m s)
    (hstep : ProcessStep E False m (some (.running s)) g) :
    Running (fun s' => Current E m s' ∧ (Settled E m cfg s → Settled E m cfg s')) g := by
  cases hstep with
  | startup _ g' hnew _ _ => exact absurd rfl (hnew s)
  | fatal _ e _ hhook =>
      obtain ⟨-, b, hb⟩ := h.reload hgood
      rw [hb] at hhook
      cases hhook
  | stop _ hf => exact hf.elim
  | step _ s' evs hs _ _ =>
      have hcurrent := h.gateway_step evs hs
      refine ⟨_, rfl, hcurrent, fun hsettled => ⟨hcurrent, ?_⟩⟩
      cases hs with
      | reload _ => exact (h.reload hgood).1
      | receive | absorb | closeRescan | closeConfig | closeClean | visit | swap | request | notify =>
          exact hsettled.config

end current

/-! ### The steps of the watcher's thread -/

/-- What is looked for in a batch: a change of the modules, or any change. -/
inductive Flag where
  | udf
  | any
deriving DecidableEq

def Flag.of : Flag → Bool → Bool → Bool
  | .udf, _, u => u
  | .any, c, u => c || u

def Flag.touched (fl : Flag) (ev : Event) : Bool := fl.of (touchesConfig ev) (touchesUdf ev)

theorem Flag.of_or (fl : Flag) (c u c' u' : Bool) : fl.of (c || c') (u || u') = (fl.of c u || fl.of c' u') := by
  cases fl with
  | udf => rfl
  | any => simp only [Flag.of]; ac_rfl

theorem Flag.of_true (fl : Flag) (c : Bool) : fl.of c true = true := by
  cases fl with
  | udf => rfl
  | any => exact Bool.or_true c

/-- The batch in progress has what is looked for. -/
def Collected (fl : Flag) (s : State) : Prop := ∃ c u, s.phase = .batch c u ∧ fl.of c u = true

/-- A scan that has missed nothing is in progress. -/
def Scanning (E : Platform B P) (m : Mount) (s : State) : Prop :=
  ∃ todo out, s.phase = .rescanning todo out ∧ ScanInv E.load m.udf todo out

/-- The steps until the thread is idle, a rescan that is not due left out. -/
def phaseSteps : Phase → ℕ
  | .idle => 0
  | .requesting => 1
  | .batch _ _ => 2
  | .rescanning todo _ => todo.length + 2

/-- The steps until the thread takes the first notification that is looked for. -/
def queueSteps (fl : Flag) (s : State) : ℕ :=
  6 * s.queue.findIdx fl.touched + 2 * phaseSteps s.phase + s.pending.toNat

theorem queueSteps_append {fl : Flag} (evs : List Event) (h : s.queue.any fl.touched = true) :
    queueSteps fl { s with queue := s.queue ++ evs } = queueSteps fl s := by
  rw [List.any_eq_true] at h
  simp only [queueSteps, List.findIdx_append, if_pos (List.findIdx_lt_length.mpr h)]

theorem not_length_append_le (q : List Event) (ev : Event) : ¬(q ++ [ev]).length ≤ q.length := by
  simp

/-- Taking one notification from the queue. -/
theorem queueSteps_take {fl : Flag} {ev : Event} {q : List Event} {c u : Bool} (hsq : s.queue = ev :: q)
    (hq : s.queue.any fl.touched = true) (hcu : fl.of c u = false) (hq' : s'.queue = q)
    (hpending : s'.pending = s.pending) (hphase : s'.phase = .batch (c || touchesConfig ev) (u || touchesUdf ev)) :
    Collected fl s' ∨ s'.queue.any fl.touched = true ∧ queueSteps fl s' < queueSteps fl s := by
  rw [hsq, List.any_cons, Bool.or_eq_true] at hq
  cases hev : fl.touched ev with
  | true =>
      left
      refine ⟨_, _, hphase, ?_⟩
      rw [Flag.of_or, hcu, Bool.false_or]
      exact hev
  | false =>
      right
      refine ⟨by rw [hq']; exact hq.resolve_left (by rw [hev]; exact Bool.false_ne_true), ?_⟩
      simp only [queueSteps, hsq, hq', hpending, hphase, phaseSteps, List.findIdx_cons, hev, cond_false]
      omega

/-- A notification that is looked for comes to the head of the queue. -/
theorem queue_progress (fl : Flag) (hstep : GatewayStep E.load literalFile E.length m s s')
    (hidle : s'.queue.length ≤ s.queue.length) (hq : s.queue.any fl.touched = true)
    (hnot : ¬Collected fl s) :
    Collected fl s' ∨ s'.queue.any fl.touched = true ∧ queueSteps fl s' < queueSteps fl s := by
  cases hstep with
  | receive ev q hphase hsq =>
      refine queueSteps_take (c := false) (u := false) hsq hq (by cases fl <;> rfl) rfl rfl ?_
      simp only [Bool.false_or]
  | absorb c u ev q hphase hsq =>
      have hcu : fl.of c u = false := by
        rw [Bool.eq_false_iff]
        exact fun hcu => hnot ⟨c, u, hphase, hcu⟩
      exact queueSteps_take hsq hq hcu rfl rfl rfl
  | closeRescan c todo hphase htodo => exact absurd ⟨c, true, hphase, fl.of_true c⟩ hnot
  | closeConfig hphase | closeClean hphase =>
      right
      refine ⟨hq, ?_⟩
      simp only [queueSteps, hphase, phaseSteps]
      omega
  | visit file todo out hphase =>
      right
      refine ⟨hq, ?_⟩
      simp only [queueSteps, hphase, phaseSteps, List.length_cons]
      omega
  | swap out hphase =>
      right
      refine ⟨hq, ?_⟩
      simp only [queueSteps, hphase, phaseSteps, List.length_nil]
      omega
  | request hphase =>
      right
      refine ⟨hq, ?_⟩
      simp only [queueSteps, hphase, phaseSteps, Bool.toNat_true]
      omega
  | reload hpending =>
      right
      refine ⟨hq, ?_⟩
      simp only [queueSteps, hpending, Bool.toNat_true, Bool.toNat_false]
      omega
  | notify ev =>
      exact absurd hidle (not_length_append_le _ ev)

/-- A step that opens no file brings no notification of its own. -/
theorem OwnReads.eq_nil {evs : List Event} (h : OwnReads s s' evs) (hpending : s'.pending = s.pending)
    (hphase : ∀ todo out, s'.phase ≠ .rescanning todo out) : evs = [] := by
  rw [List.eq_nil_iff_forall_not_mem]
  intro ev hev
  obtain ⟨p, -, hopened⟩ := h.opened ev hev
  cases hopened with
  | config hp hp' =>
      rw [hpending, hp] at hp'
      cases hp'
  | udfDir c todo out _ hp => exact hphase _ _ hp
  | udfEntry file todo out out' _ hp => exact hphase _ _ hp

/-- What a batch that has what is looked for leads to. -/
def Closed (E : Platform B P) (m : Mount) (fl : Flag) (s : State) : Prop :=
  Scanning E m s ∨ s.phase = .requesting ∧ fl = .any

/-- A batch goes on until the queue is empty, unless a reload adds to the queue. -/
theorem batch_progress {fl : Flag} {evs : List Event} (hstep : GatewayStep E.load literalFile E.length m s s')
    (hreads : OwnReads s s' evs) (h : Collected fl s) :
    Closed E m fl s' ∨ Collected fl s' ∧
      (s.pending = true ∧ s'.pending = false ∨ s'.pending = s.pending ∧ (s'.queue ++ evs).length < s.queue.length) := by
  obtain ⟨c, u, hphase, hcu⟩ := h
  cases hstep with
  | receive ev q hp hsq | visit file todo out hp | swap out hp | request hp =>
      rw [hphase] at hp
      cases hp
  | absorb c' u' ev q hp hsq =>
      rw [hphase] at hp
      cases hp
      right
      refine ⟨⟨_, _, rfl, by rw [Flag.of_or, hcu, Bool.true_or]⟩, Or.inr ⟨rfl, ?_⟩⟩
      have hnil : evs = [] := hreads.eq_nil rfl fun _ _ hp => by cases hp
      rw [hnil, hsq, List.append_nil, List.length_cons]
      exact Nat.lt_succ_self _
  | closeRescan c' todo hp htodo =>
      exact Or.inl (Or.inl ⟨todo, ∅, rfl, ScanInv.init fun file hfile => htodo.mem_iff.mpr (AList.mem_keys.mp hfile)⟩)
  | closeConfig hp =>
      rw [hphase] at hp
      cases hp
      cases fl with
      | udf => cases hcu
      | any => exact Or.inl (Or.inr ⟨rfl, rfl⟩)
  | closeClean hp =>
      rw [hphase] at hp
      cases hp
      cases fl <;> cases hcu
  | reload hp => exact Or.inr ⟨⟨c, u, hphase, hcu⟩, Or.inl ⟨hp, rfl⟩⟩
  | notify ev =>
      exact absurd hreads.idle (not_length_append_le _ ev)

/-- A scan goes on to its end. -/
theorem scan_progress (hstep : GatewayStep E.load literalFile E.length m s s')
    (hidle : s'.queue.length ≤ s.queue.length) (h : Scanning E m s) :
    Current E m s' ∧ s'.phase = .requesting ∨ Scanning E m s' ∧
      2 * phaseSteps s'.phase + s'.pending.toNat < 2 * phaseSteps s.phase + s.pending.toNat := by
  obtain ⟨todo, out, hphase, hscan⟩ := h
  cases hstep with
  | receive _ _ hp _ | absorb _ _ _ _ hp _ | closeRescan _ _ hp _ | closeConfig hp | closeClean hp | request hp =>
      rw [hphase] at hp
      cases hp
  | visit file todo out hp =>
      rw [hphase] at hp
      cases hp
      right
      refine ⟨⟨_, _, rfl, hscan.step⟩, ?_⟩
      simp only [hphase, phaseSteps, List.length_cons]
      omega
  | swap out hp =>
      rw [hphase] at hp
      cases hp
      exact Or.inl ⟨⟨hscan.done, by intro _ _ hp; cases hp⟩, rfl⟩
  | reload hp =>
      right
      refine ⟨⟨todo, out, hphase, hscan⟩, ?_⟩
      simp only [hp, Bool.toNat_true, Bool.toNat_false]
      omega
  | notify ev =>
      exact absurd hidle (not_length_append_le _ ev)

/-! ### Runs -/

/-- A run of the process on the mount `m`: it goes on as long as it can, and it runs the reloads that are
requested at some time. -/
structure ProcessRun (E : Platform B P) (m : Mount) (h : ℕ → Option Stage) : Prop where
  step : ∀ n, ProcessStep E False m (h n) (h (n + 1)) ∨ h (n + 1) = h n ∧ ∀ g, ¬ProcessStep E False m (h n) g
  inv : ∀ g, h 0 = some g → StageInv E m g
  reloads : ∀ n, ∃ k, n ≤ k ∧ ∀ s, h k = some (.running s) → s.pending = false

section run
variable {h : ℕ → Option Stage} {n : ℕ}

theorem ProcessRun.next {g : Option Stage} (hrun : ProcessRun E m h) (hg : ProcessStep E False m (h n) g) :
    ProcessStep E False m (h n) (h (n + 1)) :=
  (hrun.step n).resolve_right fun hstuck => hstuck.2 g hg

theorem ProcessRun.inv_at (hrun : ProcessRun E m h) : ∀ n g, h n = some g → StageInv E m g := by
  intro n
  induction n with
  | zero => exact hrun.inv
  | succ n ih =>
      rcases hrun.step n with hstep | ⟨hsame, -⟩
      · exact StageInv.process hstep ih
      · rw [hsame]
        exact ih

/-- The thread has something to do. -/
theorem exists_gateway_step (m : Mount) (hbusy : s.phase ≠ .idle ∨ s.queue ≠ []) :
    ∃ s', GatewayStep E.load literalFile E.length m s s' ∧ s'.queue.length ≤ s.queue.length ∧
      (s.pending = true → s'.pending = true) := by
  cases hp : s.phase with
  | idle =>
      cases hq : s.queue with
      | nil =>
          rw [hp, hq] at hbusy
          simp at hbusy
      | cons ev q => exact ⟨_, .receive s ev q hp hq, Nat.le_succ _, id⟩
  | requesting => exact ⟨_, .request s hp, le_rfl, fun _ => rfl⟩
  | rescanning todo out =>
      cases todo with
      | nil => exact ⟨_, .swap s out hp, le_rfl, id⟩
      | cons file todo => exact ⟨_, .visit s file todo out hp, le_rfl, id⟩
  | batch c u =>
      cases u with
      | true => exact ⟨_, .closeRescan s c _ hp (.refl _), le_rfl, id⟩
      | false =>
          cases c with
          | true => exact ⟨_, .closeConfig s hp, le_rfl, id⟩
          | false => exact ⟨_, .closeClean s hp, le_rfl, id⟩

/-- A thread that has something to do goes on, or the process exits. -/
theorem ProcessRun.busy (hrun : ProcessRun E m h) (hs : h n = some (.running s))
    (hbusy : s.phase ≠ .idle ∨ s.queue ≠ []) :
    Booting (h (n + 1)) ∨ ∃ s' evs, GatewayStep E.load literalFile E.length m s s' ∧ OwnReads s s' evs ∧
      h (n + 1) = some (.running { s' with queue := s'.queue ++ evs }) := by
  obtain ⟨s₁, hs₁, hidle, hpending⟩ := exists_gateway_step (E := E) m hbusy
  have hable : ProcessStep E False m (h n) (some (.running { s₁ with queue := s₁.queue ++ [] })) := by
    rw [hs]
    exact .step s s₁ [] hs₁ (fun hp => Or.inl (hpending hp)) (Or.inr ⟨hidle, by simp⟩)
  have hnext := hrun.next hable
  rw [hs] at hnext
  generalize h (n + 1) = g at hnext ⊢
  cases hnext with
  | startup _ g' hnew _ _ => exact absurd rfl (hnew s)
  | step _ s' evs hstep _ hevs => exact Or.inr ⟨s', evs, hstep, hevs.resolve_left id, rfl⟩
  | fatal _ e _ _ =>
      left
      intro s' hs'
      cases hs'
  | stop _ hf => exact hf.elim

/-- A rank of running processes. -/
def Stage.rank (rank : State → ℕ) : Stage → ℕ
  | .running s => rank s
  | _ => 0

/-- The rule for a thread that has something to do: every step decreases the rank, until `q` holds or
the process exits. -/
theorem ProcessRun.leads (hrun : ProcessRun E m h) {p q : State → Prop} (rank : State → ℕ)
    (hstep : ∀ s, p s → q s ∨ (s.phase ≠ .idle ∨ s.queue ≠ []) ∧
      ∀ s' evs, GatewayStep E.load literalFile E.length m s s' → OwnReads s s' evs →
        q { s' with queue := s'.queue ++ evs } ∨
        p { s' with queue := s'.queue ++ evs } ∧ rank { s' with queue := s'.queue ++ evs } < rank s) :
    LeadsTo h (Running p) (fun g => Running q g ∨ Booting g) := by
  apply LeadsTo.of_variant fun g : Option Stage => g.elim 0 (Stage.rank rank)
  rintro n ⟨s, hs, hp⟩
  rcases hstep s hp with hq | ⟨hbusy, hprogress⟩
  · exact Or.inl (Or.inl ⟨s, hs, hq⟩)
  · rcases hrun.busy hs hbusy with hboot | ⟨s', evs, hgateway, hreads, hnext⟩
    · exact Or.inr (Or.inl (Or.inr hboot))
    · rcases hprogress s' evs hgateway hreads with hq | ⟨hp', hlt⟩
      · exact Or.inr (Or.inl (Or.inl ⟨_, hnext, hq⟩))
      · refine Or.inr (Or.inr ⟨⟨_, hnext, hp'⟩, ?_⟩)
        simp only [hs, hnext, Option.elim_some]
        exact hlt

/-- A notification that waits gets into a batch. -/
theorem ProcessRun.leads_collected (hrun : ProcessRun E m h) (fl : Flag) :
    LeadsTo h (Running fun s => s.queue.any fl.touched = true)
      (fun g => Running (Collected fl) g ∨ Booting g) := by
  apply hrun.leads (queueSteps fl)
  intro s hq
  by_cases hbatch : Collected fl s
  · exact Or.inl hbatch
  · refine Or.inr ⟨Or.inr ?_, ?_⟩
    · rintro hnil
      rw [hnil] at hq
      cases hq
    · intro s' evs hstep hreads
      apply (queue_progress fl hstep hreads.idle hq hbatch).imp id
      rintro ⟨hq', hlt⟩
      refine ⟨?_, by rwa [queueSteps_append evs hq']⟩
      show (s'.queue ++ evs).any fl.touched = true
      rw [List.any_append, hq', Bool.true_or]

/-- A batch is closed. -/
theorem ProcessRun.leads_closed (hrun : ProcessRun E m h) (fl : Flag) :
    LeadsTo h (Running (Collected fl)) (fun g => Running (Closed E m fl) g ∨ Booting g) := by
  have hbusy : ∀ {s : State}, Collected fl s → s.phase ≠ .idle := by
    rintro s ⟨c, u, hphase, -⟩
    rw [hphase]
    exact fun hidle => by cases hidle
  -- once no reload is pending, nothing adds to the queue
  have hquiet : LeadsTo h (Running fun s => Collected fl s ∧ s.pending = false)
      (fun g => Running (Closed E m fl) g ∨ Booting g) := by
    apply hrun.leads fun s => s.queue.length
    rintro s ⟨hbatch, hpending⟩
    refine Or.inr ⟨Or.inl (hbusy hbatch), fun s' evs hstep hreads => ?_⟩
    apply (batch_progress hstep hreads hbatch).imp id
    rintro ⟨hbatch', ⟨hp, -⟩ | ⟨hp, hlt⟩⟩
    · rw [hpending] at hp
      cases hp
    · exact ⟨⟨hbatch', hp.trans hpending⟩, hlt⟩
  have hloud : LeadsTo h (Running (Collected fl)) (fun g =>
      Running (fun s => (Collected fl s ∧ s.pending = false) ∨ Closed E m fl s) g ∨ Booting g) := by
    apply hrun.leads fun s => s.queue.length
    intro s hbatch
    refine Or.inr ⟨Or.inl (hbusy hbatch), fun s' evs hstep hreads => ?_⟩
    rcases batch_progress hstep hreads hbatch with hclosed | ⟨hbatch', ⟨-, hp⟩ | ⟨hp, hlt⟩⟩
    · exact Or.inl (Or.inr hclosed)
    · exact Or.inl (Or.inl ⟨hbatch', hp⟩)
    · exact Or.inr ⟨hbatch', hlt⟩
  refine hloud.trans (.elim ?_ fun n hboot => ⟨n, le_rfl, Or.inr hboot⟩)
  rintro n ⟨s, hs, hq | hclosed⟩
  · exact hquiet n ⟨s, hs, hq⟩
  · exact ⟨n, le_rfl, Or.inl ⟨s, hs, hclosed⟩⟩

/-- A scan that has missed nothing is published. -/
theorem ProcessRun.leads_published (hrun : ProcessRun E m h) :
    LeadsTo h (Running (Scanning E m))
      (fun g => Running (fun s => Current E m s ∧ s.phase = .requesting) g ∨ Booting g) := by
  apply hrun.leads fun s => 2 * phaseSteps s.phase + s.pending.toNat
  intro s hscan
  refine Or.inr ⟨Or.inl ?_, ?_⟩
  · obtain ⟨todo, out, hphase, -⟩ := hscan
    rw [hphase]
    exact fun hidle => by cases hidle
  · intro s' evs hstep hreads
    apply (scan_progress hstep hreads.idle hscan).imp_left
    rintro ⟨hcurrent, hphase⟩
    exact ⟨⟨hcurrent.table, hcurrent.scan⟩, hphase⟩

/-- A reload that is to be requested is requested. -/
theorem ProcessRun.leads_pending (hrun : ProcessRun E m h) :
    LeadsTo h (Running fun s => s.phase = .requesting)
      (fun g => Running (fun s => s.pending = true) g ∨ Booting g) := by
  apply hrun.leads fun _ => 0
  intro s hphase
  by_cases hpending : s.pending = true
  · exact Or.inl hpending
  · refine Or.inr ⟨Or.inl (by rw [hphase]; exact fun hidle => by cases hidle), ?_⟩
    intro s' evs hstep hreads
    left
    cases hstep with
    | receive _ _ hp _ | absorb _ _ _ _ hp _ | closeRescan _ _ hp _ | closeConfig hp | closeClean hp =>
        rw [hphase] at hp
        cases hp
    | visit _ _ _ hp | swap _ hp =>
        rw [hphase] at hp
        cases hp
    | request _ => rfl
    | reload hp => exact absurd hp hpending
    | notify ev =>
        exact absurd hreads.idle (not_length_append_le _ ev)

/-- The steps until the process runs. -/
def startupSteps (m : Mount) : Option Stage → ℕ
  | none => m.udf.keys.length + 6
  | some .starting => m.udf.keys.length + 5
  | some (.scanning todo _) => todo.length + 4
  | some (.published _) => 3
  | some (.configWatched _ _) => 2
  | some (.running _) => 0

/-- A stage of startup has a step. -/
theorem exists_startup_step (m : Mount) (hnew : ∀ s, g ≠ .running s) :
    ∃ g', StartupStep E.load literalFile E.length (g.on m) none (Stage.on m g') ∧
      g'.queue.length ≤ g.queue.length := by
  cases g with
  | running s => exact absurd rfl (hnew s)
  | starting => exact ⟨.scanning _ ∅, .list m _ (.refl _), le_rfl⟩
  | published table => exact ⟨.configWatched table [], .watchConfig m table, le_rfl⟩
  | configWatched table queue => exact ⟨.running _, .watchUdf m table queue, le_rfl⟩
  | scanning todo out =>
      cases todo with
      | nil => exact ⟨.published out, .swap m out, le_rfl⟩
      | cons file todo => exact ⟨.scanning todo _, .visit m file todo out, le_rfl⟩

/-- A step of startup leaves less to do, and when the process comes to run its registry is current. -/
theorem startup_progress (hnew : ∀ s, g ≠ .running s)
    (hstep : StartupStep E.load literalFile E.length (g.on m) none (g'.on m))
    (hidle : g'.queue.length ≤ g.queue.length) (h : StageInv E m g) :
    (∃ s, g' = .running s ∧ Current E m s) ∨
      (∀ s, g' ≠ .running s) ∧ startupSteps m (some g') < startupSteps m (some g) := by
  rcases startup_cases hnew hstep with ⟨todo, rfl, htodo, rfl⟩ | ⟨file, todo, out, rfl, rfl⟩ | ⟨out, rfl, rfl⟩ |
    ⟨table, rfl, rfl⟩ | ⟨table, queue, rfl, rfl⟩ | ⟨table, queue, ev, rfl, rfl⟩
  · refine Or.inr ⟨(by rintro s ⟨⟩), ?_⟩
    simp only [startupSteps, htodo.length_eq]
    omega
  · refine Or.inr ⟨(by rintro s ⟨⟩), ?_⟩
    simp only [startupSteps, List.length_cons]
    omega
  · refine Or.inr ⟨(by rintro s ⟨⟩), ?_⟩
    simp only [startupSteps, List.length_nil]
    omega
  · exact Or.inr ⟨(by rintro s ⟨⟩), Nat.lt_succ_self 2⟩
  · exact Or.inl ⟨_, rfl, h.startup, fun todo out hphase => by cases hphase⟩
  · exact absurd hidle (not_length_append_le queue ev)

/-- A process that is started comes to run, with a current registry. -/
theorem ProcessRun.leads_running (hrun : ProcessRun E m h) : LeadsTo h Booting (Running (Current E m)) := by
  apply LeadsTo.of_variant (startupSteps m)
  intro n hboot
  right
  cases hg : h n with
  | none =>
      have hable : ProcessStep E False m (h n) (some .starting) := hg ▸ .start
      have hnext := hrun.next hable
      rw [hg] at hnext
      generalize h (n + 1) = g' at hnext ⊢
      cases hnext
      refine Or.inr ⟨(by rintro s ⟨⟩), Nat.lt_succ_self _⟩
  | some g =>
      have hnew : ∀ s, g ≠ .running s := fun s hs => hboot s (hg.trans (congrArg some hs))
      obtain ⟨g₁, hg₁, hidle₁⟩ := exists_startup_step (E := E) m hnew
      have hable : ProcessStep E False m (h n) (some g₁) := hg ▸ .startup g g₁ hnew hg₁ (Or.inr hidle₁)
      have hnext := hrun.next hable
      have hinv := hrun.inv_at n g hg
      rw [hg] at hnext
      generalize h (n + 1) = next at hnext ⊢
      cases hnext with
      | startup _ g' _ hstep hidle =>
          rcases startup_progress hnew hstep (hidle.resolve_left id) hinv with ⟨s, rfl, hcurrent⟩ | ⟨hnew', hlt⟩
          · exact Or.inl ⟨s, rfl, hcurrent⟩
          · exact Or.inr ⟨fun s hs => hnew' s (Option.some.inj hs), hlt⟩
      | step s _ _ _ _ _ => exact absurd rfl (hnew s)
      | fatal s _ _ _ => exact absurd rfl (hnew s)
      | stop _ hf => exact hf.elim

/-- Whatever the process is doing, its registry becomes current. -/
theorem ProcessRun.leads_current (hrun : ProcessRun E m h) :
    LeadsTo h (fun _ => True) (Running (Current E m)) := by
  -- once what is due has led to a scan
  have hscanned : LeadsTo h (fun g => Running (Closed E m .udf) g ∨ Booting g) (Running (Current E m)) := by
    refine .elim ?_ hrun.leads_running
    have hpublished : LeadsTo h (Running (Scanning E m)) (Running (Current E m)) := by
      refine hrun.leads_published.trans (.elim ?_ hrun.leads_running)
      rintro n ⟨s, hs, hcurrent, -⟩
      exact ⟨n, le_rfl, s, hs, hcurrent⟩
    rintro n ⟨s, hs, hscan | ⟨-, hfl⟩⟩
    · exact hpublished n ⟨s, hs, hscan⟩
    · cases hfl
  have hcollected := (hrun.leads_closed .udf).trans hscanned
  intro n _
  by_cases hboot : Booting (h n)
  · exact hrun.leads_running n hboot
  · obtain ⟨s, hs⟩ := not_forall_not.mp hboot
    have hinv : Watcher.Inv E.load literalFile E.length ⟨m, s⟩ := (hrun.inv_at n _ hs).startup
    rcases hinv.table with hdirty | htable
    · simp only [UdfDirty, Bool.or_eq_true] at hdirty
      rcases hdirty with hqueue | hphase
      · exact ((hrun.leads_collected .udf).trans (.elim hcollected hrun.leads_running)) n ⟨s, hs, hqueue⟩
      · cases hp : s.phase with
        | idle | rescanning | requesting =>
            rw [hp] at hphase
            cases hphase
        | batch c u =>
            rw [hp] at hphase
            exact hcollected n ⟨s, hs, c, u, hp, hphase⟩
    · unfold TableOk at htable
      cases hp : s.phase with
      | rescanning todo out =>
          simp only [hp] at htable
          exact hscanned n (Or.inl ⟨s, hs, Or.inl ⟨todo, out, hp, htable⟩⟩)
      | idle | batch | requesting =>
          simp only [hp] at htable
          refine ⟨n, le_rfl, s, hs, htable, ?_⟩
          intro todo out hp'
          rw [hp] at hp'
          cases hp'

section good
variable {cfg : Value}

/-- A registry that is current stays so. -/
theorem ProcessRun.current_stays (hrun : ProcessRun E m h) (hgood : GoodMount E m cfg) :
    ∀ n, Running (Current E m) (h n) → Running (Current E m) (h (n + 1)) := by
  rintro n ⟨s, hs, hcurrent⟩
  rcases hrun.step n with hstep | ⟨hsame, -⟩
  · rw [hs] at hstep
    obtain ⟨s', hs', hcurrent', -⟩ := hcurrent.process hgood hstep
    exact ⟨s', hs', hcurrent'⟩
  · exact ⟨s, hsame.trans hs, hcurrent⟩

theorem ProcessRun.settled_stays (hrun : ProcessRun E m h) (hgood : GoodMount E m cfg) :
    ∀ n, Running (Settled E m cfg) (h n) → Running (Settled E m cfg) (h (n + 1)) := by
  rintro n ⟨s, hs, hsettled⟩
  rcases hrun.step n with hstep | ⟨hsame, -⟩
  · rw [hs] at hstep
    obtain ⟨s', hs', -, hkeep⟩ := hsettled.current.process hgood hstep
    exact ⟨s', hs', hkeep hsettled⟩
  · exact ⟨s, hsame.trans hs, hsettled⟩

/-- With a current registry, the reload that is pending is run, and the configuration is served. -/
theorem ProcessRun.leads_settled_of_pending (hrun : ProcessRun E m h) (hgood : GoodMount E m cfg) :
    LeadsTo h (Running fun s => Current E m s ∧ s.pending = true) (Running (Settled E m cfg)) := by
  rintro n ⟨s, hs, hcurrent, hpending⟩
  obtain ⟨k, hk, hdone⟩ := hrun.reloads n
  have hstays : ∀ j, n ≤ j → Running (Current E m) (h j) :=
    fun j hj => stays (hrun.current_stays hgood) hj ⟨s, hs, hcurrent⟩
  have hceased : ¬Running (fun s => s.pending = true) (h k) := by
    rintro ⟨s', hs', hp⟩
    rw [hdone s' hs'] at hp
    cases hp
  obtain ⟨j, hj, ⟨s₁, hs₁, hp₁⟩, hnext⟩ := exists_ceases hk ⟨s, hs, hpending⟩ hceased
  obtain ⟨s₂, hs₂, hcurrent₂⟩ := hstays j hj
  obtain rfl : s₁ = s₂ := by
    rw [hs₁] at hs₂
    cases hs₂
    rfl
  -- the step that ends the wait is the reload
  have hstep : ProcessStep E False m (h j) (h (j + 1)) := by
    rcases hrun.step j with hstep | ⟨hsame, -⟩
    · exact hstep
    · exact absurd ⟨s₁, hsame.trans hs₁, hp₁⟩ hnext
  refine ⟨j + 1, by omega, ?_⟩
  obtain ⟨s', hs', hcurrent', -⟩ := hcurrent₂.process hgood (hs₁ ▸ hstep)
  refine ⟨s', hs', hcurrent', ?_⟩
  have hnot : s'.pending ≠ true := fun hp => hnext ⟨s', hs', hp⟩
  rw [hs₁, hs'] at hstep
  cases hstep with
  | startup _ _ hnew _ _ => exact absurd rfl (hnew s₁)
  | step _ s'' evs hstep _ _ =>
      cases hstep with
      | reload _ => exact (hcurrent₂.reload hgood).1
      | request _ => exact absurd rfl hnot
      | receive | absorb | closeRescan | closeConfig | closeClean | visit | swap | notify =>
          exact absurd hp₁ hnot

/-- With a current registry, a reload that is due is requested. -/
theorem ProcessRun.leads_due (hrun : ProcessRun E m h) :
    LeadsTo h (Running fun s => Current E m s ∧ ReloadDue s = true)
      (fun g => Running (fun s => s.pending = true) g ∨ Booting g) := by
  have hboot : LeadsTo h Booting (fun g => Running (fun s => s.pending = true) g ∨ Booting g) :=
    fun n hb => ⟨n, le_rfl, Or.inr hb⟩
  have hscanned : LeadsTo h (Running (Scanning E m)) (fun g => Running (fun s => s.pending = true) g ∨ Booting g) := by
    refine hrun.leads_published.trans (.elim ?_ hboot)
    rintro n ⟨s, hs, -, hphase⟩
    exact hrun.leads_pending n ⟨s, hs, hphase⟩
  have hcollected : LeadsTo h (Running (Collected .any)) (fun g => Running (fun s => s.pending = true) g ∨ Booting g) := by
    refine (hrun.leads_closed .any).trans (.elim ?_ hboot)
    rintro n ⟨s, hs, hscan | ⟨hphase, -⟩⟩
    · exact hscanned n ⟨s, hs, hscan⟩
    · exact hrun.leads_pending n ⟨s, hs, hphase⟩
  rintro n ⟨s, hs, hcurrent, hdue⟩
  simp only [ReloadDue, Bool.or_eq_true] at hdue
  rcases hdue with (hqueue | hphase) | hpending
  · exact ((hrun.leads_collected .any).trans (.elim hcollected hboot)) n ⟨s, hs, hqueue⟩
  · cases hp : s.phase with
    | idle =>
        rw [hp] at hphase
        cases hphase
    | batch c u =>
        rw [hp] at hphase
        exact hcollected n ⟨s, hs, c, u, hp, hphase⟩
    | rescanning todo out => exact hscanned n ⟨s, hs, todo, out, hp, hcurrent.scan todo out hp⟩
    | requesting => exact hrun.leads_pending n ⟨s, hs, hp⟩
  · exact ⟨n, le_rfl, Or.inl ⟨s, hs, hpending⟩⟩

/-- On a mount that nobody changes and whose configuration is good, the process comes to serve that
configuration, and it serves it from then on. -/
theorem process_settles (hrun : ProcessRun E m h) (hgood : GoodMount E m cfg) :
    ∃ N, ∀ n, N ≤ n → Running (Settled E m cfg) (h n) := by
  obtain ⟨n, -, s, hs, hcurrent⟩ := hrun.leads_current 0 trivial
  have hstays : ∀ j, n ≤ j → Running (Current E m) (h j) :=
    fun j hj => stays (hrun.current_stays hgood) hj ⟨s, hs, hcurrent⟩
  obtain ⟨k, hk⟩ : ∃ k, Running (Settled E m cfg) (h k) := by
    have hinv : Watcher.Inv E.load literalFile E.length ⟨m, s⟩ := (hrun.inv_at n _ hs).startup
    rcases hinv.serving with hdue | hserving
    · obtain ⟨j, hj, ⟨s₁, hs₁, hpending⟩ | hboot⟩ := hrun.leads_due n ⟨s, hs, hcurrent, hdue⟩
      · obtain ⟨s₂, hs₂, hcurrent₂⟩ := hstays j hj
        obtain rfl : s₁ = s₂ := by
          rw [hs₁] at hs₂
          cases hs₂
          rfl
        obtain ⟨k, -, hk⟩ := hrun.leads_settled_of_pending hgood j ⟨s₁, hs₁, hcurrent₂, hpending⟩
        exact ⟨k, hk⟩
      · obtain ⟨s₂, hs₂, -⟩ := hstays j hj
        exact absurd hs₂ (hboot s₂)
    · have hconfig : s.gateway.config = some cfg := hserving cfg (hcurrent.load hgood)
      have hfallback := ((hrun.inv_at n _ hs).fallback s rfl).1
      refine ⟨n, s, hs, hcurrent, ?_⟩
      rw [show s.gateway = ⟨s.gateway.config, s.gateway.lastGood⟩ from rfl, ← hfallback, hconfig]
  exact ⟨k, fun n hn => stays (hrun.settled_stays hgood) hn hk⟩

end good

end run

end process

end McGateway.Live
