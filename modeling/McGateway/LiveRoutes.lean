import McGateway.Pipeline

/-! # Removing modules under live routes

The committer, the watcher and the readers run side by side: the committer removes a module once
the configuration that no longer refers to it has been *written*; the watcher publishes the new
table before it requests a reload; the routes change only when the reload has run.  A read that
arrives between the last two steps still dispatches through the old routes.

`live_routes_registered` gives conditions on a run under which no read ever finds its merge
unregistered; `removed_under_live_routes` is a run of the real components, without any failure,
in which one does. -/

namespace McGateway.Live

open Lua Config McGateway.Operator McGateway.Core McGateway.Watcher
open Bytes (ascii validUtf8)

/-! ### The system -/

/-- Running a configuration file that is a Lua literal, as the rendered ones are. -/
def literalFile : Option Bytes → Chunk
  | none => .unloadable []
  | some bytes =>
      match loadLiteral bytes with
      | some v => .returns v
      | none => .unloadable []

/-- How the watcher sees a name of the mount. -/
def watchPath (name : Bytes) : WatchPath :=
  match resolve name with
  | some [f] => if f = configName then .config else if f = udfName then .udfDir else .other
  | some [g, f] => if g = udfName then .udfEntry f.1 else .other
  | _ => .other

/-- The notifications of an operation. -/
def eventsOf : FsOp → List Event
  | .readFile _ => []
  | .readDir _ => []
  | .writeFile name _ => [[watchPath name]]
  | .rename oldname newname => [[watchPath oldname, watchPath newname]]
  | .remove name => [[watchPath name]]

/-- The committer and its mount, and the gateway process. -/
structure LiveWorld where
  operator : Operator.World
  state : Watcher.State

/-- The empty mount, with the watches armed and the first load due. -/
def LiveWorld.init : LiveWorld := ⟨Operator.World.init, ⟨[], .idle, true, ∅, .init⟩⟩

section system
variable (load : Bytes → Bytes → Option Merge) (L : LengthOp)

inductive LiveStep : LiveWorld → LiveWorld → Prop where
  /-- A commit starts, ends or is cut off. -/
  | control (w : LiveWorld) (o : Operator.World) (h : WorldStep w.operator o)
      (hdisk : o.disk = w.operator.disk) : LiveStep w { w with operator := o }
  /-- An operation of the commit in progress, with its notifications. -/
  | commit (w : LiveWorld) (op : FsOp) (k : op.Answer → Prog FS Outcome) (a : op.Answer) (d : Disk)
      (hjob : w.operator.job = some (.call op k)) (hop : FsStep op w.operator.disk a d) :
      LiveStep w ⟨{ w.operator with disk := d, job := some (k a) },
        { w.state with queue := w.state.queue ++ eventsOf op }⟩
  | gateway (w : LiveWorld) (s : State)
      (h : GatewayStep load literalFile L (mountOf w.operator.disk) w.state s) :
      LiveStep w { w with state := s }

end system

/-- The merges that the routes of the last completed reload dispatch through. -/
def servedMerges (s : State) : List Bytes := (s.gateway.config.map mergeNames).getD []

/-- A step does not pull a module from under the served routes, and no module file appears while
a rescan is in progress. -/
structure Benign (w w' : LiveWorld) : Prop where
  keeps : ∀ n ∈ servedMerges w.state, ModulePresent w.operator.disk n →
    ModulePresent w'.operator.disk n
  settled : ∀ todo out, w.state.phase = .rescanning todo out →
    ∀ n, ModulePresent w'.operator.disk n → ModulePresent w.operator.disk n

/-! ### The invariant -/

/-- A merge that reads can rely on: built in, or registered with its module on the mount. -/
def Held (d : Disk) (table : WasmTable) (n : Bytes) : Prop :=
  n ∈ builtinMerges ∨
    (safeModuleName n = true ∧ n ∉ builtinMerges ∧ ModulePresent d n ∧ n ∈ table)

structure LiveInv (w : LiveWorld) : Prop where
  operator : WorldInv w.operator
  fallback : w.state.gateway.config = w.state.gateway.lastGood
  served : ∀ n ∈ servedMerges w.state, Held w.operator.disk w.state.table n
  scan : ∀ todo out, w.state.phase = .rescanning todo out →
    ∀ n, safeModuleName n = true → n ∉ builtinMerges → ModulePresent w.operator.disk n →
      n ++ wasmSuffix ∈ todo ∨ n ∈ out

section proofs
variable {load : Bytes → Bytes → Option Merge} {L : LengthOp}

theorem Held.applyMerge {d : Disk} {table : WasmTable} {n : Bytes} (h : Held d table n)
    (es : List Entry) : (applyMerge table n es).isSome := by
  rw [isSome_applyMerge]
  rcases h with h | ⟨-, -, -, h⟩
  · exact Or.inl (mem_builtinMerges_iff.mp h)
  · exact Or.inr h

theorem ModulePresent.lookup {d : Disk} {n : Bytes} (h : ModulePresent d n) :
    ∃ data, (mountOf d).udf.lookup (n ++ wasmSuffix) = some data := by
  obtain ⟨f, -, hf, data, hdata⟩ := h
  exact ⟨data, lookup_mountOf_udf.mpr ⟨f, hf, hdata⟩⟩

theorem mem_of_nativeRequiredFlags {table : WasmTable} {n : Bytes}
    (h : (nativeRequiredFlags table n).isSome) (hb : n ∉ builtinMerges) : n ∈ table := by
  rw [isSome_nativeRequiredFlags] at h
  exact h.2.resolve_left fun hbuiltin => hb (mem_builtinMerges_iff.mpr hbuiltin)

/-- A configuration of the mount that validates merges only through names that resolve on the
mount and in the registry. -/
theorem held_of_load {started : List Snapshot} {d : Disk} {table : WasmTable} {cfg : Value}
    (hmount : MountInv started d)
    (hload : Config.load L (nativeRequiredFlags table) (literalFile (mountOf d).config) = .ok cfg) :
    ∀ n ∈ mergeNames cfg, Held d table n := by
  cases hc : (mountOf d).config with
  | none =>
      rw [hc] at hload
      cases hload
  | some b =>
      obtain ⟨p, hp, hnode⟩ := contents_eq_some.mp hc
      rw [resolve_configFile, Option.some.injEq] at hp
      subst hp
      obtain ⟨s, -, rfl, hres⟩ := hmount.config b hnode
      rw [hc] at hload
      simp only [literalFile, configBytes, loadLiteral_renderConfig] at hload
      obtain ⟨hnames, hreg⟩ := mergeNames_validate hload
      intro n hn
      rw [hnames] at hn
      have hflags := hreg n hn
      rw [mergeNames_configValue, List.mem_map] at hn
      obtain ⟨ks, hks, rfl⟩ := hn
      rcases mergeName_emitted ((emittedKeyspaces_spec s).admissible ks hks) with hb | hm
      · exact Or.inl hb
      · obtain ⟨hsafe, hb⟩ := mem_emittedModules hm
        exact Or.inr ⟨hsafe, hb, (hres ks hks).resolve_left hb, mem_of_nativeRequiredFlags hflags hb⟩

/-- A visited file that is there ends up in the table. -/
theorem mem_scanStep_of_present (hload : ∀ n b, (load n b).isSome) {d : Disk} {out : WasmTable}
    {n : Bytes} (hsafe : safeModuleName n = true) (hb : n ∉ builtinMerges) (hp : ModulePresent d n) :
    n ∈ scanStep load out (n ++ wasmSuffix) ((mountOf d).udf.lookup (n ++ wasmSuffix)) := by
  have hbuiltin : builtin n = none := by
    rw [mem_builtinMerges_iff] at hb
    simpa using hb
  have hne : n ≠ [] := by
    rintro rfl
    cases hsafe
  obtain ⟨data, hdata⟩ := ModulePresent.lookup hp
  obtain ⟨m, hm⟩ := Option.isSome_iff_exists.mp (hload n data)
  rw [← AList.lookup_isSome, lookup_scanStep, hdata,
    if_pos ⟨wasmStem_eq_some.mpr ⟨hne, rfl⟩, validUtf8_of_safe hsafe, hbuiltin⟩, Option.bind_some, hm]
  rfl

theorem mem_scanStep_of_mem {out : WasmTable} {file n : Bytes} {content : Option Bytes} (h : n ∈ out) :
    n ∈ scanStep load out file content := by
  rw [← AList.lookup_isSome] at h ⊢
  rw [lookup_scanStep]
  split_ifs
  · cases content.bind (load n) with
    | some m => rfl
    | none => exact h
  · exact h

/-- A step of the gateway keeps the invariant. -/
theorem LiveInv.gatewayStep (hload : ∀ n b, (load n b).isSome) {w : LiveWorld} {s : State}
    (hstep : GatewayStep load literalFile L (mountOf w.operator.disk) w.state s) (h : LiveInv w) :
    LiveInv { w with state := s } := by
  cases hstep with
  | receive ev q hphase hq => exact ⟨h.operator, h.fallback, h.served, fun _ _ hp => by cases hp⟩
  | absorb c u ev q hphase hq => exact ⟨h.operator, h.fallback, h.served, fun _ _ hp => by cases hp⟩
  | closeConfig hphase => exact ⟨h.operator, h.fallback, h.served, fun _ _ hp => by cases hp⟩
  | closeClean hphase => exact ⟨h.operator, h.fallback, h.served, fun _ _ hp => by cases hp⟩
  | request hphase => exact ⟨h.operator, h.fallback, h.served, fun _ _ hp => by cases hp⟩
  | notify ev => exact ⟨h.operator, h.fallback, h.served, h.scan⟩
  | closeRescan c todo hphase htodo =>
      refine ⟨h.operator, h.fallback, h.served, ?_⟩
      intro todo' out hp n _ _ hpresent
      cases hp
      obtain ⟨data, hdata⟩ := ModulePresent.lookup hpresent
      exact Or.inl (htodo.mem_iff.mpr (AList.mem_keys.mp (AList.lookup_isSome.mp (by rw [hdata]; rfl))))
  | visit file todo out hphase =>
      refine ⟨h.operator, h.fallback, h.served, ?_⟩
      intro todo' out' hp n hsafe hb hpresent
      cases hp
      rcases h.scan _ _ hphase n hsafe hb hpresent with hmem | hmem
      · rcases List.mem_cons.mp hmem with rfl | hmem
        · exact Or.inr (mem_scanStep_of_present hload hsafe hb hpresent)
        · exact Or.inl hmem
      · exact Or.inr (mem_scanStep_of_mem hmem)
  | swap out hphase =>
      refine ⟨h.operator, h.fallback, ?_, fun _ _ hp => by cases hp⟩
      intro n hn
      rcases h.served n hn with hb | ⟨hsafe, hb, hpresent, -⟩
      · exact Or.inl hb
      · rcases h.scan _ _ hphase n hsafe hb hpresent with hmem | hmem
        · cases hmem
        · exact Or.inr ⟨hsafe, hb, hpresent, hmem⟩
  | reload hpending =>
      cases hl : Config.load L (nativeRequiredFlags w.state.table)
          (literalFile (mountOf w.operator.disk).config) with
      | ok cfg =>
          have e : reload literalFile L (mountOf w.operator.disk) w.state = ⟨some cfg, some cfg⟩ := by
            simp only [reload, loadConfig, hl]
          rw [e]
          exact ⟨h.operator, rfl, held_of_load h.operator.mount hl, h.scan⟩
      | error err =>
          have e : reload literalFile L (mountOf w.operator.disk) w.state = w.state.gateway :=
            loadConfig_of_error hl h.fallback
          rw [e]
          exact ⟨h.operator, h.fallback, h.served, h.scan⟩

theorem LiveInv.step (hload : ∀ n b, (load n b).isSome) {w w' : LiveWorld}
    (hstep : LiveStep load L w w') (hb : Benign w w') (h : LiveInv w) : LiveInv w' := by
  have hserved : ∀ n ∈ servedMerges w.state, Held w'.operator.disk w.state.table n := by
    intro n hn
    rcases h.served n hn with hbuiltin | ⟨hsafe, hnb, hpresent, hmem⟩
    · exact Or.inl hbuiltin
    · exact Or.inr ⟨hsafe, hnb, hb.keeps n hn hpresent, hmem⟩
  have hscan : ∀ todo out, w.state.phase = .rescanning todo out →
      ∀ n, safeModuleName n = true → n ∉ builtinMerges → ModulePresent w'.operator.disk n →
        n ++ wasmSuffix ∈ todo ∨ n ∈ out := by
    intro todo out hphase n hsafe hnb hpresent
    exact h.scan todo out hphase n hsafe hnb (hb.settled todo out hphase n hpresent)
  cases hstep with
  | control o ho hdisk => exact ⟨(h.operator.step ho).1, h.fallback, hserved, hscan⟩
  | commit op k a d hjob hop =>
      exact ⟨(h.operator.step (.op _ op k a d hjob hop)).1, h.fallback, hserved, hscan⟩
  | gateway s hs => exact h.gatewayStep hload hs

theorem LiveInv.init : LiveInv LiveWorld.init := by
  refine ⟨WorldInv.init, rfl, ?_, fun _ _ hp => by cases hp⟩
  intro n hn
  cases hn

/-- With modules that all load: in every run that never removes a module from under the served
routes, and in which no module appears during a rescan, every read finds its merge registered. -/
theorem live_routes_registered (hload : ∀ n b, (load n b).isSome) (w : LiveWorld)
    (hrun : Relation.ReflTransGen (fun w w' => LiveStep load L w w' ∧ Benign w w') LiveWorld.init w) :
    ∀ n ∈ servedMerges w.state, ∀ es, (applyMerge w.state.table n es).isSome := by
  have hinv : LiveInv w := by
    induction hrun with
    | refl => exact LiveInv.init
    | tail _ hstep ih => exact ih.step hload hstep.1 hstep.2
  intro n hn es
  exact (hinv.served n hn).applyMerge es

end proofs

/-! ### Concrete runs -/

/-- The notifications of a job that runs to its end without a failure. -/
def jobEvents : Prog FS Outcome → Disk → List Event
  | .ret _, _ => []
  | .call op k, d => eventsOf op ++ jobEvents (k (exec op d).1) (exec op d).2

/-- A loader that accepts everything. -/
def loadsAll (_ _ : Bytes) : Option Merge := some firstHit

/-- A job that runs to its end while the gateway does nothing. -/
theorem live_run {R : LiveWorld → LiveWorld → Prop} (s : State)
    (hR : ∀ w w', LiveStep loadsAll .least w w' → w.state.phase = s.phase →
      w.state.gateway = s.gateway → R w w') (started : List Snapshot) (p : Prog FS Outcome)
    (d : Disk) (q : List Event) :
    Relation.ReflTransGen R ⟨⟨started, d, some p⟩, { s with queue := q }⟩
      ⟨⟨started, (p.run exec d).2, none⟩, { s with queue := q ++ jobEvents p d }⟩ := by
  induction p generalizing d q with
  | ret o =>
      rw [jobEvents, List.append_nil]
      exact .single (hR _ _ (.control _ _ (.finish _ o rfl) rfl) rfl rfl)
  | call op k ih =>
      rw [jobEvents, ← List.append_assoc]
      exact .head (hR _ _ (.commit _ op k _ _ rfl (.ok op d)) rfl rfl) (ih _ _ _)

/-- A pool with one keyspace that merges through a module. -/
def routedSnapshot : Snapshot :=
  ⟨[⟨ascii "a", ⟨[ascii "h:1"], [], []⟩⟩], [inlineKeyspace (ascii "k")]⟩

/-- The same pool without the keyspace. -/
def unroutedSnapshot : Snapshot := ⟨[⟨ascii "a", ⟨[ascii "h:1"], [], []⟩⟩], []⟩

/-- The mount after a fault-free commit of `s` on `d`. -/
def committed (s : Snapshot) (d : Disk) : Disk := ((commit (render s).1).run exec d).2

/-- From the empty mount, the gateway comes to serve `routedSnapshot`, each step changing the disk
only while nothing is served. -/
theorem exists_served {R : LiveWorld → LiveWorld → Prop}
    (hR : ∀ w w', LiveStep loadsAll .least w w' →
      (w.state.phase = .idle ∧ w.state.gateway = .init) ∨ w'.operator = w.operator → R w w') :
    ∃ table gateway, Relation.ReflTransGen R LiveWorld.init
      ⟨⟨[routedSnapshot], committed routedSnapshot ∅, none⟩, ⟨[], .idle, false, table, gateway⟩⟩ ∧
      gateway.config.map mergeNames = some [ascii "udf1"] := by
  have hrun := live_run LiveWorld.init.state (fun w w' h hp hg => hR w w' h (Or.inl ⟨hp, hg⟩))
    [routedSnapshot] (commit (render routedSnapshot).1) ∅ []
  have hq : [] ++ jobEvents (commit (render routedSnapshot).1) ∅ =
      [[.udfEntry (ascii "udf1.wasm.tmp")],
        [.udfEntry (ascii "udf1.wasm.tmp"), .udfEntry (ascii "udf1.wasm")],
        [.other], [.other, .config]] := by
    decide +kernel
  rw [hq] at hrun
  have hgw : ∀ (o : Operator.World) (s s' : State), GatewayStep loadsAll literalFile .least
      (mountOf o.disk) s s' → R ⟨o, s⟩ ⟨o, s'⟩ :=
    fun o s s' h => hR _ _ (.gateway ⟨o, s⟩ s' h) (Or.inr rfl)
  have htodo : [ascii "udf1.wasm"].Perm (mountOf (committed routedSnapshot ∅)).udf.keys := by
    have e : (mountOf (committed routedSnapshot ∅)).udf.keys = [ascii "udf1.wasm"] := by
      decide +kernel
    rw [e]
  refine ⟨_, _, .head (hR _ _ (.control _ _ (.start _ routedSnapshot rfl) rfl) (Or.inl ⟨rfl, rfl⟩)) <|
    hrun.trans <| .head (hgw _ _ _ (.receive _ _ _ rfl rfl)) <| .head (hgw _ _ _ (.absorb _ _ _ _ _ rfl rfl)) <|
    .head (hgw _ _ _ (.absorb _ _ _ _ _ rfl rfl)) <| .head (hgw _ _ _ (.absorb _ _ _ _ _ rfl rfl)) <|
    .head (hgw _ _ _ (.closeRescan _ _ _ rfl htodo)) <| .head (hgw _ _ _ (.visit _ _ _ _ rfl)) <|
    .head (hgw _ _ _ (.swap _ _ rfl)) <| .head (hgw _ _ _ (.request _ rfl)) <|
    .head (hgw _ _ _ (.reload _ rfl)) .refl, ?_⟩
  decide +kernel

theorem live_routes_registered_routed :
    ∃ w : LiveWorld, ascii "udf1" ∈ servedMerges w.state ∧
      ∀ n ∈ servedMerges w.state, ∀ es, (applyMerge w.state.table n es).isSome := by
  have hbenign : ∀ w w', LiveStep loadsAll .least w w' →
      (w.state.phase = .idle ∧ w.state.gateway = .init) ∨ w'.operator = w.operator →
      LiveStep loadsAll .least w w' ∧ Benign w w' := by
    intro w w' hstep h
    refine ⟨hstep, ?_⟩
    rcases h with ⟨hphase, hg⟩ | h
    · refine ⟨fun n hn => ?_, fun todo out hp => ?_⟩
      · rw [servedMerges, hg] at hn
        cases hn
      · rw [hphase] at hp
        cases hp
    · exact ⟨fun n _ => by rw [h]; exact id, fun _ _ _ n => by rw [h]; exact id⟩
  obtain ⟨table, gateway, hrun, hserved⟩ := exists_served hbenign
  refine ⟨_, ?_, live_routes_registered (fun _ _ => rfl) _ hrun⟩
  rw [servedMerges, hserved]
  exact List.mem_singleton_self _

/-- Without any failure, a read on routes that are still being served finds its merge gone: the
module was removed, and the table swapped, before the requested reload has run. -/
theorem removed_under_live_routes :
    ∃ w : LiveWorld, Relation.ReflTransGen (LiveStep loadsAll .least) LiveWorld.init w ∧
      ∃ n ∈ servedMerges w.state, ∀ es, applyMerge w.state.table n es = none := by
  obtain ⟨table, gateway, hrun, hserved⟩ := exists_served fun _ _ h _ => h
  have hjob := live_run ⟨[], .idle, false, table, gateway⟩ (fun _ _ h _ _ => h)
    [unroutedSnapshot, routedSnapshot] (commit (render unroutedSnapshot).1)
    (committed routedSnapshot ∅) []
  have hq : [] ++ jobEvents (commit (render unroutedSnapshot).1) (committed routedSnapshot ∅) =
      [[.other], [.other, .config], [.udfEntry (ascii "udf1.wasm")]] := by
    decide +kernel
  rw [hq] at hjob
  have htodo : [].Perm (mountOf (committed unroutedSnapshot (committed routedSnapshot ∅))).udf.keys := by
    have e : (mountOf (committed unroutedSnapshot (committed routedSnapshot ∅))).udf.keys = [] := by
      decide +kernel
    rw [e]
  refine ⟨_, hrun.trans <| .head (.control _ _ (.start _ unroutedSnapshot rfl) rfl) <| hjob.trans <|
    .head (.gateway _ _ (.receive _ _ _ rfl rfl)) <| .head (.gateway _ _ (.absorb _ _ _ _ _ rfl rfl)) <|
    .head (.gateway _ _ (.absorb _ _ _ _ _ rfl rfl)) <|
    .head (.gateway _ _ (.closeRescan _ _ _ rfl htodo)) <|
    .head (.gateway _ _ (.swap _ _ rfl)) .refl, ascii "udf1", ?_, ?_⟩
  · rw [servedMerges, hserved]
    exact List.mem_singleton_self _
  · intro es
    rw [← Option.not_isSome_iff_eq_none, isSome_applyMerge, not_or]
    exact ⟨by decide +kernel, AList.notMem_empty _⟩

end McGateway.Live
