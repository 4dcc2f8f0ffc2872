import McGateway.Registry
import McGateway.Reload

/-! # Live reload (`watcher.rs`, `rescan_into`, `load_config`)

The gateway process watches `config.lua` and the UDF directory.  One thread collects change
notifications into batches; a batch that touched the UDF directory rescans it, file by file,
publishes the new table and then asks for a reload; a batch that touched only the configuration
asks for a reload at once.  A requested reload runs later, on another thread: it reads the current
configuration and validates it against the registry of that moment.

`GatewayStep` has one constructor per step of these threads, on a mount that others change
meanwhile.  `live_reload_converges` says that no change is lost: when nothing is queued, batched
or requested, the table is a scan of the directory and a configuration that validates is being
served. -/

namespace McGateway.Watcher

open McGateway.Core
open Config (Gateway Chunk loadConfig)
open Bytes (ascii)
open Lua (LengthOp)

/-! ### Notifications -/

/-- The paths the debounce loop can tell apart. -/
inductive WatchPath where
  | config
  | udfDir
  | udfEntry (file : Bytes)
  | other
deriving DecidableEq, Repr

/-- A notification carries a list of paths. -/
abbrev Event := List WatchPath

def touchesConfig (ev : Event) : Bool := ev.any fun p => p == .config

def touchesUdf (ev : Event) : Bool :=
  ev.any fun p =>
    match p with
    | .udfDir => true
    | .udfEntry file => (wasmStem file).isSome
    | _ => false

/-! ### State -/

/-- What the gateway reads: the configuration file and the entries of the UDF directory. -/
structure Mount where
  config : Option Bytes
  udf : ByteMap Bytes

/-- Where the watcher thread is. -/
inductive Phase where
  /-- Waiting for the first event of a batch. -/
  | idle
  /-- Collecting a batch. -/
  | batch (configDirty udfDirty : Bool)
  /-- Scanning the directory, with the files left to visit and the table so far. -/
  | rescanning (todo : List Bytes) (out : WasmTable)
  /-- About to request a reload. -/
  | requesting

structure State where
  queue : List Event
  phase : Phase
  pending : Bool
  table : WasmTable
  gateway : Gateway

section
variable (load : Bytes → Bytes → Option Merge) (loadfile : Option Bytes → Chunk) (L : LengthOp)

/-- A reload, as far as the configuration goes. -/
def reload (m : Mount) (s : State) : Gateway :=
  (loadConfig L (nativeRequiredFlags s.table) (loadfile m.config) s.gateway).1

/-- A step of the gateway process on the mount `m`. -/
inductive GatewayStep (m : Mount) : State → State → Prop where
  | receive (s : State) (ev : Event) (q : List Event) (hphase : s.phase = .idle)
      (hq : s.queue = ev :: q) :
      GatewayStep m s { s with queue := q, phase := .batch (touchesConfig ev) (touchesUdf ev) }
  | absorb (s : State) (c u : Bool) (ev : Event) (q : List Event) (hphase : s.phase = .batch c u)
      (hq : s.queue = ev :: q) :
      GatewayStep m s
        { s with queue := q, phase := .batch (c || touchesConfig ev) (u || touchesUdf ev) }
  | closeRescan (s : State) (c : Bool) (todo : List Bytes) (hphase : s.phase = .batch c true)
      (htodo : todo.Perm m.udf.keys) : GatewayStep m s { s with phase := .rescanning todo ∅ }
  | closeConfig (s : State) (hphase : s.phase = .batch true false) :
      GatewayStep m s { s with phase := .requesting }
  | closeClean (s : State) (hphase : s.phase = .batch false false) :
      GatewayStep m s { s with phase := .idle }
  | visit (s : State) (file : Bytes) (todo : List Bytes) (out : WasmTable)
      (hphase : s.phase = .rescanning (file :: todo) out) :
      GatewayStep m s
        { s with phase := .rescanning todo (scanStep load out file (m.udf.lookup file)) }
  | swap (s : State) (out : WasmTable) (hphase : s.phase = .rescanning [] out) :
      GatewayStep m s { s with phase := .requesting, table := out }
  | request (s : State) (hphase : s.phase = .requesting) :
      GatewayStep m s { s with phase := .idle, pending := true }
  | reload (s : State) (hpending : s.pending = true) :
      GatewayStep m s { s with pending := false, gateway := reload loadfile L m s }
  /-- A notification that reports no change (an access, a temp file). -/
  | notify (s : State) (ev : Event) : GatewayStep m s { s with queue := s.queue ++ [ev] }

/-- The mount with the process that watches it. -/
structure World where
  mount : Mount
  state : State

/-- A change of the mount, with its notification, or a step of the gateway. -/
inductive Step : World → World → Prop where
  | writeConfig (w : World) (content : Option Bytes) :
      Step w ⟨{ w.mount with config := content },
        { w.state with queue := w.state.queue ++ [[.config]] }⟩
  | writeEntry (w : World) (file data : Bytes) :
      Step w ⟨{ w.mount with udf := w.mount.udf.insert file data },
        { w.state with queue := w.state.queue ++ [[.udfEntry file]] }⟩
  | removeEntry (w : World) (file : Bytes) :
      Step w ⟨{ w.mount with udf := w.mount.udf.erase file },
        { w.state with queue := w.state.queue ++ [[.udfEntry file]] }⟩
  | gateway (w : World) (s : State) (h : GatewayStep load loadfile L w.mount w.state s) :
      Step w { w with state := s }

/-! ### The invariant -/

/-- The batch in progress will rescan. -/
def Phase.udfDirty : Phase → Bool
  | .batch _ u => u
  | _ => false

/-- The thread will request a reload without a further notification. -/
def Phase.reloadDue : Phase → Bool
  | .idle => false
  | .batch c u => c || u
  | .rescanning _ _ => true
  | .requesting => true

/-- A rescan is due. -/
def UdfDirty (s : State) : Bool := s.queue.any touchesUdf || s.phase.udfDirty

/-- A reload is due. -/
def ReloadDue (s : State) : Bool :=
  s.queue.any (fun ev => touchesConfig ev || touchesUdf ev) || s.phase.reloadDue || s.pending

/-- The configuration on disk, if it validates against the table, is being served. -/
def Serving (m : Mount) (s : State) : Prop :=
  ∀ cfg, Config.load L (nativeRequiredFlags s.table) (loadfile m.config) = .ok cfg →
    s.gateway.config = some cfg

/-- The table, or the one being built, agrees with the directory. -/
def TableOk (dir : ByteMap Bytes) (s : State) : Prop :=
  match s.phase with
  | .rescanning todo out => ScanInv load dir todo out
  | _ => ∀ n, s.table.lookup n = scanned load dir n

structure Inv (w : World) : Prop where
  table : UdfDirty w.state = true ∨ TableOk load w.mount.udf w.state
  serving : ReloadDue w.state = true ∨ Serving loadfile L w.mount w.state

end

section proofs
variable {load : Bytes → Bytes → Option Merge} {loadfile : Option Bytes → Chunk} {L : LengthOp}

/-- Entries without the extension do not matter to a scan. -/
theorem scanned_congr {dir dir' : ByteMap Bytes} {file : Bytes} (hs : wasmStem file = none)
    (h : ∀ f, f ≠ file → dir'.lookup f = dir.lookup f) (n : Bytes) :
    scanned load dir' n = scanned load dir n := by
  unfold scanned
  by_cases hn : n = []
  · simp [hn]
  · have hne : n ++ ascii ".wasm" ≠ file := by
      rintro rfl
      rw [wasmStem_eq_some.mpr ⟨hn, rfl⟩] at hs
      cases hs
    rw [h _ hne]

theorem TableOk.congr {dir dir' : ByteMap Bytes} {s s' : State}
    (hscan : ∀ n, scanned load dir' n = scanned load dir n) (hphase : s'.phase = s.phase)
    (htable : s'.table = s.table) (h : TableOk load dir s) : TableOk load dir' s' := by
  unfold TableOk ScanInv at h ⊢
  rw [hphase, htable]
  simp only [hscan]
  exact h

theorem udfDirty_append {s : State} (ev : Event) (h : UdfDirty s = true) :
    UdfDirty { s with queue := s.queue ++ [ev] } = true := by
  simp only [UdfDirty, List.any_append, Bool.or_eq_true] at h ⊢
  tauto

theorem reloadDue_append {s : State} (ev : Event) (h : ReloadDue s = true) :
    ReloadDue { s with queue := s.queue ++ [ev] } = true := by
  simp only [ReloadDue, List.any_append, Bool.or_eq_true] at h ⊢
  tauto

/-- A change of an entry, with its notification, keeps the invariant. -/
theorem Inv.entry {w : World} (h : Inv load loadfile L w) (file : Bytes) (dir : ByteMap Bytes)
    (hdir : ∀ f, f ≠ file → dir.lookup f = w.mount.udf.lookup f) :
    Inv load loadfile L ⟨{ w.mount with udf := dir },
      { w.state with queue := w.state.queue ++ [[.udfEntry file]] }⟩ := by
  cases hs : wasmStem file with
  | some name => exact ⟨Or.inl (by simp [UdfDirty, touchesUdf, hs]),
      Or.inl (by simp [ReloadDue, touchesUdf, hs])⟩
  | none =>
      constructor
      · rcases h.table with hd | ht
        · exact Or.inl (udfDirty_append _ hd)
        · exact Or.inr (ht.congr (scanned_congr hs hdir) rfl rfl)
      · exact h.serving.imp (reloadDue_append _) id

theorem Inv.config {w : World} (h : Inv load loadfile L w) (content : Option Bytes) :
    Inv load loadfile L ⟨{ w.mount with config := content },
      { w.state with queue := w.state.queue ++ [[.config]] }⟩ := by
  constructor
  · exact h.table.imp (udfDirty_append _) id
  · exact Or.inl (by simp [ReloadDue, touchesConfig])

/-- A step of the gateway keeps the table in agreement, or a rescan due. -/
theorem GatewayStep.table {m : Mount} {s s' : State} (hstep : GatewayStep load loadfile L m s s')
    (h : UdfDirty s = true ∨ TableOk load m.udf s) : UdfDirty s' = true ∨ TableOk load m.udf s' := by
  cases hstep with
  | receive ev q hphase hq =>
      apply h.imp
      · simp only [UdfDirty, hphase, hq, Phase.udfDirty, List.any_cons, Bool.or_eq_true]
        tauto
      · simp only [TableOk, hphase]
        exact id
  | absorb c u ev q hphase hq =>
      apply h.imp
      · simp only [UdfDirty, hphase, hq, Phase.udfDirty, List.any_cons, Bool.or_eq_true]
        tauto
      · simp only [TableOk, hphase]
        exact id
  | closeRescan c todo hphase htodo =>
      right
      exact ScanInv.init fun file hfile => htodo.mem_iff.mpr (AList.mem_keys.mp hfile)
  | closeConfig hphase | closeClean hphase | request hphase =>
      simpa only [UdfDirty, TableOk, hphase, Phase.udfDirty] using h
  | visit file todo out hphase =>
      apply h.imp
      · simp only [UdfDirty, hphase, Phase.udfDirty]
        exact id
      · simp only [TableOk, hphase]
        exact ScanInv.step
  | swap out hphase =>
      apply h.imp
      · simp only [UdfDirty, hphase, Phase.udfDirty]
        exact id
      · simp only [TableOk, hphase]
        exact ScanInv.done
  | reload hpending => exact h
  | notify ev => exact h.imp (udfDirty_append _) id

/-- A reload serves the configuration on disk if it validates. -/
theorem serving_reload (m : Mount) (s : State) :
    Serving loadfile L m { s with pending := false, gateway := reload loadfile L m s } := by
  intro cfg hcfg
  simp only [reload, loadConfig] at hcfg ⊢
  rw [hcfg]

/-- A step of the gateway keeps the configuration on disk served, or a reload due. -/
theorem GatewayStep.serving {m : Mount} {s s' : State} (hstep : GatewayStep load loadfile L m s s')
    (h : ReloadDue s = true ∨ Serving loadfile L m s) :
    ReloadDue s' = true ∨ Serving loadfile L m s' := by
  cases hstep with
  | receive ev q hphase hq =>
      apply h.imp
      · simp only [ReloadDue, hphase, hq, Phase.reloadDue, List.any_cons, Bool.or_eq_true]
        tauto
      · exact id
  | absorb c u ev q hphase hq =>
      apply h.imp
      · simp only [ReloadDue, hphase, hq, Phase.reloadDue, List.any_cons, Bool.or_eq_true]
        tauto
      · exact id
  | closeRescan c todo hphase htodo => exact Or.inl (by simp [ReloadDue, Phase.reloadDue])
  | closeConfig hphase => exact Or.inl (by simp [ReloadDue, Phase.reloadDue])
  | closeClean hphase =>
      apply h.imp
      · simp only [ReloadDue, hphase, Phase.reloadDue]
        exact id
      · exact id
  | visit file todo out hphase => exact Or.inl (by simp [ReloadDue, Phase.reloadDue])
  | swap out hphase => exact Or.inl (by simp [ReloadDue, Phase.reloadDue])
  | request hphase => exact Or.inl (by simp [ReloadDue])
  | reload hpending => exact Or.inr (serving_reload m s)
  | notify ev => exact h.imp (reloadDue_append _) id

theorem Inv.step {w w' : World} (hstep : Step load loadfile L w w') (h : Inv load loadfile L w) :
    Inv load loadfile L w' := by
  cases hstep with
  | writeConfig content => exact h.config content
  | writeEntry file data => exact h.entry file _ fun f hf => AList.lookup_insert_ne hf
  | removeEntry file => exact h.entry file _ fun f hf => AList.lookup_erase_ne hf
  | gateway s hs => exact ⟨hs.table h.table, hs.serving h.serving⟩

theorem Inv.steps {w w' : World} (hsteps : Relation.ReflTransGen (Step load loadfile L) w w')
    (h : Inv load loadfile L w) : Inv load loadfile L w' := by
  induction hsteps with
  | refl => exact h
  | tail _ hstep ih => exact ih.step hstep

/-- The process right after startup: the watches are armed, the table is a scan of the directory,
and the configuration has been loaded or is about to be. -/
structure Armed (load : Bytes → Bytes → Option Merge) (loadfile : Option Bytes → Chunk)
    (L : LengthOp) (w : World) : Prop where
  queue : w.state.queue = []
  phase : w.state.phase = .idle
  table : ∀ n, w.state.table.lookup n = (scanDir load w.mount.udf).lookup n
  serving : w.state.pending = true ∨ Serving loadfile L w.mount w.state

/-- No event is queued, no batch is open, no reload is pending. -/
structure Quiescent (s : State) : Prop where
  queue : s.queue = []
  phase : s.phase = .idle
  pending : s.pending = false

/-- No change is lost: in every quiescent state reached, under every interleaving of changes,
batches, scans and reloads, the table is a scan of the directory, and the configuration on disk is
served if it validates. -/
theorem live_reload_converges (w₀ w : World) (h₀ : Armed load loadfile L w₀)
    (hsteps : Relation.ReflTransGen (Step load loadfile L) w₀ w) (hq : Quiescent w.state) :
    (∀ n, w.state.table.lookup n = (scanDir load w.mount.udf).lookup n) ∧
    ∀ cfg, Config.load L (nativeRequiredFlags w.state.table) (loadfile w.mount.config) = .ok cfg →
      w.state.gateway.config = some cfg := by
  have hinit : Inv load loadfile L w₀ := by
    refine ⟨Or.inr ?_, ?_⟩
    · simp only [TableOk, h₀.phase]
      intro n
      rw [h₀.table n, lookup_scanDir]
    · exact h₀.serving.imp (fun hp => by simp [ReloadDue, hp]) id
  obtain ⟨htable, hserving⟩ := hinit.steps hsteps
  constructor
  · simp only [UdfDirty, TableOk, hq.queue, hq.phase, Phase.udfDirty, List.any_nil, Bool.or_self,
      Bool.false_eq_true, false_or] at htable
    intro n
    rw [htable n, lookup_scanDir]
  · simp only [ReloadDue, hq.queue, hq.phase, hq.pending, Phase.reloadDue, List.any_nil, Bool.or_self,
      Bool.false_eq_true, false_or] at hserving
    exact hserving

end proofs

/-! ### A module that arrives after the configuration that needs it -/

/-- A configuration file whose one keyspace merges through the module `m`. -/
def needsModule : Option Bytes → Chunk
  | some _ => .returns (.table
      [(.str (ascii "pools"), .table [(.int 1, .table [(.str (ascii "name"), .str (ascii "p")),
        (.str (ascii "addrs"), .table [(.int 1, .str (ascii "h:1"))])])]),
       (.str (ascii "keyspaces"), .table [(.int 1, .table [(.str (ascii "prefix"), .str (ascii "x")),
        (.str (ascii "read"), .str (ascii "p")), (.str (ascii "write"), .str (ascii "p")),
        (.str (ascii "merge"), .str (ascii "m"))])])])
  | none => .unloadable []

/-- The configuration is written and found wanting; then its module arrives. -/
theorem live_reload_converges_arrival :
    let load : Bytes → Bytes → Option Merge := fun _ _ => some firstHit
    let step := Step load needsModule .least
    let w₀ : World := ⟨⟨none, ∅⟩, ⟨[], .idle, false, ∅, .init⟩⟩
    let arrived : Mount := ⟨some [], (∅ : ByteMap Bytes).insert (ascii "m.wasm") []⟩
    ∃ w₁ w : World, Armed load needsModule .least w₀ ∧
      Relation.ReflTransGen step w₀ w₁ ∧ w₁.mount = ⟨some [], ∅⟩ ∧ Quiescent w₁.state ∧
      w₁.state.gateway.config = none ∧
      Relation.ReflTransGen step w₁ w ∧ w.mount = arrived ∧ Quiescent w.state ∧
      (∀ n, w.state.table.lookup n = (scanDir load arrived.udf).lookup n) ∧
      w.state.gateway.config.isSome := by
  intro load step w₀ arrived
  have h₀ : Armed load needsModule .least w₀ := by
    refine ⟨rfl, rfl, fun n => rfl, Or.inr ?_⟩
    intro cfg hcfg
    cases hcfg
  let w₁ : World := ⟨⟨some [], ∅⟩, ⟨[], .idle, false, ∅,
    (loadConfig .least (nativeRequiredFlags ∅) (needsModule (some [])) .init).1⟩⟩
  have hwanting : Relation.ReflTransGen step w₀ w₁ :=
    .head (.writeConfig _ (some [])) <| .head (.gateway _ _ (.receive _ _ _ rfl rfl)) <|
      .head (.gateway _ _ (.closeConfig _ rfl)) <| .head (.gateway _ _ (.request _ rfl)) <|
      .head (.gateway _ _ (.reload _ rfl)) .refl
  have hrun : ∃ w, Relation.ReflTransGen step w₁ w ∧ w.mount = arrived ∧ Quiescent w.state ∧
      (Config.load .least (nativeRequiredFlags w.state.table) (needsModule w.mount.config)).toOption.isSome := by
    refine ⟨_, .head (.writeEntry _ (ascii "m.wasm") []) <|
      .head (.gateway _ _ (.receive _ _ _ rfl rfl)) <|
      .head (.gateway _ _ (.closeRescan _ _ _ rfl (.refl _))) <|
      .head (.gateway _ _ (.visit _ _ _ _ rfl)) <| .head (.gateway _ _ (.swap _ _ rfl)) <|
      .head (.gateway _ _ (.request _ rfl)) <| .head (.gateway _ _ (.reload _ rfl)) .refl,
      rfl, ⟨rfl, rfl, rfl⟩, ?_⟩
    decide +kernel
  obtain ⟨w, hsteps, hmount, hq, hload⟩ := hrun
  obtain ⟨htable, hserving⟩ := live_reload_converges w₀ w h₀ (hwanting.trans hsteps) hq
  refine ⟨w₁, w, h₀, hwanting, rfl, ⟨rfl, rfl, rfl⟩, by decide +kernel, hsteps, hmount, hq,
    hmount ▸ htable, ?_⟩
  cases hcfg : Config.load .least (nativeRequiredFlags w.state.table) (needsModule w.mount.config) with
  | error e =>
      rw [hcfg] at hload
      cases hload
  | ok cfg =>
      rw [hserving cfg hcfg]
      rfl

end McGateway.Watcher
