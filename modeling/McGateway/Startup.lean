import McGateway.Watcher

/-! # Startup (`init_shared`, the arming of the watches in `spawn`)

Startup scans the UDF directory and publishes the table, and only then arms the watches: first the
one of the configuration's directory, then the one of the UDF directory.  A change made before a
watch is armed enqueues nothing.

`startup_converges` says which changes that order can afford: before the UDF watch is armed, only
those of modules the scan has yet to reach.  With no other change in the gap, the table agrees with
the directory whenever the watcher is idle later on. -/

namespace McGateway.Watcher

open McGateway.Core
open Config (Chunk)
open Bytes (ascii)
open Lua (LengthOp)

/-! ### Stages -/

/-- A change of the mount. -/
inductive Change where
  | config (content : Option Bytes)
  | write (file data : Bytes)
  | remove (file : Bytes)
deriving DecidableEq

def Mount.change (m : Mount) : Change → Mount
  | .config content => { m with config := content }
  | .write file data => { m with udf := m.udf.insert file data }
  | .remove file => { m with udf := m.udf.erase file }

/-- The entry of the UDF directory that changes. -/
def Change.entry : Change → Option Bytes
  | .config _ => none
  | .write file _ => some file
  | .remove file => some file

/-- What the watch of the configuration's directory reports. -/
def Change.configEvents : Change → List Event
  | .config _ => [[.config]]
  | _ => []

/-- How far startup has come. -/
inductive Startup where
  | starting (m : Mount)
  /-- The directory is listed; the files left to visit and the table so far. -/
  | scanning (m : Mount) (todo : List Bytes) (out : WasmTable)
  /-- The table is published, and no watch is armed. -/
  | published (m : Mount) (table : WasmTable)
  | configWatched (m : Mount) (table : WasmTable) (queue : List Event)
  | running (w : World)

section
variable (load : Bytes → Bytes → Option Merge) (loadfile : Option Bytes → Chunk) (L : LengthOp)

/-- A step of startup or of the process it starts; the label is the change of the mount, if the
step is one made before the process runs. -/
inductive StartupStep : Startup → Option Change → Startup → Prop where
  | list (m : Mount) (todo : List Bytes) (htodo : todo.Perm m.udf.keys) :
      StartupStep (.starting m) none (.scanning m todo ∅)
  | visit (m : Mount) (file : Bytes) (todo : List Bytes) (out : WasmTable) :
      StartupStep (.scanning m (file :: todo) out) none
        (.scanning m todo (scanStep load out file (m.udf.lookup file)))
  | swap (m : Mount) (out : WasmTable) : StartupStep (.scanning m [] out) none (.published m out)
  | watchConfig (m : Mount) (table : WasmTable) :
      StartupStep (.published m table) none (.configWatched m table [])
  /-- The watcher's thread starts idle, with the initial load of the configuration still to come. -/
  | watchUdf (m : Mount) (table : WasmTable) (queue : List Event) :
      StartupStep (.configWatched m table queue) none (.running ⟨m, ⟨queue, .idle, true, table, .init⟩⟩)
  | changeStarting (m : Mount) (c : Change) :
      StartupStep (.starting m) (some c) (.starting (m.change c))
  | changeScanning (m : Mount) (todo : List Bytes) (out : WasmTable) (c : Change) :
      StartupStep (.scanning m todo out) (some c) (.scanning (m.change c) todo out)
  | changePublished (m : Mount) (table : WasmTable) (c : Change) :
      StartupStep (.published m table) (some c) (.published (m.change c) table)
  | changeConfigWatched (m : Mount) (table : WasmTable) (queue : List Event) (c : Change) :
      StartupStep (.configWatched m table queue) (some c)
        (.configWatched (m.change c) table (queue ++ c.configEvents))
  /-- The first watch may report more, for instance if both files live in one directory. -/
  | notify (m : Mount) (table : WasmTable) (queue : List Event) (ev : Event) :
      StartupStep (.configWatched m table queue) none (.configWatched m table (queue ++ [ev]))
  | run (w w' : World) (h : Step load loadfile L w w') : StartupStep (.running w) none (.running w')

/-- A change that the order of startup can afford. -/
def Covered : Startup → Option Change → Prop
  | .scanning _ todo _, some c => ∀ file, c.entry = some file → wasmStem file = none ∨ file ∈ todo
  | .published _ _, some c => ∀ file, c.entry = some file → wasmStem file = none
  | .configWatched _ _ _, some c => ∀ file, c.entry = some file → wasmStem file = none
  | _, _ => True

/-- A step that makes no other change. -/
def CoveredStep (s s' : Startup) : Prop := ∃ l, StartupStep load loadfile L s l s' ∧ Covered s l

/-! ### The invariant -/

/-- A file the scan has visited is registered as it is now. -/
structure Visited (dir : ByteMap Bytes) (todo : List Bytes) (out : WasmTable) : Prop where
  nodup : todo.Nodup
  left : ∀ n, n ++ ascii ".wasm" ∈ todo → out.lookup n = none
  done : ∀ n, n ++ ascii ".wasm" ∉ todo → out.lookup n = scanned load dir n

def StartupInv : Startup → Prop
  | .starting _ => True
  | .scanning m todo out => Visited load m.udf todo out
  | .published m table => ∀ n, table.lookup n = scanned load m.udf n
  | .configWatched m table _ => ∀ n, table.lookup n = scanned load m.udf n
  | .running w => Inv load loadfile L w

end

section proofs
variable {load : Bytes → Bytes → Option Merge} {loadfile : Option Bytes → Chunk} {L : LengthOp}

theorem Visited.init {dir : ByteMap Bytes} {todo : List Bytes} (h : todo.Perm dir.keys) :
    Visited load dir todo ∅ := by
  refine ⟨h.nodup_iff.mpr dir.keys_nodup, fun n _ => rfl, ?_⟩
  intro n hn
  have hnone : dir.lookup (n ++ ascii ".wasm") = none :=
    AList.lookup_eq_none.mpr fun hmem => hn (h.mem_iff.mpr (AList.mem_keys.mp hmem))
  simp [scanned, hnone]

theorem Visited.step {dir : ByteMap Bytes} {file : Bytes} {todo : List Bytes} {out : WasmTable}
    (h : Visited load dir (file :: todo) out) :
    Visited load dir todo (scanStep load out file (dir.lookup file)) := by
  obtain ⟨hfile, hnodup⟩ := List.nodup_cons.mp h.nodup
  -- a file still to visit is not the one visited now
  have hkeep : ∀ n, n ++ ascii ".wasm" ≠ file →
      (scanStep load out file (dir.lookup file)).lookup n = out.lookup n := by
    intro n hn
    rw [lookup_scanStep, if_neg]
    intro hc
    exact hn (wasmStem_eq_some.mp hc.1).2.symm
  refine ⟨hnodup, ?_, ?_⟩
  · intro n hn
    rw [hkeep n fun he => hfile (he ▸ hn)]
    exact h.left n (List.mem_cons_of_mem _ hn)
  · intro n hn
    by_cases he : n ++ ascii ".wasm" = file
    · subst he
      have hnone := h.left n List.mem_cons_self
      rw [lookup_scanStep, hnone]
      unfold scanned
      by_cases hne : n = []
      · subst hne
        rfl
      · simp [wasmStem_eq_some.mpr ⟨hne, rfl⟩, hne]
    · rw [hkeep n he]
      apply h.done
      simp [he, hn]

/-- A scan does not see a change of anything but a module. -/
theorem Mount.scanned_change {m : Mount} {c : Change} {n : Bytes}
    (h : ∀ file, c.entry = some file → wasmStem file = none ∨ file ≠ n ++ ascii ".wasm") :
    scanned load (m.change c).udf n = scanned load m.udf n := by
  have hentry : ∀ {dir : ByteMap Bytes} {file : Bytes},
      (∀ f, f ≠ file → dir.lookup f = m.udf.lookup f) →
      wasmStem file = none ∨ file ≠ n ++ ascii ".wasm" → scanned load dir n = scanned load m.udf n := by
    intro dir file hdir hfile
    cases hfile with
    | inl hnone => exact scanned_congr hnone hdir n
    | inr hne =>
        unfold scanned
        rw [hdir _ hne.symm]
  cases c with
  | config content => rfl
  | write file data => exact hentry (fun f hf => AList.lookup_insert_ne hf) (h file rfl)
  | remove file => exact hentry (fun f hf => AList.lookup_erase_ne hf) (h file rfl)

theorem Visited.change {m : Mount} {todo : List Bytes} {out : WasmTable} {c : Change}
    (hc : ∀ file, c.entry = some file → wasmStem file = none ∨ file ∈ todo)
    (h : Visited load m.udf todo out) : Visited load (m.change c).udf todo out := by
  refine ⟨h.nodup, h.left, ?_⟩
  intro n hn
  rw [h.done n hn, Mount.scanned_change]
  intro file hfile
  apply (hc file hfile).imp_right
  intro hmem he
  exact hn (he ▸ hmem)

theorem StartupInv.step {s s' : Startup} {l : Option Change}
    (hstep : StartupStep load loadfile L s l s') (hl : Covered s l) (h : StartupInv load loadfile L s) :
    StartupInv load loadfile L s' := by
  cases hstep with
  | list m todo htodo => exact Visited.init htodo
  | visit m file todo out => exact Visited.step h
  | swap m out => exact fun n => h.done n List.not_mem_nil
  | watchConfig m table => exact h
  | watchUdf m table queue => exact ⟨Or.inr h, Or.inl (by simp [ReloadDue])⟩
  | changeStarting m c => trivial
  | changeScanning m todo out c => exact Visited.change hl h
  | changePublished m table c | changeConfigWatched m table queue c =>
      intro n
      rw [Mount.scanned_change fun file hfile => Or.inl (hl file hfile)]
      exact h n
  | notify m table queue ev => exact h
  | run w w' hw => exact Inv.step hw h

theorem StartupInv.steps {s s' : Startup}
    (hsteps : Relation.ReflTransGen (CoveredStep load loadfile L) s s')
    (h : StartupInv load loadfile L s) : StartupInv load loadfile L s' := by
  induction hsteps with
  | refl => exact h
  | tail _ hstep ih =>
      obtain ⟨l, hstep, hl⟩ := hstep
      exact ih.step hstep hl

/-- When every change made before the UDF watch is armed is one the order of startup can afford,
the table is a scan of the directory in every later state with no queued event and no open batch. -/
theorem startup_converges (m : Mount) (w : World)
    (hrun : Relation.ReflTransGen (CoveredStep load loadfile L) (.starting m) (.running w))
    (hqueue : w.state.queue = []) (hphase : w.state.phase = .idle) (n : Bytes) :
    w.state.table.lookup n = (scanDir load w.mount.udf).lookup n := by
  have hstart : StartupInv load loadfile L (.starting m) := trivial
  have htable := Inv.table (hstart.steps hrun)
  simp only [UdfDirty, TableOk, hqueue, hphase, Phase.udfDirty, List.any_nil, Bool.or_self,
    Bool.false_eq_true, false_or] at htable
  rw [htable n, lookup_scanDir]

end proofs

/-! ### A module that arrives in the gap -/

/-- A run in which the module arrives while the directory is being scanned, replacing a file that
the scan has yet to visit. -/
theorem startup_converges_during_scan :
    ∃ w : World, w.mount.udf.lookup (ascii "m.wasm") = some [1] ∧
      w.state.table.lookup (ascii "m") =
        (scanDir (fun _ _ => some firstHit) w.mount.udf).lookup (ascii "m") := by
  let load : Bytes → Bytes → Option Merge := fun _ _ => some firstHit
  have hrun : ∃ w, Relation.ReflTransGen (CoveredStep load needsModule .least)
      (.starting ⟨none, AList.singleton (ascii "m.wasm") []⟩) (.running w) ∧
      w.state.queue = [] ∧ w.state.phase = .idle ∧
      w.mount.udf.lookup (ascii "m.wasm") = some [1] := by
    refine ⟨_, .head ⟨none, .list _ _ (.refl _), trivial⟩ <|
      .head ⟨some (.write (ascii "m.wasm") [1]), .changeScanning _ _ _ _, ?_⟩ <|
      .head ⟨none, .visit _ _ _ _, trivial⟩ <| .head ⟨none, .swap _ _, trivial⟩ <|
      .head ⟨none, .watchConfig _ _, trivial⟩ <| .single ⟨none, .watchUdf _ _ _, trivial⟩,
      rfl, rfl, by decide +kernel⟩
    intro file hfile
    cases hfile
    exact Or.inr (by decide +kernel)
  obtain ⟨w, hrun, hqueue, hphase, hfile⟩ := hrun
  exact ⟨w, hfile, startup_converges _ w hrun hqueue hphase _⟩

/-- A module renamed into place between the scan and the arming of the watch is lost: the process
is idle, and nothing is queued that would make it look again. -/
theorem startup_loses_module :
    ∃ w : World, Relation.ReflTransGen
      (fun s s' => ∃ l, StartupStep (fun _ _ => some firstHit) needsModule .least s l s')
      (.starting ⟨none, ∅⟩) (.running w) ∧
      w.state.queue = [] ∧ w.state.phase = .idle ∧
      w.state.table.lookup (ascii "m") = none ∧
      ((scanDir (fun _ _ => some firstHit) w.mount.udf).lookup (ascii "m")).isSome := by
  refine ⟨_, .head ⟨none, .list _ _ (.refl _)⟩ <| .head ⟨none, .swap _ _⟩ <|
    .head ⟨some (.write (ascii "m.wasm") [1]), .changePublished _ _ _⟩ <|
    .head ⟨none, .watchConfig _ _⟩ <| .single ⟨none, .watchUdf _ _ _⟩, rfl, rfl, rfl, ?_⟩
  decide +kernel

end McGateway.Watcher
