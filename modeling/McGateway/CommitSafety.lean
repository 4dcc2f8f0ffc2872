import McGateway.CommitSteps
import McGateway.RenderValidation

/-! # Histories of commits

A `World` is the mount, the snapshots whose commit has started, and the commit in progress.  A
commit may be cut off before any operation, and every operation may fail; the next one starts from
whatever is left.  `commit_crash_safe` is the safety of every state of every such history: what
the gateway can read is always a complete configuration of some snapshot, with every module it
refers to in place. -/

namespace McGateway.Operator

open Lua Config
open Bytes (ascii hasPrefix hasSuffix sortBy)

/-! ### Rendered trees -/

theorem not_mem_of_safe {n : Bytes} (h : safeModuleName n = true) {c : UInt8}
    (hc : (isAlnum c || c == 95 || c == 45) = false) : c ∉ n := by
  intro hmem
  cases n with
  | nil => cases hmem
  | cons d ds =>
      simp only [safeModuleName, Bool.and_eq_true] at h
      have := List.all_eq_true.mp h.1.1 c hmem
      rw [hc] at this
      cases this

/-- The directory entry of a module. -/
def moduleEntry (n : Bytes) (h : safeModuleName n = true) : Name :=
  ⟨n ++ wasmSuffix, by
    have hslash := not_mem_of_safe h (c := 47) (by decide)
    refine ⟨by simp [wasmSuffix, ascii], ?_, ?_, by simp [hslash, wasmSuffix, ascii]⟩
    all_goals
      intro h
      have := congrArg List.length h
      simp [wasmSuffix, ascii] at this⟩

theorem udfPath_moduleEntry {n : Bytes} (h : safeModuleName n = true) :
    udfPath (moduleEntry n h) = modulePath n := by
  simp [udfPath, moduleEntry, modulePath, wasmSuffix]

theorem nul_not_mem_moduleEntry {n : Bytes} (h : safeModuleName n = true) :
    0 ∉ (moduleEntry n h).1 := by
  have := not_mem_of_safe h (c := 0) (by decide)
  simp [moduleEntry, this, wasmSuffix, ascii]

theorem flatTree_render (s : Snapshot) : FlatTree (render s).1 := by
  refine ⟨mem_render.mpr (Or.inl rfl), ?_⟩
  intro path hpath hc
  rcases mem_render.mp hpath with h | ⟨n, hn, rfl⟩
  · exact absurd h hc
  · have hsafe := (mem_emittedModules hn).1
    exact ⟨moduleEntry n hsafe, nul_not_mem_moduleEntry hsafe, Bytes.hasSuffix_append _ _,
      (udfPath_moduleEntry hsafe).symm⟩

/-! ### The invariant -/

/-- The module `n` is on the mount. -/
def ModulePresent (d : Disk) (n : Bytes) : Prop :=
  ∃ f : Name, 0 ∉ f.1 ∧ f.1 = n ++ wasmSuffix ∧ ∃ data, d.node [udfName, f] = some (.file data)

/-- The merge resolves by name: it is built in or its module is on the mount. -/
def Resolvable (d : Disk) (n : Bytes) : Prop := n ∈ builtinMerges ∨ ModulePresent d n

/-- What holds of the mount in every state of a history of commits of `started`. -/
structure MountInv (started : List Snapshot) (d : Disk) : Prop where
  config : ∀ b, d.node [configName] = some (.file b) → ∃ s ∈ started, b = configBytes s ∧
    ∀ ks ∈ (emittedKeyspaces s).1, Resolvable d (mergeName ks.spec)
  modules : ∀ f b, hasSuffix f.1 wasmSuffix = true → d.node [udfName, f] = some (.file b) →
    ∃ s ∈ started, (render s).1.lookup (udfPath f) = some b

/-- The merges of a snapshot whose modules are in place resolve. -/
theorem resolvable_of_modulesAt {s : Snapshot} {d : Disk}
    (h : ModulesAt (render s).1 (sortedKeys (render s).1) d) :
    ∀ ks ∈ (emittedKeyspaces s).1, Resolvable d (mergeName ks.spec) := by
  intro ks hks
  rcases mergeName_emitted ((emittedKeyspaces_spec s).admissible ks hks) with hb | hm
  · exact Or.inl hb
  · right
    have hsafe := (mem_emittedModules hm).1
    have hmem := modulePath_mem_render.mpr hm
    obtain ⟨data, hdata⟩ := Option.isSome_iff_exists.mp (AList.lookup_isSome.mpr hmem)
    rw [← udfPath_moduleEntry hsafe] at hdata hmem
    have hkey : udfPath (moduleEntry _ hsafe) ∈ sortedKeys (render s).1 :=
      (Bytes.mem_sortBy id).mpr (AList.mem_keys.mp hmem)
    exact ⟨moduleEntry _ hsafe, nul_not_mem_moduleEntry hsafe, rfl, data, h _ data hkey hdata⟩

/-- A commit of `s` keeps every module that resolved, unless its own tree is in place. -/
theorem Resolvable.step {s : Snapshot} {op : FsOp} {d d' : Disk} {n : Bytes}
    (hstep : CommitStep (render s).1 op d d') (h : Resolvable d n) :
    Resolvable d' n ∨ InPlace (render s).1 d' := by
  rcases h with h | ⟨f, h0, hf, data, hdata⟩
  · exact Or.inl (Or.inl h)
  · have hw : hasSuffix f.1 wasmSuffix = true := by
      rw [hf]
      exact Bytes.hasSuffix_append _ _
    rcases hstep.module_cases (flatTree_render s) hw with he | ⟨data', -, he⟩ | ⟨-, -, he⟩
    · exact Or.inl (Or.inr ⟨f, h0, hf, data, he.trans hdata⟩)
    · exact Or.inl (Or.inr ⟨f, h0, hf, data', he⟩)
    · exact Or.inr he

/-- Every step of a commit keeps the invariant. -/
theorem MountInv.step {started : List Snapshot} {s : Snapshot} (hs : s ∈ started) {op : FsOp}
    {d d' : Disk} (hstep : CommitStep (render s).1 op d d') (h : MountInv started d) :
    MountInv started d' := by
  have hflat := flatTree_render s
  constructor
  · intro b hb
    by_cases hplace : InPlace (render s).1 d'
    · have hb' := hplace.config _ (lookup_render_config s)
      rw [hb, Option.some.injEq, Node.file.injEq] at hb'
      exact ⟨s, hs, hb', resolvable_of_modulesAt hplace.modules⟩
    · rcases hstep.config_cases hflat with he | ⟨data, hdata, he, hmodules⟩
      · obtain ⟨s0, hs0, rfl, href⟩ := h.config b (he.symm.trans hb)
        refine ⟨s0, hs0, rfl, fun ks hks => ?_⟩
        exact ((href ks hks).step hstep).resolve_right hplace
      · rw [he, Option.some.injEq, Node.file.injEq] at hb
        rw [lookup_render_config, Option.some.injEq] at hdata
        exact ⟨s, hs, by rw [← hb, hdata], resolvable_of_modulesAt hmodules⟩
  · intro f b hw hb
    rcases hstep.module_cases hflat hw with he | ⟨data, hdata, he⟩ | ⟨he, -, -⟩
    · exact h.modules f b hw (he.symm.trans hb)
    · rw [he, Option.some.injEq, Node.file.injEq] at hb
      exact ⟨s, hs, hb ▸ hdata⟩
    · rw [he] at hb
      cases hb

/-- No step of a commit removes `config.lua`. -/
theorem config_persists {s : Snapshot} {op : FsOp} {d d' : Disk}
    (hstep : CommitStep (render s).1 op d d') (h : (d.contents configFile).isSome) :
    (d'.contents configFile).isSome := by
  obtain ⟨b, hb⟩ := Option.isSome_iff_exists.mp h
  obtain ⟨p, hp, hnode⟩ := contents_eq_some.mp hb
  rw [resolve_configFile, Option.some.injEq] at hp
  subst hp
  rcases hstep.config_cases (flatTree_render s) with he | ⟨data, -, he, -⟩
  · exact Option.isSome_iff_exists.mpr ⟨b, contents_eq_some.mpr ⟨_, resolve_configFile, he.trans hnode⟩⟩
  · exact Option.isSome_iff_exists.mpr ⟨data, contents_eq_some.mpr ⟨_, resolve_configFile, he⟩⟩

/-! ### Histories -/

structure World where
  started : List Snapshot
  disk : Disk
  job : Option (Prog FS Outcome)

/-- The empty mount. -/
def World.init : World := ⟨[], ∅, none⟩

inductive WorldStep : World → World → Prop where
  | start (w : World) (s : Snapshot) (h : w.job = none) :
      WorldStep w { w with started := s :: w.started, job := some (commit (render s).1) }
  | op (w : World) (op : FsOp) (k : op.Answer → Prog FS Outcome) (a : op.Answer) (d : Disk)
      (h : w.job = some (.call op k)) (hop : FsStep op w.disk a d) :
      WorldStep w { w with disk := d, job := some (k a) }
  | finish (w : World) (o : Outcome) (h : w.job = some (.ret o)) : WorldStep w { w with job := none }
  | crash (w : World) : WorldStep w { w with job := none }

/-- A history of commits. -/
abbrev Steps : World → World → Prop := Relation.ReflTransGen WorldStep

/-- A job that runs to its end without a failure. -/
theorem steps_run (started : List Snapshot) (p : Prog FS Outcome) (d : Disk) :
    Steps ⟨started, d, some p⟩ ⟨started, (p.run exec d).2, none⟩ := by
  induction p generalizing d with
  | ret o => exact .single (.finish _ o rfl)
  | call op k ih => exact .head (.op _ op k _ _ rfl (.ok op d)) (ih _ _)

/-- The commit in progress belongs to a started snapshot and has only listed steps left. -/
def JobInv (w : World) : Prop :=
  ∀ p, w.job = some p → ∃ s ∈ w.started, ∃ Q, p.Guarantees FsStep (CommitStep (render s).1) Q w.disk

structure WorldInv (w : World) : Prop where
  mount : MountInv w.started w.disk
  job : JobInv w

theorem MountInv.cons {started : List Snapshot} {d : Disk} (h : MountInv started d) (s : Snapshot) :
    MountInv (s :: started) d := by
  constructor
  · intro b hb
    obtain ⟨s0, hs0, h0⟩ := h.config b hb
    exact ⟨s0, List.mem_cons_of_mem _ hs0, h0⟩
  · intro f b hw hb
    obtain ⟨s0, hs0, h0⟩ := h.modules f b hw hb
    exact ⟨s0, List.mem_cons_of_mem _ hs0, h0⟩

theorem WorldInv.init : WorldInv World.init := by
  refine ⟨⟨?_, ?_⟩, ?_⟩
  · intro b hb
    cases hb
  · intro f b _ hb
    cases hb
  · intro p hp
    cases hp

/-- A step keeps the invariant and the configuration. -/
theorem WorldInv.step {w w' : World} (hstep : WorldStep w w') (h : WorldInv w) :
    WorldInv w' ∧ ((w.disk.contents configFile).isSome → (w'.disk.contents configFile).isSome) := by
  cases hstep with
  | start s hjob =>
      refine ⟨⟨h.mount.cons s, ?_⟩, id⟩
      intro p hp
      simp only [Option.some.injEq] at hp
      subst hp
      exact ⟨s, List.mem_cons_self .., _, commit_guarantees (flatTree_render s) w.disk⟩
  | op op k a d hjob hop =>
      obtain ⟨s, hs, Q, hg⟩ := h.job _ hjob
      obtain ⟨hstep, hk⟩ := hg.of_call hop
      refine ⟨⟨h.mount.step hs hstep, ?_⟩, config_persists hstep⟩
      intro p hp
      simp only [Option.some.injEq] at hp
      subst hp
      exact ⟨s, hs, Q, hk⟩
  | finish o hjob => exact ⟨⟨h.mount, by intro p hp; cases hp⟩, id⟩
  | crash => exact ⟨⟨h.mount, by intro p hp; cases hp⟩, id⟩

theorem WorldInv.steps {w w' : World} (hsteps : Steps w w') (h : WorldInv w) :
    WorldInv w' ∧ ((w.disk.contents configFile).isSome → (w'.disk.contents configFile).isSome) := by
  induction hsteps with
  | refl => exact ⟨h, id⟩
  | tail _ hstep ih =>
      obtain ⟨h', hkeep⟩ := ih
      obtain ⟨h'', hkeep'⟩ := h'.step hstep
      exact ⟨h'', fun hc => hkeep' (hkeep hc)⟩

/-- The merge names the bytes of a configuration file refer to. -/
def referencedMerges (bytes : Bytes) : List Bytes := ((loadLiteral bytes).map mergeNames).getD []

theorem referencedMerges_configBytes (s : Snapshot) :
    referencedMerges (configBytes s) = (emittedKeyspaces s).1.map fun ks => mergeName ks.spec := by
  unfold referencedMerges configBytes
  rw [loadLiteral_renderConfig, Option.map_some, Option.getD_some, mergeNames_configValue]

theorem ModulePresent.contents {d : Disk} {n : Bytes} (h : ModulePresent d n) :
    (d.contents (modulePath n)).isSome := by
  obtain ⟨f, h0, hf, data, hdata⟩ := h
  have e : modulePath n = udfPath f := by simp [modulePath, udfPath, hf, wasmSuffix]
  rw [e, Option.isSome_iff_exists]
  exact ⟨data, contents_eq_some.mpr ⟨_, resolve_udfPath h0, hdata⟩⟩

/-- In every state of every history of commits, cut off and failing anywhere: `config.lua` is a
complete rendered configuration whose merges are built in or on the mount, every module file is a
complete rendered module, and the configuration never disappears. -/
theorem commit_crash_safe (w : World) (h : Steps World.init w) :
    (∀ b, w.disk.contents configFile = some b →
      (∃ s ∈ w.started, (render s).1.lookup configFile = some b) ∧
      ∀ n ∈ referencedMerges b, n ∈ builtinMerges ∨ (w.disk.contents (modulePath n)).isSome) ∧
    (∀ (f : Name) (b : Bytes), hasSuffix f.1 wasmSuffix = true → w.disk.contents (udfPath f) = some b →
      ∃ s ∈ w.started, (render s).1.lookup (udfPath f) = some b) ∧
    ∀ w', Steps w w' → (w.disk.contents configFile).isSome → (w'.disk.contents configFile).isSome := by
  have hinv := (WorldInv.steps h WorldInv.init).1
  refine ⟨?_, ?_, ?_⟩
  · intro b hb
    obtain ⟨p, hp, hnode⟩ := contents_eq_some.mp hb
    rw [resolve_configFile, Option.some.injEq] at hp
    subst hp
    obtain ⟨s, hs, rfl, href⟩ := hinv.mount.config b hnode
    refine ⟨⟨s, hs, lookup_render_config s⟩, ?_⟩
    intro n hn
    rw [referencedMerges_configBytes, List.mem_map] at hn
    obtain ⟨ks, hks, rfl⟩ := hn
    exact (href ks hks).imp id ModulePresent.contents
  · intro f b hw hb
    obtain ⟨p, hp, hnode⟩ := contents_eq_some.mp hb
    have h0 : 0 ∉ f.1 := by
      intro hmem
      have hmem' : 0 ∈ udfPath f := List.mem_append_right _ hmem
      rw [resolve, if_pos hmem'] at hp
      cases hp
    rw [resolve_udfPath h0, Option.some.injEq] at hp
    subst hp
    exact hinv.mount.modules f b hw hnode
  · intro w' hw'
    exact (hinv.steps hw').2

/-- The first operations of a job, without a failure. -/
def cutOff : ℕ → Prog FS Outcome → Disk → Disk
  | 0, _, d => d
  | _ + 1, .ret _, d => d
  | n + 1, .call op k, d => cutOff n (k (exec op d).1) (exec op d).2

/-- A job that is cut off on its way. -/
theorem steps_cutOff (started : List Snapshot) (n : ℕ) (p : Prog FS Outcome) (d : Disk) :
    Steps ⟨started, d, some p⟩ ⟨started, cutOff n p d, none⟩ := by
  induction n generalizing p d with
  | zero => exact .single (.crash _)
  | succ n ih =>
      cases p with
      | ret o => exact .single (.crash _)
      | call op k => exact .head (.op _ op k _ _ rfl (.ok op d)) (ih _ _)

/-- The pools of `contestedSnapshot` without its keyspaces and modules. -/
def drainedSnapshot : Snapshot := ⟨contestedSnapshot.pools, []⟩

/-- A mount on which `contestedSnapshot` was committed, and then a commit of `drainedSnapshot` was
cut off before it renamed its configuration. -/
def cutMount : Disk :=
  cutOff 4 (commit (render drainedSnapshot).1) ((commit (render contestedSnapshot).1).run exec ∅).2

theorem commit_crash_safe_contested :
    Steps World.init ⟨[drainedSnapshot, contestedSnapshot], cutMount, none⟩ ∧
    (cutMount.contents (configFile ++ tmpSuffix)).isSome ∧
    cutMount.contents configFile = some (configBytes contestedSnapshot) ∧
    configBytes contestedSnapshot ≠ configBytes drainedSnapshot ∧
    referencedMerges (configBytes contestedSnapshot) ≠ [] ∧
    ∀ n ∈ referencedMerges (configBytes contestedSnapshot),
      n ∈ builtinMerges ∨ (cutMount.contents (modulePath n)).isSome := by
  have hfirst : Steps World.init
      ⟨[contestedSnapshot], ((commit (render contestedSnapshot).1).run exec ∅).2, none⟩ :=
    .head (.start _ contestedSnapshot rfl) (steps_run _ _ _)
  have hsteps : Steps World.init ⟨[drainedSnapshot, contestedSnapshot], cutMount, none⟩ :=
    (hfirst.tail (.start _ drainedSnapshot rfl)).trans (steps_cutOff _ 4 _ _)
  have hconfig : cutMount.contents configFile = some (configBytes contestedSnapshot) := by decide +kernel
  exact ⟨hsteps, by decide +kernel, hconfig, by decide +kernel, by decide +kernel,
    ((commit_crash_safe _ hsteps).1 _ hconfig).2⟩

end McGateway.Operator
