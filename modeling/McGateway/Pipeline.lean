import McGateway.CommitSafety
import McGateway.RenderEmission
import McGateway.Watcher

/-! # From a snapshot to the gateway's verdict

Renderer, committer, loader and validator in one line: what the gateway makes of the mount after
a snapshot has been committed.  The renderer checks merge names; the validator asks for merges
that loaded.  `validate_after_commit_iff` says exactly when the two come to the same. -/

namespace McGateway.Operator

open Lua Config McGateway.Core McGateway.Watcher
open Bytes (ascii hasSuffix sortBy validUtf8)

/-! ### What the gateway reads -/

/-- The mount as the gateway sees it. -/
def mountOf (d : Disk) : Mount where
  config := d.contents configFile
  udf := ((d.children [udfName]).filterMap fun e =>
    match e.2 with
    | .file data => some (⟨e.1.1, data⟩ : Sigma fun _ : Bytes => Bytes)
    | .dir => none).toAList

theorem lookup_mountOf_udf {d : Disk} {n data : Bytes} : (mountOf d).udf.lookup n = some data ↔
    ∃ f : Name, f.1 = n ∧ d.node [udfName, f] = some (.file data) := by
  have hmem : ∀ n data, (⟨n, data⟩ : Sigma fun _ : Bytes => Bytes) ∈
      ((d.children [udfName]).filterMap fun e =>
        match e.2 with
        | .file data => some (⟨e.1.1, data⟩ : Sigma fun _ : Bytes => Bytes)
        | .dir => none) ↔ ∃ f : Name, f.1 = n ∧ d.node [udfName, f] = some (.file data) := by
    intro n data
    rw [List.mem_filterMap]
    constructor
    · rintro ⟨⟨f, node⟩, hchild, he⟩
      cases node with
      | dir => simp at he
      | file b =>
          simp only [Option.some.injEq, Sigma.mk.injEq] at he
          obtain ⟨rfl, he⟩ := he
          rw [heq_eq_eq] at he
          subst he
          exact ⟨f, rfl, mem_children.mp hchild⟩
    · rintro ⟨f, rfl, hf⟩
      exact ⟨(f, .file data), mem_children.mpr hf, rfl⟩
  unfold mountOf
  rw [AList.lookup_to_alist]
  constructor
  · intro h
    exact (hmem n data).mp (List.of_mem_dlookup h)
  · intro h
    have hin := (hmem n data).mpr h
    obtain ⟨b, hb⟩ := Option.isSome_iff_exists.mp (List.dlookup_isSome.mpr (List.mem_keys_of_mem hin))
    rw [hb, Option.some.injEq]
    obtain ⟨f, rfl, hf⟩ := h
    obtain ⟨g, hg, hgnode⟩ := (hmem f.1 b).mp (List.of_mem_dlookup hb)
    obtain rfl := Subtype.ext hg
    rw [hf] at hgnode
    simpa using hgnode.symm

theorem mem_builtinMerges_iff {n : Bytes} : n ∈ builtinMerges ↔ (builtin n).isSome := by
  unfold builtin
  rw [List.lookup_isSome_iff]
  simp only [builtinMerges, builtins, List.map_cons, List.map_nil, List.mem_cons, List.not_mem_nil,
    or_false, beq_iff_eq, exists_eq_or_imp, exists_eq_left]
  tauto

theorem not_safe_of_high {b : UInt8} (h : ¬ b < 0x80) :
    (isAlnum b || b == 95 || b == 45) = false := by
  have hge : 128 ≤ b.toNat := by
    rw [UInt8.lt_iff_toNat_lt] at h
    simpa using h
  have hle : ∀ c : UInt8, c.toNat < 128 → decide (b ≤ c) = false := by
    intro c hc
    rw [decide_eq_false_iff_not, UInt8.le_iff_toNat_le]
    omega
  have hne : ∀ c : UInt8, c.toNat < 128 → (b == c) = false := by
    intro c hc
    rw [beq_eq_false_iff_ne]
    rintro rfl
    omega
  simp [isAlnum, hle 122 (by decide), hle 90 (by decide), hle 57 (by decide), hne 95 (by decide),
    hne 45 (by decide)]

theorem validUtf8_of_safe {n : Bytes} (h : safeModuleName n = true) : validUtf8 n = true := by
  apply Bytes.validUtf8_of_ascii
  intro b hb
  by_contra hge
  exact not_mem_of_safe h (not_safe_of_high hge) hb

/-! ### Registration -/

/-- A module resolves after a scan exactly when the bytes on the mount load. -/
theorem nativeRequiredFlags_scanDir {load : Bytes → Bytes → Option Merge} {d : Disk} {n w : Bytes}
    (hsafe : safeModuleName n = true) (hb : n ∉ builtinMerges)
    (hat : d.node [udfName, moduleEntry n hsafe] = some (.file w)) :
    (nativeRequiredFlags (scanDir load (mountOf d).udf) n).isSome ↔ (load n w).isSome := by
  have hbuiltin : builtin n = none := by
    rw [mem_builtinMerges_iff] at hb
    simpa using hb
  have hne : n ≠ [] := by
    rintro rfl
    cases hsafe
  have hfile : (mountOf d).udf.lookup (n ++ ascii ".wasm") = some w :=
    lookup_mountOf_udf.mpr ⟨moduleEntry n hsafe, rfl, hat⟩
  rw [isSome_nativeRequiredFlags, ← AList.lookup_isSome, lookup_scanDir, scanned,
    if_pos ⟨hne, validUtf8_of_safe hsafe, hbuiltin⟩, hfile, hbuiltin]
  simp [validUtf8_of_safe hsafe]

theorem nativeRequiredFlags_builtin {table : WasmTable} {n : Bytes} (h : n ∈ builtinMerges) :
    (nativeRequiredFlags table n).isSome := by
  obtain ⟨m, hm⟩ := Option.isSome_iff_exists.mp (mem_builtinMerges_iff.mp h)
  have hu : validUtf8 n = true := by
    simp only [builtinMerges, List.map_cons, List.map_nil, List.mem_cons, List.not_mem_nil, or_false] at h
    rcases h with rfl | rfl | rfl <;> decide +kernel
  exact (isSome_nativeRequiredFlags table n).mpr ⟨hu, Or.inl (by rw [hm]; rfl)⟩

/-- The modules that the emitted keyspaces merge through load: for each, the bytes of the first
keyspace by name that inlines it. -/
def UsedModulesLoad (load : Bytes → Bytes → Option Merge) (s : Snapshot) : Prop :=
  ∃ pools keyspaces, Emission s pools keyspaces ∧ ∀ ks ∈ keyspaces, mergeName ks.spec ∉ builtinMerges →
    ∀ w owner, FirstInliner s (mergeName ks.spec) w owner → (load (mergeName ks.spec) w).isSome

theorem usedModulesLoad_iff {load : Bytes → Bytes → Option Merge} {s : Snapshot} :
    UsedModulesLoad load s ↔ ∀ ks ∈ (emittedKeyspaces s).1, mergeName ks.spec ∉ builtinMerges →
      ∀ w, (emittedModules s).1.lookup (mergeName ks.spec) = some w → (load (mergeName ks.spec) w).isSome := by
  simp only [lookup_emittedModules_iff, forall_exists_index]
  constructor
  · rintro ⟨pools, keyspaces, hemission, h⟩
    obtain ⟨-, rfl⟩ := hemission.eq
    exact h
  · intro h
    exact ⟨_, _, emission s, h⟩

/-- With the tree of `s` in place, the merges of the emitted keyspaces resolve exactly when their
modules load. -/
theorem resolves_iff_usedModulesLoad {load : Bytes → Bytes → Option Merge} {s : Snapshot} {d : Disk}
    (h : InPlace (render s).1 d) :
    (∀ ks ∈ (emittedKeyspaces s).1,
      (nativeRequiredFlags (scanDir load (mountOf d).udf) (mergeName ks.spec)).isSome) ↔
    UsedModulesLoad load s := by
  have hmodule : ∀ n w, n ∉ builtinMerges → (emittedModules s).1.lookup n = some w →
      ((nativeRequiredFlags (scanDir load (mountOf d).udf) n).isSome ↔ (load n w).isSome) := by
    intro n w hb hw
    have hmem : n ∈ (emittedModules s).1 := AList.lookup_isSome.mp (by rw [hw]; rfl)
    have hsafe := (mem_emittedModules hmem).1
    have hpath : (render s).1.lookup (udfPath (moduleEntry n hsafe)) = some w := by
      rw [udfPath_moduleEntry, lookup_render_module, hw]
    have hkey : udfPath (moduleEntry n hsafe) ∈ sortedKeys (render s).1 := by
      apply (Bytes.mem_sortBy id).mpr
      exact AList.mem_keys.mp (AList.lookup_isSome.mp (by rw [hpath]; rfl))
    exact nativeRequiredFlags_scanDir hsafe hb (h.modules _ w hkey hpath)
  rw [usedModulesLoad_iff]
  constructor
  · intro hres ks hks hb w hw
    exact (hmodule _ w hb hw).mp (hres ks hks)
  · intro hload ks hks
    by_cases hb : mergeName ks.spec ∈ builtinMerges
    · exact nativeRequiredFlags_builtin hb
    · have hm := (mergeName_emitted ((emittedKeyspaces_spec s).admissible ks hks)).resolve_left hb
      obtain ⟨w, hw⟩ := Option.isSome_iff_exists.mp (AList.lookup_isSome.mpr hm)
      exact (hmodule _ w hb hw).mpr (hload ks hks hb w hw)

/-- The gateway accepts the configuration on the mount after a rescan. -/
def GatewayAccepts (L : LengthOp) (load : Bytes → Bytes → Option Merge) (d : Disk) : Prop :=
  ∃ bytes, (mountOf d).config = some bytes ∧
    AcceptsBytes L (nativeRequiredFlags (scanDir load (mountOf d).udf)) bytes

theorem gatewayAccepts_of_inPlace {L : LengthOp} {load : Bytes → Bytes → Option Merge} {s : Snapshot}
    {d : Disk} (h : InPlace (render s).1 d) :
    GatewayAccepts L load d ↔ ∀ ks ∈ (emittedKeyspaces s).1,
      (nativeRequiredFlags (scanDir load (mountOf d).udf) (mergeName ks.spec)).isSome := by
  have hconfig : (mountOf d).config = some (configBytes s) :=
    contents_eq_some.mpr ⟨_, resolve_configFile, h.config _ (lookup_render_config s)⟩
  unfold GatewayAccepts
  simp only [hconfig, Option.some.injEq, exists_eq_left']
  rw [configBytes, acceptsBytes_renderConfig]
  exact ⟨fun hshape => hshape.merges, fun hres => configShape_emitted hres⟩

/-- After a commit that returned no error, whatever the mount held before, the gateway accepts
the committed configuration exactly when every module it merges through loads. -/
theorem validate_after_commit_iff (L : LengthOp) (load : Bytes → Bytes → Option Merge) (s : Snapshot)
    (d d' : Disk) (o : Outcome) (hrun : (commit (render s).1).Returns FsStep d o d')
    (hok : o.2 = none) : GatewayAccepts L load d' ↔ UsedModulesLoad load s := by
  have hplace : InPlace (render s).1 d' := (commit_guarantees (flatTree_render s) d).returns hrun hok
  rw [gatewayAccepts_of_inPlace hplace, resolves_iff_usedModulesLoad hplace]

/-- A fault-free commit is an execution. -/
theorem returns_commit (s : Snapshot) (d : Disk) : (commit (render s).1).Returns FsStep d
    ((commit (render s).1).run exec d).1 ((commit (render s).1).run exec d).2 :=
  Prog.returns_run (fun op d => .ok op d) _ _

theorem validate_after_commit_contested :
    GatewayAccepts .least (fun _ _ => some firstHit)
      ((commit (render contestedSnapshot).1).run exec ∅).2 := by
  have hok : ((commit (render contestedSnapshot).1).run exec ∅).1.2 = none := by
    decide +kernel
  apply (validate_after_commit_iff .least _ contestedSnapshot ∅ _ _ (returns_commit _ ∅) hok).mpr
  exact ⟨_, _, emission contestedSnapshot, fun _ _ _ _ _ _ => rfl⟩

/-- A loader that refuses the one-byte module. -/
def refusesStub (_ : Bytes) (w : Bytes) : Option Merge := if w = [0] then none else some firstHit

def stubKeyspace : Keyspace :=
  ⟨ascii "stub", ⟨ascii "x", [ascii "a"], [ascii "a"], [], some ⟨ascii "udf1", [0]⟩⟩⟩

/-- A healthy keyspace next to one whose module does not load. -/
def stubSnapshot : Snapshot :=
  ⟨[⟨ascii "a", ⟨[ascii "h:1"], [], []⟩⟩],
    [stubKeyspace, ⟨ascii "healthy", ⟨ascii "y", [ascii "a"], [ascii "a"], [], none⟩⟩]⟩

/-- One keyspace whose module does not load makes the gateway refuse the whole configuration. -/
theorem gateway_refuses_stub :
    ∃ o d, (commit (render stubSnapshot).1).Returns FsStep ∅ o d ∧ o.2 = none ∧
      ¬ GatewayAccepts .least refusesStub d := by
  have hok : ((commit (render stubSnapshot).1).run exec ∅).1.2 = none := by
    decide +kernel
  have hplace := (commit_guarantees (flatTree_render stubSnapshot) ∅).returns
    (returns_commit stubSnapshot ∅) hok
  refine ⟨_, _, returns_commit stubSnapshot ∅, hok, ?_⟩
  rw [gatewayAccepts_of_inPlace hplace, resolves_iff_usedModulesLoad hplace, usedModulesLoad_iff]
  intro h
  have hload := h stubKeyspace (by decide +kernel) (by decide +kernel) [0] (by decide +kernel)
  cases hload

end McGateway.Operator
