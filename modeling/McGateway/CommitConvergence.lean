import McGateway.CommitPhases
import McGateway.CommitSafety

/-! # Commits converge

A commit that returns no error has removed exactly the difference between the tree and the mount
(`commit_yields`): its result is `planned`, its mutating operations are those of that result, in
that order, and the mount is `Converged`.  From any debris of earlier commits this is
`commit_converges`; that the same commit again finds nothing to do is `commit_quiet`. -/

namespace McGateway.Operator

open Bytes (ascii hasPrefix hasSuffix sortBy)

/-! ### Commits -/

section commit
variable {desired : ByteMap Bytes}

/-- The tree passes the shape check. -/
structure Accepted (desired : ByteMap Bytes) : Prop where
  config : configFile ∈ desired
  recognized : ∀ path ∈ desired, recognized path = true

theorem DesiredTree.accepted (htree : DesiredTree desired) : Accepted desired := by
  refine ⟨htree.config, ?_⟩
  intro path hmem
  by_cases hc : path = configFile
  · simp [Operator.recognized, hc]
  · obtain ⟨f, hw, rfl⟩ := htree.modules path hmem hc
    have hpre : hasPrefix (udfPath f) (udfDir ++ ascii "/") = true := Bytes.hasPrefix_append _ _
    have hsuf : hasSuffix (udfPath f) wasmSuffix = true := by
      obtain ⟨r, hr⟩ := Bytes.hasSuffix_iff.mp hw
      exact Bytes.hasSuffix_iff.mpr ⟨udfDir ++ ascii "/" ++ r, by simp [udfPath, hr]⟩
    simp [Operator.recognized, hpre, hsuf]

theorem mem_sortedKeys {path : Bytes} : path ∈ sortedKeys desired ↔ path ∈ desired := by
  rw [sortedKeys, Bytes.mem_sortBy, AList.mem_keys]

theorem commit_eq (hacc : Accepted desired) :
    commit desired = andThen (andThen (andThen (sweepTemp ⟨false, [], [], []⟩)
      (writeModules desired (sortedKeys desired))) (writeConfig desired)) (removeStale desired) := by
  have hnone : (sortedKeys desired).find? (fun path => !recognized path) = none := by
    apply List.find?_eq_none.mpr
    intro path hpath
    simp [hacc.recognized path (mem_sortedKeys.mp hpath)]
  unfold commit
  rw [if_neg (not_not.mpr hacc.config), hnone]

/-- A commit that returns no error has done what was planned, and nothing else. -/
theorem commit_yields (faults : Prop) (htree : DesiredTree desired) {d : Disk} (hd : d.Tree) :
    Yields faults (commit desired)
      (fun res d' log => res = planned desired d ∧ log = res.ops desired ∧ Converged desired d d')
      (d, []) := by
  rw [commit_eq htree.accepted]
  have hmodules : ∅ ∪ {path | path ∈ sortedKeys desired ∧ path ≠ configFile} =
      {path | path ∈ desired ∧ path ≠ configFile} := by
    ext path
    simp [mem_sortedKeys]
  have hall : insert configFile {path | path ∈ desired ∧ path ≠ configFile} = {path | path ∈ desired} := by
    ext path
    by_cases hc : path = configFile
    · simp [hc, htree.config]
    · simp [hc]
  have hnodup : (sortedKeys desired).Nodup := by
    exact (Bytes.sortBy_perm id desired.keys).nodup_iff.mpr desired.keys_nodup
  apply Yields.andThen
  · apply Yields.andThen
    · apply Yields.andThen (sweepTemp_yields desired hd)
      intro res d1 log hsweep
      obtain ⟨rfl, rfl, hprog⟩ := hsweep
      exact writeModules_yields htree _ _ ∅ [] d1
        ⟨fun _ => mem_sortedKeys.mp, fun _ _ => Set.notMem_empty _, hnodup, by simp, hprog⟩
    · intro res d2 log hmods
      rw [hmodules] at hmods
      obtain ⟨rfl, rfl, hprog⟩ := hmods
      exact writeConfig_yields htree _ _ (fun _ h => h.1) (fun h => h.2 rfl) hprog
  · intro res d3 log hconf
    rw [hall] at hconf
    obtain ⟨rfl, rfl, hprog⟩ := hconf
    exact removeStale_yields htree _ _ _ hprog

/-- From any debris, and with any failures, a commit of a rendered tree passes its shape check, and
if it returns no error the mount has converged and the result says what has been done. -/
theorem commit_converges (faults : Prop) (s : Snapshot) (d d' : Disk) (hd : d.Tree) (o : Outcome)
    (h : (commit (render s).1).Returns (MountStep faults) d o d') :
    (∀ e, o.2 = some e → e.isShape = false) ∧
    (o.2 = none → Converged (render s).1 d d' ∧ o.1 = planned (render s).1 d) := by
  obtain ⟨log, hlog⟩ := h.logged FsOp.mutates []
  have hdone := (commit_yields faults (flatTree_render s).desiredTree hd).returns hlog
  refine ⟨hdone.shape, ?_⟩
  intro hnone
  obtain ⟨hres, -, hconv⟩ := hdone.success hnone
  exact ⟨hconv, hres⟩

/-- A mount with a temp file, a stale module, and a file that is none of the committer's
business. -/
def debris : Disk :=
  [⟨[configName.tmp], .file []⟩, ⟨[udfName], .dir⟩,
    ⟨[udfName, ⟨ascii "old.wasm", by decide⟩], .file [1]⟩,
    ⟨[udfName, ⟨ascii "notes", by decide⟩], .file [2]⟩].toAList

theorem commit_converges_debris :
    ∃ d', (commit (render contestedSnapshot).1).run exec debris =
        ((planned (render contestedSnapshot).1 debris, none), d') ∧
      Converged (render contestedSnapshot).1 debris d' := by
  have hnone : ((commit (render contestedSnapshot).1).run exec debris).1.2 = none := by decide +kernel
  obtain ⟨hconv, hres⟩ := (commit_converges False contestedSnapshot debris _
    (Disk.tree_of_entries (by decide +kernel)) _
    (Prog.returns_run (MountStep.exec False) (commit (render contestedSnapshot).1) debris)).2 hnone
  exact ⟨_, Prod.ext (Prod.ext hres hnone) rfl, hconv⟩

end commit

/-! ### Committing again -/

section again
variable {faults : Prop} {desired : ByteMap Bytes} {d : Disk}

/-- Nothing was found to do; an error is a fault. -/
def Quiet (faults : Prop) (d : Disk) (o : Outcome) (s : Disk × List FsOp) : Prop :=
  o.1 = ⟨false, [], [], []⟩ ∧ s = (d, []) ∧ (o.2 = none ∨ faults)

/-- Every execution of the program is quiet. -/
def StaysQuiet (faults : Prop) (d : Disk) (p : Prog FS Outcome) : Prop :=
  p.Guarantees (LoggedStep faults) (fun _ _ _ => True) (Quiet faults d) (d, [])

theorem StaysQuiet.done : StaysQuiet faults d (pure (⟨false, [], [], []⟩, none)) :=
  Prog.Guarantees.ret ⟨rfl, rfl, Or.inl rfl⟩

theorem StaysQuiet.andThen {p : Prog FS Outcome} {f : Result → Prog FS Outcome}
    (hp : StaysQuiet faults d p) (hf : StaysQuiet faults d (f ⟨false, [], [], []⟩)) :
    StaysQuiet faults d (andThen p f) := by
  apply Prog.Guarantees.bind
  apply Prog.Guarantees.mono hp
  intro o s ho
  obtain ⟨res, err⟩ := o
  obtain ⟨hres, hs, herr⟩ := ho
  simp only at hres
  subst hres hs
  cases err with
  | none => exact hf
  | some e => exact ⟨rfl, rfl, herr⟩

/-- Listing a directory that can be listed. -/
theorem StaysQuiet.readDir {name : Bytes} {p : Path} {k : Except FsError (List Bytes) → Prog FS Outcome}
    (htree : d.Tree) (hp : resolve name = some p) (hfile : ∀ data, d.node p ≠ some (.file data))
    (hmissing : d.node p = none → d.missing p = .notExist)
    (herr : ∀ e, faults → StaysQuiet faults d (k (.error e)))
    (hk : StaysQuiet faults d (k (.ok (d.files p)))) :
    StaysQuiet faults d (.call (.readDir name) k) := by
  intro a s hs
  obtain ⟨d', log⟩ := s
  obtain ⟨hstep, hlog⟩ := hs
  obtain ⟨hd, hok, hbad⟩ := MountStep.readDir_cases hstep
  simp only [FsOp.mutates, Bool.false_eq_true, if_false, List.append_nil] at hd hlog
  subst hd hlog
  refine ⟨trivial, ?_⟩
  cases a with
  | ok names =>
      rw [readDir_eq_files htree hp (hok names rfl)]
      exact hk
  | error e =>
      cases hbad e rfl with
      | inl hfault => exact herr e hfault
      | inr hreal =>
          simp only [Operator.readDir, hp] at hreal
          cases hn : d'.node p with
          | none => simp [hn, hmissing hn] at hreal
          | some m =>
              cases m with
              | dir => simp [hn] at hreal
              | file data => exact absurd hn (hfile data)

theorem removeLoop_of_none {sel : Bytes → Bool} {dir : Bytes} {record : Result → Bytes → Result}
    {err : Bytes → FsError → CommitError} : ∀ (names : List Bytes) (res : Result),
    (∀ name ∈ names, sel name = false) →
      removeLoop sel dir record err names res = pure (res, none)
  | [], _, _ => rfl
  | name :: names, res, h => by
      obtain ⟨hname, hnames⟩ := List.forall_mem_cons.mp h
      rw [removeLoop, hname, if_neg (by simp)]
      exact removeLoop_of_none names res hnames

/-- A file that is up to date is not written. -/
theorem writeIfChanged_quiet {path data : Bytes} (hcur : d.contents path = some data) :
    (writeIfChanged path data).Guarantees (LoggedStep faults) (fun _ _ _ => True)
      (fun r s => s = (d, []) ∧ (r = .ok false ∨ (∃ e, r = .error e) ∧ faults)) (d, []) := by
  apply writeIfChanged_rule
  · intro _
    exact ⟨rfl, Or.inl rfl⟩
  · intro hne
    exact absurd hcur hne
  · intro hbad
    cases hbad with
    | inl hfault => exact ⟨rfl, Or.inr ⟨⟨_, rfl⟩, hfault⟩⟩
    | inr hreal =>
        rw [readFile_of_contents hcur] at hreal
        cases hreal

theorem writeModules_quiet (hplaced : ∀ path ∈ desired, d.contents path = desired.lookup path) :
    ∀ paths : List Bytes, (∀ path ∈ paths, path ∈ desired) →
      StaysQuiet faults d (writeModules desired paths ⟨false, [], [], []⟩)
  | [], _ => StaysQuiet.done
  | path :: paths, hpaths => by
      obtain ⟨hpath, hpaths'⟩ := List.forall_mem_cons.mp hpaths
      have hnext := writeModules_quiet hplaced paths hpaths'
      unfold writeModules
      split_ifs with hpre
      · obtain ⟨data, hdata⟩ := Option.isSome_iff_exists.mp (AList.lookup_isSome.mpr hpath)
        conv in (desired.lookup path).getD [] => rw [hdata, Option.getD_some]
        apply Prog.Guarantees.bind
        apply (writeIfChanged_quiet ((hplaced path hpath).trans hdata)).mono
        intro r s hr
        obtain ⟨rfl, hr⟩ := hr
        cases hr with
        | inl hr =>
            subst hr
            exact hnext
        | inr hr =>
            obtain ⟨⟨e, rfl⟩, hfault⟩ := hr
            exact ⟨rfl, rfl, Or.inr hfault⟩
      · exact hnext

theorem writeConfig_quiet (hconfig : configFile ∈ desired)
    (hplaced : ∀ path ∈ desired, d.contents path = desired.lookup path) :
    StaysQuiet faults d (writeConfig desired ⟨false, [], [], []⟩) := by
  obtain ⟨data, hdata⟩ := Option.isSome_iff_exists.mp (AList.lookup_isSome.mpr hconfig)
  unfold writeConfig
  conv in (desired.lookup configFile).getD [] => rw [hdata, Option.getD_some]
  apply Prog.Guarantees.bind
  apply (writeIfChanged_quiet ((hplaced _ hconfig).trans hdata)).mono
  intro r s hr
  obtain ⟨rfl, hr⟩ := hr
  cases hr with
  | inl hr =>
      subst hr
      exact ⟨rfl, rfl, Or.inl rfl⟩
  | inr hr =>
      obtain ⟨⟨e, rfl⟩, hfault⟩ := hr
      exact ⟨rfl, rfl, Or.inr hfault⟩

theorem missing_udf (hnone : d.node [udfName] = none) : d.missing [udfName] = .notExist := by
  simp [Disk.missing, hnone]

/-- Up to the removal of stale modules a commit does nothing, when there are no temp files and the
desired files are in place. -/
theorem upToConfig_quiet (hconfig : configFile ∈ desired) (htree : d.Tree) (hnoTemp : ∀ q, ¬TempFile d q)
    (hudf : ∀ data, d.node [udfName] ≠ some (.file data))
    (hplaced : ∀ path ∈ desired, d.contents path = desired.lookup path) :
    StaysQuiet faults d (andThen (andThen (sweepTemp ⟨false, [], [], []⟩)
      (writeModules desired (sortedKeys desired))) (writeConfig desired)) := by
  have hsweep : ∀ (dir : Bytes) (g : Path), (g = [] ∨ g = [udfName]) → ∀ res,
      sweepNames dir (sortBy id (d.files g)) res = pure (res, none) := by
    intro dir g hg res
    rw [sortBy_files, sweepNames_eq, removeLoop_of_none]
    intro name hname
    rw [Bool.eq_false_iff]
    intro hs
    obtain ⟨f, rfl, data, hdata⟩ := mem_files.mp hname
    exact hnoTemp _ ⟨g, f, hg, rfl, hs, data, hdata⟩
  have hfail : ∀ e : CommitError, faults → StaysQuiet faults d (pure (⟨false, [], [], []⟩, some e)) :=
    fun e hfault => ⟨rfl, rfl, Or.inr hfault⟩
  refine ((?_ : StaysQuiet faults d _).andThen ?_).andThen ?_
  · apply StaysQuiet.readDir htree resolve_nil (by simp) (by simp) (fun e => hfail _)
    change StaysQuiet faults d (andThen (sweepNames [] (sortBy id (d.files [])) _) (sweepDirs [udfDir]))
    rw [hsweep [] [] (Or.inl rfl)]
    apply StaysQuiet.done.andThen
    apply StaysQuiet.readDir htree resolve_udfDir hudf missing_udf (fun e => hfail _)
    change StaysQuiet faults d (andThen (sweepNames udfDir (sortBy id (d.files [udfName])) _) (sweepDirs []))
    rw [hsweep udfDir [udfName] (Or.inr rfl)]
    exact StaysQuiet.done.andThen StaysQuiet.done
  · exact writeModules_quiet hplaced _ fun path => mem_sortedKeys.mp
  · exact writeConfig_quiet hconfig hplaced

/-- A commit of a tree that is in place finds nothing to do. -/
theorem commit_quiet {d₀ : Disk} (htree : DesiredTree desired) (h : Converged desired d₀ d) :
    StaysQuiet faults d (commit desired) := by
  have hstale : ∀ res, removeNames desired (sortBy id (d.files [udfName])) res = pure (res, none) := by
    intro res
    rw [sortBy_files, removeNames_eq, removeLoop_of_none]
    intro name hname
    rw [Bool.eq_false_iff]
    intro hs
    obtain ⟨f, rfl, data, hdata⟩ := mem_files.mp hname
    obtain ⟨hw, hf⟩ := isStale_iff.mp hs
    exact h.noStale _ ⟨f, rfl, hw, hf, data, hdata⟩
  rw [commit_eq htree.accepted]
  apply (upToConfig_quiet htree.config h.tree h.noTemp h.udf h.placed).andThen
  apply StaysQuiet.readDir h.tree resolve_udfDir h.udf missing_udf
  · exact fun e hfault => ⟨rfl, rfl, Or.inr hfault⟩
  · change StaysQuiet faults d (removeNames desired (sortBy id (d.files [udfName])) _)
    rw [hstale]
    exact StaysQuiet.done

end again

end McGateway.Operator
