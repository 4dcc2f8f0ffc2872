import McGateway.CommitConvergence

/-! # The paths a commit accepts

The shape check of `Commit` is a test on strings: `config.lua`, or anything that starts with `udf/`
and ends with `.wasm`.  The files are placed where `osFS.abs` takes these strings, and the clean-up
goes by the names listed in the module directory.  The three agree for `udf/<name>.wasm`, but the
check accepts more: `udf/sub/x.wasm` is placed in a directory that no clean-up lists, and
`udf//x.wasm` is placed as `udf/x.wasm` and then removed as a stale module by the same commit.

`places_and_cleans_iff` says for which trees a commit that returns no error leaves every path with
its bytes, and every later commit removes what it does not want: those that list every module under
its plain name, too (`PlainlySpelled`). -/

namespace McGateway.Operator

open Bytes (ascii hasPrefix hasSuffix sortBy)
open UnixPath (IsName)

/-! ### Accepted paths -/

theorem validName_of_wasm {t : Bytes} (hw : hasSuffix t wasmSuffix = true) (hslash : 47 ∉ t) :
    IsName t := by
  obtain ⟨r, rfl⟩ := Bytes.hasSuffix_iff.mp hw
  refine ⟨by simp [wasmSuffix, ascii], ?_, ?_, hslash⟩
  all_goals
    intro h
    have := congrArg List.length h
    simp [wasmSuffix, ascii] at this

/-- The suffix of an accepted path is that of its last segment. -/
theorem wasm_last_segment {s t : Bytes} (h : hasSuffix (s ++ 47 :: t) wasmSuffix = true) :
    hasSuffix t wasmSuffix = true := by
  by_cases hlen : wasmSuffix.length ≤ t.length
  · have e : s ++ 47 :: t = (s ++ [47]) ++ t := by simp
    rwa [e, Bytes.hasSuffix_append_of_length_le _ _ _ hlen] at h
  · -- the slash would be part of `.wasm`
    obtain ⟨r, hr⟩ := Bytes.hasSuffix_iff.mp h
    have hsuffix : 47 :: t <:+ wasmSuffix :=
      List.suffix_of_suffix_length_le (List.suffix_append s (47 :: t)) ⟨r, hr.symm⟩
        (by rw [List.length_cons]; omega)
    have hslash : (47 : UInt8) ∈ wasmSuffix := hsuffix.subset List.mem_cons_self
    exact absurd hslash (by decide)

theorem resolve_below_udf {r : Bytes} {g : Path} (h : resolve (udfDir ++ ascii "/" ++ r) = some g) :
    ∃ below, g = udfName :: below := by
  unfold resolve at h
  split_ifs at h
  exact abs_below_entry (g := udfName) h

/-- An accepted module path is an entry of some directory at or below the module directory. -/
theorem sited_of_recognized {path : Bytes} (hrec : recognized path = true) (hne : path ≠ configFile) :
    ∃ (dir : Option Path) (f : Name), Sited path dir f ∧ hasSuffix f.1 wasmSuffix = true ∧
      ∀ g, dir = some g → ∃ below, g = udfName :: below := by
  simp only [recognized, hne, decide_false, Bool.false_or, Bool.and_eq_true] at hrec
  obtain ⟨hpre, hsuf⟩ := hrec
  obtain ⟨rest, rfl⟩ := Bytes.hasPrefix_iff.mp hpre
  -- the segment after the last slash
  obtain ⟨dir, t, hpath, ht, hdirne, hslash, hdir⟩ : ∃ dir t : Bytes,
      udfDir ++ ascii "/" ++ rest = dir ++ ascii "/" ++ t ∧ 47 ∉ t ∧ dir ≠ [] ∧
      hasPrefix dir (ascii "/") = false ∧ ∀ g, resolve dir = some g → ∃ below, g = udfName :: below := by
    by_cases hmem : 47 ∈ rest
    · obtain ⟨r, t, rfl, ht⟩ := Bytes.exists_last_piece hmem
      refine ⟨udfDir ++ ascii "/" ++ r, t, by simp [ascii], ht, by simp [udfDir, ascii], ?_,
        fun g hg => resolve_below_udf hg⟩
      simp [hasPrefix, udfDir, ascii, List.isPrefixOf]
    · refine ⟨udfDir, rest, rfl, hmem, by decide, by decide, ?_⟩
      intro g hg
      rw [resolve_udfDir, Option.some.injEq] at hg
      exact ⟨[], hg.symm⟩
  rw [hpath] at hsuf ⊢
  have hw : hasSuffix t wasmSuffix = true :=
    wasm_last_segment (s := dir) (by simpa [ascii] using hsuf)
  refine ⟨resolve dir, ⟨t, validName_of_wasm hw ht⟩,
    Sited.of_entry (f := ⟨t, validName_of_wasm hw ht⟩) hdirne hslash ?_, hw, hdir⟩
  rw [Bool.eq_false_iff]
  intro hs
  exact not_temp_of_wasm hw ⟨_, rfl, hs⟩

theorem Accepted.sited {desired : ByteMap Bytes} (h : Accepted desired) {path : Bytes}
    (hpath : path ∈ desired) : ∃ dir f, Sited path dir f := by
  by_cases hc : path = configFile
  · subst hc
    exact ⟨_, _, Target.config.sited⟩
  · obtain ⟨dir, f, hs, -⟩ := sited_of_recognized (h.recognized path hpath) hc
    exact ⟨dir, f, hs⟩

/-- A commit that returns no error has accepted the tree. -/
theorem accepted_of_returns {σ : Type} {E : Effect FS σ} {desired : ByteMap Bytes} {res : Result} {s s' : σ}
    (h : (commit desired).Returns E s (res, none) s') : Accepted desired := by
  unfold commit at h
  by_cases hconfig : configFile ∈ desired
  · rw [if_neg (not_not.mpr hconfig)] at h
    cases hfind : (sortedKeys desired).find? (fun path => !recognized path) with
    | some path =>
        rw [hfind] at h
        cases h
    | none =>
        refine ⟨hconfig, ?_⟩
        intro path hpath
        have hnot := List.find?_eq_none.mp hfind path (mem_sortedKeys.mpr hpath)
        simpa using hnot
  · rw [if_pos hconfig] at h
    cases h

/-! ### Trees that agree with the clean-up -/

/-- The path reads back its bytes. -/
def ReadsBack (desired : ByteMap Bytes) (d : Disk) : Prop :=
  ∀ path ∈ desired, d.contents path = desired.lookup path

/-- No file of `desired` is left, except where `next` has one. -/
def CleanedUp (desired next : ByteMap Bytes) (d : Disk) : Prop :=
  ∀ path ∈ desired, ∀ p, resolve path = some p → (∀ path' ∈ next, resolve path' ≠ some p) →
    ∀ data, d.node p ≠ some (.file data)

/-- Every module is an entry of the module directory, and the tree also has it under its plain name,
with the same bytes. -/
def PlainlySpelled (desired : ByteMap Bytes) : Prop :=
  ∀ path ∈ desired, path ≠ configFile → ∃ f : Name, resolve path = some [udfName, f] ∧
    desired.lookup (udfPath f) = desired.lookup path

/-- Two spellings of one path have the same bytes. -/
def Consistent (desired : ByteMap Bytes) : Prop :=
  ∀ path ∈ desired, ∀ path' ∈ desired, ∀ p, resolve path = some p → resolve path' = some p →
    desired.lookup path = desired.lookup path'

theorem PlainlySpelled.mem {desired : ByteMap Bytes} (h : PlainlySpelled desired) {path : Bytes} {p : Path}
    (hpath : path ∈ desired) (hne : path ≠ configFile) (hp : resolve path = some p) :
    ∃ f, p = [udfName, f] ∧ udfPath f ∈ desired := by
  obtain ⟨f, hf, hlookup⟩ := h path hpath hne
  rw [hp, Option.some.injEq] at hf
  refine ⟨f, hf, AList.lookup_isSome.mp ?_⟩
  rw [hlookup]
  exact AList.lookup_isSome.mpr hpath

theorem PlainlySpelled.consistent {desired : ByteMap Bytes} (h : PlainlySpelled desired) :
    Consistent desired := by
  intro path hpath path' hpath' p hp hp'
  by_cases hc : path = configFile
  · by_cases hc' : path' = configFile
    · rw [hc, hc']
    · obtain ⟨f, hf, -⟩ := h path' hpath' hc'
      rw [hc, resolve_configFile] at hp
      rw [hp', ← hp] at hf
      simp at hf
  · obtain ⟨f, hf, hlookup⟩ := h path hpath hc
    by_cases hc' : path' = configFile
    · rw [hc', resolve_configFile] at hp'
      rw [hp, ← hp'] at hf
      simp at hf
    · obtain ⟨f', hf', hlookup'⟩ := h path' hpath' hc'
      rw [hp, Option.some.injEq] at hf
      rw [hp', Option.some.injEq, hf] at hf'
      simp only [List.cons.injEq, and_true, true_and] at hf'
      rw [← hlookup, ← hlookup', hf']

/-! ### Commits of accepted trees -/

/-- The paths of `done` have been written: they resolve, and if the spellings are consistent they
have their bytes. -/
structure Settling (desired : ByteMap Bytes) (done : Set Bytes) (d : Disk) : Prop where
  tree : d.Tree
  noTemp : ∀ q, ¬TempFile d q
  sub : ∀ path ∈ done, path ∈ desired
  resolved : ∀ path ∈ done, ∃ p, resolve path = some p
  placed : Consistent desired → ∀ path ∈ done, d.contents path = desired.lookup path

section writing
variable {faults : Prop} {desired : ByteMap Bytes} {done : Set Bytes} {d d' : Disk} {path data : Bytes}
  {dir : Option Path} {g : Path} {f : Name} {log : List FsOp}

theorem Settling.same (h : Settling desired done d) (hdata : desired.lookup path = some data)
    (hcur : d.contents path = some data) : Settling desired (insert path done) d := by
  refine ⟨h.tree, h.noTemp, ?_, ?_, ?_⟩
  · intro path' hpath'
    cases Set.mem_insert_iff.mp hpath' with
    | inl he => exact he ▸ AList.lookup_isSome.mp (hdata ▸ rfl)
    | inr hpath' => exact h.sub path' hpath'
  · intro path' hpath'
    cases Set.mem_insert_iff.mp hpath' with
    | inl he =>
        obtain ⟨p, hp, -⟩ := contents_eq_some.mp hcur
        exact ⟨p, he ▸ hp⟩
    | inr hpath' => exact h.resolved path' hpath'
  · intro hcons path' hpath'
    cases Set.mem_insert_iff.mp hpath' with
    | inl he => rw [he, hcur, hdata]
    | inr hpath' => exact h.placed hcons path' hpath'

/-- Another path keeps its bytes: it is neither the temp file nor, if the spellings are consistent,
a file with other bytes. -/
theorem Settling.staged (hacc : Accepted desired) (h : Settling desired done d) (hs : Sited path (some g) f)
    (h0 : 0 ∉ f.1) (hdata : desired.lookup path = some data) (hstaged : Staged d d' g f data) :
    Settling desired (insert path done) d' := by
  have hmem : path ∈ desired := AList.lookup_isSome.mp (hdata ▸ rfl)
  have hcur : d'.contents path = some data := contents_eq_some.mpr ⟨_, hs.resolve_some h0, hstaged.target⟩
  refine Settling.same ⟨hstaged.tree h.tree, hstaged.noTemp hs.not_tmp h.noTemp, h.sub, h.resolved, ?_⟩
    hdata hcur
  intro hcons path' hpath'
  have hmem' := h.sub path' hpath'
  obtain ⟨data', hdata'⟩ := Option.isSome_iff_exists.mp (AList.lookup_isSome.mpr hmem')
  obtain ⟨p, hp, hnode⟩ := contents_eq_some.mp ((h.placed hcons path' hpath').trans hdata')
  rw [hdata']
  refine contents_eq_some.mpr ⟨p, hp, ?_⟩
  by_cases htarget : p = g ++ [f]
  · have hsame := hcons path hmem path' hmem' p (htarget ▸ hs.resolve_some h0) hp
    rw [hdata, hdata', Option.some.injEq] at hsame
    rw [htarget, hstaged.target, hsame]
  · have hsource : p ≠ g ++ [f.tmp] := by
      intro he
      obtain ⟨dir', f', hs'⟩ := hacc.sited hmem'
      obtain ⟨g', -, -, rfl⟩ := hs'.of_resolve hp
      have hff : f' = f.tmp := by simpa using congrArg List.getLast? he
      have hnot := hs'.not_tmp
      rw [hff, Name.tmp, Bytes.hasSuffix_append] at hnot
      cases hnot
    cases hstaged.frame p htarget hsource with
    | inl hsame => rw [hsame, hnode]
    | inr hnew =>
        rw [hnew.1] at hnode
        cases hnode

theorem writeIfChanged_settles (hacc : Accepted desired) (h : Settling desired done d)
    (hs : Sited path dir f) (hdata : desired.lookup path = some data) :
    (writeIfChanged path data).Guarantees (LoggedStep faults) (fun _ _ _ => True)
      (fun r s => (∀ e, r = .error e → e.isShape = false) ∧
        ∀ b, r = .ok b → Settling desired (insert path done) s.1) (d, log) := by
  apply writeIfChanged_rule
  · intro hcur
    exact ⟨fun _ he => (nomatch he), fun _ _ => h.same hdata hcur⟩
  · intro _
    apply (stage_staged hs).mono
    intro r s hr
    refine ⟨hr.1, ?_⟩
    intro b hb
    obtain ⟨-, -, g, rfl, h0, hstaged⟩ := hr.2 b hb
    exact h.staged hacc hs h0 hdata hstaged
  · intro _
    exact ⟨fun _ he => Except.error.inj he ▸ rfl, fun _ hb => (nomatch hb)⟩

theorem writeModules_settles (hacc : Accepted desired) :
    ∀ (paths : List Bytes) (done : Set Bytes) (res : Result) (d : Disk) (log : List FsOp),
      (∀ path ∈ paths, path ∈ desired) → Settling desired done d →
      Yields faults (writeModules desired paths res)
        (fun _ d' _ => Settling desired (done ∪ {path | path ∈ paths ∧ path ≠ configFile}) d') (d, log)
  | [], done, res, d, log, _, h => by
      apply Yields.pure
      simpa using h
  | path :: paths, done, res, d, log, hpaths, h => by
      obtain ⟨hpath, hpaths'⟩ := List.forall_mem_cons.mp hpaths
      unfold writeModules
      by_cases hc : path = configFile
      · subst hc
        have hpre : ¬hasPrefix configFile (udfDir ++ ascii "/") = true := by decide
        rw [if_neg hpre, modulePaths_cons_config]
        exact writeModules_settles hacc paths done res d log hpaths' h
      · have hpre : hasPrefix path (udfDir ++ ascii "/") = true := by
          have hrec := hacc.recognized path hpath
          simp only [recognized, hc, decide_false, Bool.false_or, Bool.and_eq_true] at hrec
          exact hrec.1
        obtain ⟨dir, f, hs⟩ := hacc.sited hpath
        obtain ⟨data, hdata⟩ := Option.isSome_iff_exists.mp (AList.lookup_isSome.mpr hpath)
        rw [if_pos hpre, ← insert_union_modulePaths hc]
        conv in (desired.lookup path).getD [] => rw [hdata, Option.getD_some]
        apply Yields.bind
        apply (writeIfChanged_settles hacc h hs hdata).mono
        intro r s hr
        cases r with
        | error e => exact Yields.fail (hr.1 e rfl)
        | ok b => exact writeModules_settles hacc paths _ _ s.1 s.2 hpaths' (hr.2 b rfl)

theorem writeConfig_settles (hacc : Accepted desired) (h : Settling desired done d) (res : Result) :
    Yields faults (writeConfig desired res)
      (fun _ d' _ => Settling desired (insert configFile done) d') (d, log) := by
  obtain ⟨data, hdata⟩ := Option.isSome_iff_exists.mp (AList.lookup_isSome.mpr hacc.config)
  unfold writeConfig
  conv in (desired.lookup configFile).getD [] => rw [hdata, Option.getD_some]
  apply Yields.bind
  apply (writeIfChanged_settles hacc h Target.config.sited hdata).mono
  intro r s hr
  cases r with
  | error e => exact Yields.fail (hr.1 e rfl)
  | ok b => exact Yields.pure (hr.2 b rfl)

end writing

/-- What holds after a commit that returned no error. -/
structure Settled (desired : ByteMap Bytes) (d : Disk) : Prop where
  tree : d.Tree
  noTemp : ∀ q, ¬TempFile d q
  noStale : ∀ q, ¬StaleModule desired d q
  udf : ∀ data, d.node [udfName] ≠ some (.file data)
  resolved : ∀ path ∈ desired, ∃ p, resolve path = some p
  placed : PlainlySpelled desired → ReadsBack desired d

section settled
variable {faults : Prop} {desired : ByteMap Bytes} {d d' : Disk}

theorem Settling.settled (h : Settling desired {path | path ∈ desired} d)
    (hudf : ∀ data, d.node [udfName] ≠ some (.file data))
    (hrem : Removed (isStale desired) (d.files [udfName]) [udfName] d d') : Settled desired d' := by
  refine ⟨hrem.tree h.tree, ?_, ?_, fun data hfile => hudf data (hrem.eq_of_some hfile), h.resolved, ?_⟩
  · intro q ht
    obtain ⟨g, f, hg, he, hs, data, hdata⟩ := ht
    exact h.noTemp q ⟨g, f, hg, he, hs, data, hrem.eq_of_some hdata⟩
  · intro q hst
    obtain ⟨f, rfl, hw, hf, data, hdata⟩ := hst
    exact hrem.not_file (isStale_iff.mpr ⟨hw, hf⟩) data hdata
  · intro hplain path hpath
    obtain ⟨data, hdata⟩ := Option.isSome_iff_exists.mp (AList.lookup_isSome.mpr hpath)
    obtain ⟨p, hp, hnode⟩ := contents_eq_some.mp ((h.placed hplain.consistent path hpath).trans hdata)
    rw [hdata]
    refine contents_eq_some.mpr ⟨p, hp, ?_⟩
    rw [hrem.kept, hnode]
    rintro f - hs rfl
    by_cases hc : path = configFile
    · rw [hc, resolve_configFile] at hp
      simp at hp
    · obtain ⟨f', hf', hmem⟩ := hplain.mem hpath hc hp
      simp only [List.cons_append, List.nil_append, List.cons.injEq, and_true, true_and] at hf'
      exact (isStale_iff.mp hs).2 (hf' ▸ hmem)

theorem commit_settles (hacc : Accepted desired) (hd : d.Tree) :
    Yields faults (commit desired) (fun _ d' _ => Settled desired d') (d, []) := by
  rw [commit_eq hacc]
  have hall : insert configFile (∅ ∪ {path | path ∈ sortedKeys desired ∧ path ≠ configFile}) =
      {path | path ∈ desired} := by
    ext path
    by_cases hc : path = configFile
    · simp [hc, hacc.config]
    · simp [hc, mem_sortedKeys]
  apply Yields.andThen
  · apply Yields.andThen
    · apply Yields.andThen (sweepTemp_yields desired hd)
      intro res d1 log hsweep
      obtain ⟨-, -, hprog⟩ := hsweep
      exact writeModules_settles hacc _ ∅ res d1 log (fun _ => mem_sortedKeys.mp)
        ⟨hprog.tree, hprog.noTemp, by simp, by simp, by simp⟩
    · intro res d2 log h
      exact writeConfig_settles hacc h res
  · intro res d3 log h
    rw [hall] at h
    apply Prog.Guarantees.mono (removeStale_removed h.tree res log)
    intro o s ho
    refine ⟨ho.shape, fun hnone => ?_⟩
    obtain ⟨-, -, hudf, hrem⟩ := ho.success hnone
    exact h.settled hudf hrem

theorem settled_of_returns (hd : d.Tree) {res : Result}
    (h : (commit desired).Returns (MountStep faults) d (res, none) d') : Settled desired d' := by
  obtain ⟨log, hlog⟩ := h.logged FsOp.mutates []
  exact ((commit_settles (accepted_of_returns h) hd).returns hlog).success rfl

end settled

/-! ### A commit of the configuration alone -/

/-- The tree with nothing but `config.lua`. -/
def configTree (data : Bytes) : ByteMap Bytes := (∅ : ByteMap Bytes).insert configFile data

theorem mem_configTree {path data : Bytes} : path ∈ configTree data ↔ path = configFile := by
  rw [configTree, AList.mem_insert]
  exact or_iff_left (AList.notMem_empty path)

theorem desiredTree_configTree (data : Bytes) : DesiredTree (configTree data) :=
  ⟨mem_configTree.mpr rfl, fun _ hpath hne => absurd (mem_configTree.mp hpath) hne⟩

section alone
variable {desired : ByteMap Bytes} {d : Disk}

/-- Files that are there can be removed. -/
theorem removeLoop_succeeds {sel : Bytes → Bool} {record : Result → Bytes → Result}
    {err : Bytes → FsError → CommitError} :
    ∀ (names : List Bytes) (res : Result) (d : Disk) (log : List FsOp), names.Nodup →
      (∀ name ∈ names, sel name = true →
        ∃ f : Name, f.1 = name ∧ 0 ∉ f.1 ∧ ∃ data, d.node [udfName, f] = some (.file data)) →
      (removeLoop sel udfDir record err names res).Guarantees (LoggedStep False) (fun _ _ _ => True)
        (fun o _ => o.2 = none) (d, log)
  | [], _, _, _, _, _ => rfl
  | name :: names, res, d, log, hnodup, hfiles => by
      obtain ⟨hnotmem, hnodup'⟩ := List.nodup_cons.mp hnodup
      obtain ⟨hname, hfiles'⟩ := List.forall_mem_cons.mp hfiles
      unfold removeLoop
      split_ifs with hsel
      · obtain ⟨f, rfl, h0, data, hfile⟩ := hname hsel
        intro a s hs
        obtain ⟨d', log'⟩ := s
        obtain ⟨hstep, -⟩ := hs
        have hexec : (a, d') = (.ok (), d.erase [udfName, f]) := by
          have hr : resolve (entryPath udfDir f.1) = some [udfName, f] := resolve_udfPath h0
          have hremove : remove (entryPath udfDir f.1) d = (.ok (), d.erase [udfName, f]) := by
            simp only [remove, hr, hfile]
          exact hremove ▸ hstep.resolve_right fun h => h.1
        obtain ⟨rfl, rfl⟩ := Prod.mk.inj hexec
        refine ⟨trivial, removeLoop_succeeds names _ _ _ hnodup' ?_⟩
        intro name' hname' hsel'
        obtain ⟨f', rfl, h0', data', hfile'⟩ := hfiles' name' hname' hsel'
        have hne : f' ≠ f := by
          rintro rfl
          exact hnotmem hname'
        exact ⟨f', rfl, h0', data', by rw [Disk.node_erase_ne (by simp [hne]), hfile']⟩
      · exact removeLoop_succeeds names res d log hnodup' hfiles'

/-- The modules that a commit leaves in the module directory can be removed. -/
theorem removeStale_succeeds (h : Settled desired d) (next : ByteMap Bytes) (res : Result) (log : List FsOp) :
    (removeStale next res).Guarantees (LoggedStep False) (fun _ _ _ => True) (fun o _ => o.2 = none)
      (d, log) := by
  intro a s hs
  obtain ⟨d', log'⟩ := s
  obtain ⟨hstep, -⟩ := hs
  have hexec : (a, d') = (readDir udfDir d, d) := hstep.resolve_right fun hfault => hfault.1
  obtain ⟨rfl, rfl⟩ := Prod.mk.inj hexec
  refine ⟨trivial, ?_⟩
  have hok : ∃ names, readDir udfDir d' = .ok names := by
    simp only [readDir, resolve_udfDir]
    cases hn : d'.node [udfName] with
    | none => exact ⟨[], by rw [missing_udf hn]⟩
    | some n =>
        cases n with
        | dir => exact ⟨_, rfl⟩
        | file data => exact absurd hn (h.udf data)
  obtain ⟨names, hnames⟩ := hok
  obtain rfl := readDir_eq_files h.tree resolve_udfDir hnames
  rw [hnames]
  change Prog.Guarantees _ _ _ (removeNames next (sortBy id (d'.files [udfName])) res) _
  rw [sortBy_files, removeNames_eq]
  apply removeLoop_succeeds
  · exact Bytes.nodup_of_pairwise_lt id (files_pairwise_lt d' [udfName])
  · intro name hname hsel
    obtain ⟨f, rfl, data, hdata⟩ := mem_files.mp hname
    have hw := (isStale_iff.mp hsel).1
    have hmem : udfPath f ∈ desired := by
      by_contra hnot
      exact h.noStale _ ⟨f, rfl, hw, hnot, data, hdata⟩
    obtain ⟨p, hp⟩ := h.resolved _ hmem
    exact ⟨f, rfl, (resolve_entryPath (Or.inr ⟨rfl, rfl⟩) hp).2, data, hdata⟩

/-- After any commit, the same configuration can be committed without modules. -/
theorem commit_configTree_succeeds (h : Settled desired d) {data : Bytes}
    (hdata : d.contents configFile = some data) :
    ((commit (configTree data)).run exec d).1.2 = none := by
  have hplaced : ∀ path ∈ configTree data, d.contents path = (configTree data).lookup path := by
    intro path hpath
    rw [mem_configTree.mp hpath, hdata]
    exact (AList.lookup_insert (∅ : ByteMap Bytes)).symm
  have hcommit : (commit (configTree data)).Guarantees (LoggedStep False) (fun _ _ _ => True)
      (fun o _ => o.2 = none) (d, []) := by
    rw [commit_eq (desiredTree_configTree data).accepted]
    apply Prog.Guarantees.bind
    apply Prog.Guarantees.mono
      (upToConfig_quiet (desiredTree_configTree data).config h.tree h.noTemp h.udf hplaced)
    intro o s ho
    obtain ⟨res, err⟩ := o
    obtain ⟨-, rfl, herr⟩ := ho
    have hnone : err = none := herr.resolve_right id
    subst hnone
    exact removeStale_succeeds h _ res []
  obtain ⟨log, hlog⟩ :=
    (Prog.returns_run (MountStep.exec False) (commit (configTree data)) d).logged FsOp.mutates []
  exact hcommit.returns hlog

/-- A file in a directory below the module directory survives it. -/
theorem commit_configTree_keeps {faults : Prop} {d' : Disk} {res : Result} {data bytes : Bytes} {g : Path}
    {f : Name} (hd : d.Tree) (hnode : d.node (g ++ [f]) = some (.file bytes)) (hdeep : 2 ≤ g.length)
    (hrun : (commit (configTree data)).Returns (MountStep faults) d (res, none) d') :
    d'.node (g ++ [f]) = some (.file bytes) := by
  obtain ⟨log, hlog⟩ := hrun.logged FsOp.mutates []
  obtain ⟨-, -, hconv⟩ :=
    ((commit_yields faults (desiredTree_configTree data) hd).returns hlog).success rfl
  refine (hconv.frame _ ?_ ?_ ?_).of_some hnode
  · intro ht
    obtain ⟨g', f', hg', he, -⟩ := ht
    obtain ⟨rfl, -⟩ := List.append_inj' he rfl
    cases hg' with
    | inl hg' => simp [hg'] at hdeep
    | inr hg' => simp [hg'] at hdeep
  · intro hst
    obtain ⟨f', he, -⟩ := hst
    have hlen := congrArg List.length he
    simp only [List.length_append, List.length_cons, List.length_nil] at hlen
    omega
  · intro path hpath hr
    rw [mem_configTree.mp hpath, resolve_configFile, Option.some.injEq] at hr
    have hlen := congrArg List.length hr
    simp only [List.length_append, List.length_cons, List.length_nil] at hlen
    omega

end alone

/-! ### Which trees are placed and cleaned up -/

section spelling
variable {faults : Prop} {desired : ByteMap Bytes} {d : Disk}

/-- A file below the module directory that a later commit cleans up is one of its entries: a commit
of the configuration alone leaves the others behind. -/
theorem entry_of_cleaned (h : Settled desired d) (hread : ReadsBack desired d) (hconfig : configFile ∈ desired)
    (hclean : ∀ next res d', (commit next).Returns (MountStep faults) d (res, none) d' →
      CleanedUp desired next d')
    {path bytes : Bytes} {below : Path} {f : Name} (hpath : path ∈ desired)
    (hp : resolve path = some (udfName :: below ++ [f]))
    (hnode : d.node (udfName :: below ++ [f]) = some (.file bytes)) : below = [] := by
  by_contra hne
  obtain ⟨data, hdata⟩ := Option.isSome_iff_exists.mp (AList.lookup_isSome.mpr hconfig)
  have hnone := commit_configTree_succeeds h ((hread _ hconfig).trans hdata)
  have hrun := Prog.returns_run (MountStep.exec faults) (commit (configTree data)) d
  rw [show ((commit (configTree data)).run exec d).1 = (_, none) from Prod.ext rfl hnone] at hrun
  have hdeep : 2 ≤ (udfName :: below).length := by
    have := List.length_pos_iff.mpr hne
    rw [List.length_cons]
    omega
  have hkept := commit_configTree_keeps h.tree hnode hdeep hrun
  refine hclean _ _ _ hrun path hpath _ hp ?_ bytes hkept
  intro path' hpath' hr
  rw [mem_configTree.mp hpath', resolve_configFile] at hr
  simp at hr

theorem plainlySpelled_of_cleaned (hacc : Accepted desired) (h : Settled desired d)
    (hread : ReadsBack desired d)
    (hclean : ∀ next res d', (commit next).Returns (MountStep faults) d (res, none) d' →
      CleanedUp desired next d') : PlainlySpelled desired := by
  intro path hpath hne
  obtain ⟨dir, f, hs, hw, hbelow⟩ := sited_of_recognized (hacc.recognized path hpath) hne
  obtain ⟨p, hp⟩ := h.resolved path hpath
  obtain ⟨g, rfl, h0, rfl⟩ := hs.of_resolve hp
  obtain ⟨below, rfl⟩ := hbelow g rfl
  obtain ⟨bytes, hbytes⟩ := Option.isSome_iff_exists.mp (AList.lookup_isSome.mpr hpath)
  have hnode : d.node (udfName :: below ++ [f]) = some (.file bytes) := by
    obtain ⟨p', hp', hnode⟩ := contents_eq_some.mp ((hread path hpath).trans hbytes)
    rw [hp, Option.some.injEq] at hp'
    rwa [hp']
  obtain rfl := entry_of_cleaned h hread hacc.config hclean hpath hp hnode
  have hplain : udfPath f ∈ desired := by
    by_contra hnot
    exact h.noStale _ ⟨f, rfl, hw, hnot, bytes, hnode⟩
  have hcontents : d.contents (udfPath f) = d.contents path := by
    simp [Disk.contents, hp, resolve_udfPath h0]
  refine ⟨f, hp, ?_⟩
  rw [← hread _ hplain, hcontents, hread path hpath]

/-- With every module under its plain name, what a later commit does not have is stale for it. -/
theorem PlainlySpelled.cleanedUp (hplain : PlainlySpelled desired) (hacc : Accepted desired)
    {next : ByteMap Bytes} (hconfig : configFile ∈ next) (h : Settled next d) :
    CleanedUp desired next d := by
  intro path hpath p hp hnot data hfile
  by_cases hc : path = configFile
  · exact hnot configFile hconfig (hc ▸ hp)
  · obtain ⟨dir, f, hs, hw, -⟩ := sited_of_recognized (hacc.recognized path hpath) hc
    obtain ⟨g, -, h0, rfl⟩ := hs.of_resolve hp
    obtain ⟨f', hf', -⟩ := hplain.mem hpath hc hp
    have hdir : g ++ [f] = [udfName] ++ [f'] := hf'
    obtain ⟨rfl, -⟩ := List.append_inj' hdir rfl
    by_cases hmem : udfPath f ∈ next
    · exact hnot _ hmem (resolve_udfPath h0)
    · exact h.noStale _ ⟨f, rfl, hw, hmem, data, hfile⟩

end spelling

/-- For a commit that returned no error: every path reads back its bytes and every later commit that
returns no error removes the files it does not have, if and only if the tree lists every module
under its plain name. -/
theorem places_and_cleans_iff (faults : Prop) {desired : ByteMap Bytes} {d d' : Disk} (hd : d.Tree)
    {res : Result} (h : (commit desired).Returns (MountStep faults) d (res, none) d') :
    (ReadsBack desired d' ∧ ∀ next res' d'',
      (commit next).Returns (MountStep faults) d' (res', none) d'' → CleanedUp desired next d'') ↔
    PlainlySpelled desired := by
  have hacc := accepted_of_returns h
  have hsettled := settled_of_returns hd h
  constructor
  · intro hprop
    obtain ⟨hread, hclean⟩ := hprop
    exact plainlySpelled_of_cleaned hacc hsettled hread hclean
  · intro hplain
    refine ⟨hsettled.placed hplain, ?_⟩
    intro next res' d'' hnext
    have hnext' := settled_of_returns hsettled.tree hnext
    exact hplain.cleanedUp hacc (accepted_of_returns hnext).config hnext'

/-- A tree with one module, under its plain name. -/
def plainTree : ByteMap Bytes :=
  [⟨configFile, []⟩, ⟨ascii "udf/x.wasm", [1]⟩].toAList

theorem places_and_cleans_plainTree :
    ReadsBack plainTree ((commit plainTree).run exec ∅).2 ∧ ∀ next res' d'',
      (commit next).Returns (MountStep False) ((commit plainTree).run exec ∅).2 (res', none) d'' →
        CleanedUp plainTree next d'' := by
  have hnone : ((commit plainTree).run exec ∅).1.2 = none := by decide +kernel
  have hrun := Prog.returns_run (MountStep.exec False) (commit plainTree) ∅
  rw [show ((commit plainTree).run exec ∅).1 = (_, none) from Prod.ext rfl hnone] at hrun
  refine (places_and_cleans_iff False (Disk.tree_of_entries (by decide)) hrun).mpr ?_
  intro path hpath hne
  have hmod : path = ascii "udf/x.wasm" := by
    have hkeys : path ∈ [configFile, ascii "udf/x.wasm"] := hpath
    simpa [hne] using hkeys
  exact ⟨⟨ascii "x.wasm", by decide⟩, by rw [hmod]; decide +kernel, by rw [hmod]; decide +kernel⟩

/-- A tree with a module in a directory of its own. -/
def nestedTree : ByteMap Bytes :=
  [⟨configFile, []⟩, ⟨ascii "udf/sub/x.wasm", [1]⟩].toAList

/-- The mount after its commit. -/
def afterNested : Disk := ((commit nestedTree).run exec ∅).2

/-- A tree with a module whose path has an empty segment. -/
def doubledTree : ByteMap Bytes :=
  [⟨configFile, []⟩, ⟨ascii "udf//x.wasm", [1]⟩].toAList

/-- On an empty mount where nothing fails: the nested module outlives a later commit without it, and
the module with the empty segment is removed by the commit that placed it.  No error is returned. -/
theorem accepted_but_not_cleaned :
    ((commit nestedTree).run exec ∅).1.2 = none ∧
    ((commit (configTree [])).run exec afterNested).1.2 = none ∧
    ¬CleanedUp nestedTree (configTree []) ((commit (configTree [])).run exec afterNested).2 ∧
    ((commit doubledTree).run exec ∅).1.2 = none ∧
    ¬ReadsBack doubledTree ((commit doubledTree).run exec ∅).2 := by
  refine ⟨by decide +kernel, by decide +kernel, ?_, by decide +kernel, ?_⟩
  · intro hclean
    have hresolve : resolve (ascii "udf/sub/x.wasm") =
        some [udfName, ⟨ascii "sub", by decide⟩, ⟨ascii "x.wasm", by decide⟩] := by decide +kernel
    refine hclean (ascii "udf/sub/x.wasm") (by decide +kernel) _ hresolve ?_ [1] (by decide +kernel)
    intro path hpath
    rw [mem_configTree.mp hpath, resolve_configFile]
    simp
  · intro hread
    exact absurd (hread (ascii "udf//x.wasm") (by decide +kernel)) (by decide +kernel)

end McGateway.Operator
