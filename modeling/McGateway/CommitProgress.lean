import McGateway.CommitConvergence

/-! # Commits without obstacles

`commit_yields` says what a commit has done if it returns no error.  Here it is when it returns none:
on a `Plain` mount, whose only directories are the root and `udf`, a commit during which no operation
fails succeeds (`commit_noError`), and the same commit again finds nothing to do
(`commit_idempotent`).

Nothing a commit does makes the mount less plain, failed operations included (`Plain.step`), so this
applies after every history of commits that began on a plain mount. -/

namespace McGateway.Operator

open Bytes (ascii hasPrefix hasSuffix sortBy)

/-! ### Plain mounts -/

/-- The path of an entry of the root or of the module directory, and not that directory itself. -/
def PlainEntry (p : Path) : Prop :=
  ∃ (g : Path) (f : Name), (g = [] ∨ g = [udfName]) ∧ p = g ++ [f] ∧ 0 ∉ f.1 ∧ p ≠ [udfName]

/-- Regular files in the root and in the module directory, and nothing else. -/
structure Plain (d : Disk) : Prop where
  tree : d.Tree
  dirs : ∀ p, d.node p = some .dir → p = [] ∨ p = [udfName]
  files : ∀ p data, d.node p = some (.file data) → PlainEntry p

section plain
variable {d d' : Disk} {p q g : Path} {name oldname newname data : Bytes}

/-- The directories above and including one of the two. -/
theorem prefix_of_dir (hg : g = [] ∨ g = [udfName]) (hq : q <+: g) : q = [] ∨ q = [udfName] := by
  cases hg with
  | inl hg => exact Or.inl (List.prefix_nil.mp (hg ▸ hq))
  | inr hg =>
      rw [hg, List.prefix_cons_iff] at hq
      rcases hq with hnil | ⟨t, ht, hprefix⟩
      · exact Or.inl hnil
      · rw [List.prefix_nil.mp hprefix] at ht
        exact Or.inr ht

theorem PlainEntry.ne_nil (h : PlainEntry p) : p ≠ [] := by
  obtain ⟨g, f, -, rfl, -⟩ := h
  simp

theorem PlainEntry.dropLast (h : PlainEntry p) : p.dropLast = [] ∨ p.dropLast = [udfName] := by
  obtain ⟨g, f, hg, rfl, -⟩ := h
  rwa [List.dropLast_concat]

/-- Above an entry there are only the two directories. -/
theorem PlainEntry.above (h : PlainEntry p) (hq : q <+: p) (hne : q ≠ p) : q = [] ∨ q = [udfName] := by
  obtain ⟨g, f, hg, rfl, -⟩ := h
  exact prefix_of_dir hg ((List.prefix_concat_iff.mp hq).resolve_left hne)

theorem Plain.not_dir (h : Plain d) (hp : PlainEntry p) : d.node p ≠ some .dir := by
  intro hdir
  obtain ⟨g, f, -, -, -, hne⟩ := id hp
  cases h.dirs p hdir with
  | inl hnil => exact hp.ne_nil hnil
  | inr hudf => exact hne hudf

theorem Plain.not_file (h : Plain d) (hg : g = [] ∨ g = [udfName]) : d.node g ≠ some (.file data) := by
  intro hfile
  obtain ⟨g', f, -, -, -, hne⟩ := h.files g data hfile
  cases hg with
  | inl hg =>
      rw [hg] at hfile
      cases hfile
  | inr hg => exact hne hg

/-- No regular file is in the way of either directory. -/
theorem Plain.no_file_above (h : Plain d) (hg : g = [] ∨ g = [udfName]) (hq : q ∈ g.inits) :
    (d.node q matches some (.file _)) = false := by
  have hq' := prefix_of_dir hg ((List.mem_inits q g).mp hq)
  cases hn : d.node q with
  | none => rfl
  | some n =>
      cases n with
      | dir => rfl
      | file data => exact absurd hn (h.not_file hq')

theorem plain_empty : Plain ∅ := by
  refine ⟨?_, ?_, ?_⟩
  · intro p f n hn
    simp [Disk.node] at hn
  · intro p hp
    by_cases hnil : p = []
    · exact Or.inl hnil
    · simp [Disk.node, hnil] at hp
  · intro p data hp
    by_cases hnil : p = []
    · simp [Disk.node, hnil] at hp
    · simp [Disk.node, hnil] at hp

theorem Plain.mkdirAll (h : Plain d) (hg : g = [] ∨ g = [udfName]) :
    ∃ d', d.mkdirAll g = some d' ∧ Plain d' ∧ d'.node g = some .dir ∧
      ∀ q, q ≠ [udfName] → d'.node q = d.node q := by
  obtain ⟨d', hd'⟩ : ∃ d', d.mkdirAll g = some d' := by
    unfold Disk.mkdirAll
    rw [if_neg]
    · exact ⟨_, rfl⟩
    · rw [List.any_eq_true]
      rintro ⟨q, hq, hfile⟩
      exact absurd hfile (Bool.eq_false_iff.mp (h.no_file_above hg hq))
  -- a directory that is new is one of the two
  have hnew : ∀ q, d'.node q = d.node q ∨ (d'.node q = some .dir ∧ (q = [] ∨ q = [udfName])) := by
    intro q
    rcases Disk.mkdirAll_node hd' q with hold | ⟨-, hdir, hq⟩
    · exact Or.inl hold
    · refine Or.inr ⟨hdir, ?_⟩
      cases hg with
      | inl hg => exact Or.inl (List.prefix_nil.mp (hg ▸ hq))
      | inr hg =>
          rw [hg, List.prefix_cons_iff] at hq
          rcases hq with hnil | ⟨t, ht, hprefix⟩
          · exact Or.inl hnil
          · rw [List.prefix_nil.mp hprefix] at ht
            exact Or.inr ht
  refine ⟨d', hd', ⟨?_, ?_, ?_⟩, Disk.mkdirAll_dir hd' (List.prefix_refl g), ?_⟩
  · intro q f n hn
    rcases hnew (q ++ [f]) with hold | ⟨-, hq⟩
    · rw [hold] at hn
      have hdir := h.tree q f n hn
      rcases hnew q with hold' | ⟨hdir', -⟩
      · rw [hold', hdir]
      · exact hdir'
    · have hq : q = [] := by
        cases hq with
        | inl hq => simp at hq
        | inr hq => simpa using congrArg List.dropLast hq
      subst hq
      rfl
  · intro q hq
    rcases hnew q with hold | ⟨-, hq'⟩
    · exact h.dirs q (hold ▸ hq)
    · exact hq'
  · intro q data hq
    rcases hnew q with hold | ⟨hdir, -⟩
    · exact h.files q data (hold ▸ hq)
    · rw [hdir] at hq
      cases hq
  · intro q hq
    rcases hnew q with hold | ⟨hdir, hq'⟩
    · exact hold
    · rw [hq'.resolve_right hq]
      rfl

theorem Plain.insert (h : Plain d) (hp : PlainEntry p) (hparent : d.node p.dropLast = some .dir) :
    Plain (AList.insert p (.file data) d) := by
  have hself : Disk.node (AList.insert p (.file data) d) p = some (.file data) :=
    Disk.node_insert_self hp.ne_nil
  have hother : ∀ q, q ≠ p → Disk.node (AList.insert p (.file data) d) q = d.node q :=
    fun q hq => Disk.node_insert_ne hq
  refine ⟨?_, ?_, ?_⟩
  · intro q f n hn
    by_cases hqp : q ++ [f] = p
    · have hq : q ≠ p := by
        intro he
        have hlen := congrArg List.length (hqp.trans he.symm)
        simp at hlen
      rw [hother q hq]
      rwa [← hqp, List.dropLast_concat] at hparent
    · rw [hother _ hqp] at hn
      have hdir := h.tree q f n hn
      have hq : q ≠ p := by
        rintro rfl
        exact h.not_dir hp hdir
      rwa [hother q hq]
  · intro q hq
    by_cases hqp : q = p
    · rw [hqp, hself] at hq
      cases hq
    · exact h.dirs q (hother q hqp ▸ hq)
  · intro q data' hq
    by_cases hqp : q = p
    · exact hqp ▸ hp
    · exact h.files q data' (hother q hqp ▸ hq)

theorem Plain.erase (h : Plain d) (hp : PlainEntry p) : Plain (AList.erase p d) := by
  have hsub : ∀ q n, Disk.node (AList.erase p d) q = some n → q ≠ p ∧ d.node q = some n := by
    intro q n hn
    by_cases hqp : q = p
    · rw [hqp, Disk.node_erase_self hp.ne_nil] at hn
      cases hn
    · exact ⟨hqp, Disk.node_erase_ne hqp ▸ hn⟩
  refine ⟨?_, ?_, ?_⟩
  · intro q f n hn
    have hdir := h.tree q f n (hsub _ _ hn).2
    have hq : q ≠ p := by
      rintro rfl
      exact h.not_dir hp hdir
    rwa [Disk.node_erase_ne hq]
  · intro q hq
    exact h.dirs q (hsub _ _ hq).2
  · intro q data' hq
    exact h.files q data' (hsub _ _ hq).2

/-! ### Operations on a plain mount -/

theorem Plain.writeFile (h : Plain d) (hname : resolve name = some p) (hp : PlainEntry p) (data : Bytes) :
    ∃ d', writeFile name data d = (.ok (), d') ∧ Plain d' ∧ d'.node p = some (.file data) ∧
      d'.node p.dropLast = some .dir := by
  obtain ⟨d₁, hmade, hplain, hparent, -⟩ := h.mkdirAll hp.dropLast
  have hnot := hplain.not_dir hp
  refine ⟨d₁.insert p (.file data), ?_, hplain.insert hp hparent, Disk.node_insert_self hp.ne_nil, ?_⟩
  · unfold Operator.writeFile
    simp only [hname, hmade]
  · have hne : p.dropLast ≠ p := by
      intro he
      exact hnot (he ▸ hparent)
    rw [Disk.node_insert_ne hne, hparent]

theorem Plain.rename_file (h : Plain d) (hp : resolve oldname = some p) (hq : resolve newname = some q)
    (hpe : PlainEntry p) (hqe : PlainEntry q) (hfile : d.node p = some (.file data))
    (hparent : d.node q.dropLast = some .dir) :
    ∃ d', rename oldname newname d = (.ok (), d') ∧ Plain d' := by
  have hkept : Disk.node (AList.erase p d) q.dropLast = some .dir := by
    have hne : q.dropLast ≠ p := by
      intro he
      exact h.not_dir hpe (he ▸ hparent)
    rw [Disk.node_erase_ne hne, hparent]
  refine ⟨(d.erase p).insert q (.file data), ?_, (h.erase hpe).insert hqe hkept⟩
  simp only [rename, hp, hq, renamePath, hfile, hparent]
  cases hn : d.node q with
  | none => rfl
  | some n =>
      cases n with
      | dir => exact absurd hn (h.not_dir hqe)
      | file b => rfl

theorem Plain.rename (h : Plain d) (hp : resolve oldname = some p) (hq : resolve newname = some q)
    (hpe : PlainEntry p) (hqe : PlainEntry q) : Plain (rename oldname newname d).2 := by
  cases hn : d.node p with
  | none =>
      simp only [Operator.rename, hp, hq, renamePath, hn]
      exact h
  | some n =>
      cases n with
      | dir => exact absurd hn (h.not_dir hpe)
      | file data =>
          cases hparent : d.node q.dropLast with
          | none =>
              simp only [Operator.rename, hp, hq, renamePath, hn, hparent]
              exact h
          | some n =>
              cases n with
              | file b => exact absurd hparent (h.not_file hqe.dropLast)
              | dir =>
                  obtain ⟨d', hd', hplain⟩ := h.rename_file hp hq hpe hqe hn hparent
                  rw [hd']
                  exact hplain

theorem Plain.readDir (h : Plain d) (hg : g = [] ∨ g = [udfName]) (hname : resolve name = some g) :
    readDir name d = .ok (d.files g) := by
  obtain ⟨names, hnames⟩ : ∃ names, Operator.readDir name d = .ok names := by
    cases hn : d.node g with
    | none =>
        have hm : d.missing g = .notExist := by
          rw [Disk.missing, if_neg]
          rw [List.any_eq_true]
          rintro ⟨q, hq, hfile⟩
          exact absurd hfile (Bool.eq_false_iff.mp (h.no_file_above hg hq))
        simp [Operator.readDir, hname, hn, hm]
    | some n =>
        cases n with
        | dir => simp [Operator.readDir, hname, hn]
        | file b => exact absurd hn (h.not_file hg)
  rw [hnames, readDir_eq_files h.tree hname hnames]

/-- The operations of a commit: what is written or renamed is an entry of one of the two
directories. -/
def Placed : FsOp → Prop
  | .writeFile name _ => ∃ p, resolve name = some p ∧ PlainEntry p
  | .rename oldname newname =>
      (∃ p, resolve oldname = some p ∧ PlainEntry p) ∧ ∃ q, resolve newname = some q ∧ PlainEntry q
  | _ => True

/-- The mount stays plain, whatever fails, as long as it stays a tree. -/
theorem Plain.step {op : FsOp} {a : op.Answer} (h : Plain d) (hop : Placed op) (hstep : FsStep op d a d')
    (htree : d'.Tree) : Plain d' := by
  have hgone : (∀ q n, d'.node q = some n → d.node q = some n) → Plain d' := by
    intro hsub
    exact ⟨htree, fun q hq => h.dirs q (hsub q _ hq), fun q data hq => h.files q data (hsub q _ hq)⟩
  cases op with
  | readFile name => exact hstep.readFile_cases.1 ▸ h
  | readDir name => exact hstep.readDir_cases.1 ▸ h
  | writeFile name data =>
      obtain ⟨p, hname, hp⟩ := hop
      cases hstep with
      | ok =>
          obtain ⟨d', hd', hplain, -⟩ := h.writeFile hname hp data
          show Plain (Operator.writeFile name data d).2
          rw [hd']
          exact hplain
      | writeFileNot _ _ _ e => exact h
      | writeFile _ _ _ _ e p' hp' hch hat =>
          obtain rfl : p = p' := Option.some.inj (hname.symm.trans hp')
          refine ⟨htree, ?_, ?_⟩
          · intro q hq
            by_cases hqp : q = p
            · rcases hqp ▸ hat with hold | ⟨part, hpart⟩
              · exact absurd (hold ▸ hq) (h.not_dir (hqp ▸ hp))
              · rw [hpart] at hq
                cases hq
            · rcases hch q hqp with hold | ⟨-, -, hpre⟩
              · exact h.dirs q (hold ▸ hq)
              · exact hp.above hpre hqp
          · intro q data' hq
            by_cases hqp : q = p
            · exact hqp ▸ hp
            · rcases hch q hqp with hold | ⟨-, hdir, -⟩
              · exact h.files q data' (hold ▸ hq)
              · rw [hdir] at hq
                cases hq
  | rename oldname newname =>
      obtain ⟨⟨p, hp, hpe⟩, q, hq, hqe⟩ := hop
      cases hstep with
      | ok => exact h.rename hp hq hpe hqe
      | rename _ _ _ _ e hd =>
          cases hd with
          | inl hd => exact hd ▸ h
          | inr hd => exact hd ▸ h.rename hp hq hpe hqe
  | remove name =>
      rcases hstep.remove_cases with ⟨rfl, -⟩ | ⟨p, -, hnone, hframe⟩
      · exact h
      · apply hgone
        intro q n hq
        by_cases hqp : q = p
        · rw [hqp, hnone] at hq
          cases hq
        · rwa [← hframe q hqp]

/-- So does an operation that does not fail. -/
theorem Plain.exec {op : FsOp} (h : Plain d) (hop : Placed op) : Plain (exec op d).2 := by
  cases op with
  | readFile name => exact h
  | readDir name => exact h
  | writeFile name data =>
      obtain ⟨p, hname, hp⟩ := hop
      obtain ⟨d', hd', hplain, -⟩ := h.writeFile hname hp data
      show Plain (Operator.writeFile name data d).2
      rw [hd']
      exact hplain
  | rename oldname newname =>
      obtain ⟨⟨p, hp, hpe⟩, q, hq, hqe⟩ := hop
      exact h.rename hp hq hpe hqe
  | remove name =>
      show Plain (Operator.remove name d).2
      unfold Operator.remove
      cases hr : resolve name with
      | none => exact h
      | some p =>
          cases hn : d.node p with
          | none => simpa only [hn] using h
          | some n =>
              cases n with
              | file data => simpa only [hn] using h.erase (h.files p data hn)
              | dir =>
                  simp only [hn]
                  split_ifs with hempty
                  · -- an empty directory: nothing is left without its parent
                    have hsub : ∀ q n, Disk.node (AList.erase p d) q = some n → d.node q = some n := by
                      intro q n hq
                      by_cases hqp : q = p
                      · rw [hqp, Disk.node_erase_self hempty.1] at hq
                        cases hq
                      · rwa [Disk.node_erase_ne hqp] at hq
                    refine ⟨?_, fun q hq => h.dirs q (hsub _ _ hq), fun q b hq => h.files q b (hsub _ _ hq)⟩
                    intro q f n hq
                    have hchild := hsub _ _ hq
                    have hqp : q ≠ p := by
                      rintro rfl
                      have hmem : (f, n) ∈ d.children q :=
                        mem_children.mpr (by simpa [Disk.node] using hchild)
                      rw [List.isEmpty_iff.mp hempty.2] at hmem
                      cases hmem
                    rw [Disk.node_erase_ne hqp]
                    exact h.tree q f n hchild
                  · exact h

end plain

/-! ### The operations of a commit -/

section calls
variable {K : FsOp → Prop}

theorem removeLoop_callsOnly (hremove : ∀ name, K (.remove name)) (sel : Bytes → Bool) (dir : Bytes)
    (record : Result → Bytes → Result) (err : Bytes → FsError → CommitError) :
    ∀ (names : List Bytes) (res : Result), (removeLoop sel dir record err names res).CallsOnly K
  | [], _ => trivial
  | name :: names, res => by
      unfold removeLoop
      split_ifs
      · apply Prog.CallsOnly.bind (.ask (hremove _))
        intro removed
        cases removed with
        | error e => trivial
        | ok u => exact removeLoop_callsOnly hremove sel dir record err names _
      · exact removeLoop_callsOnly hremove sel dir record err names res

theorem andThen_callsOnly {p : Prog FS Outcome} {f : Result → Prog FS Outcome} (hp : p.CallsOnly K)
    (hf : ∀ res, (f res).CallsOnly K) : (andThen p f).CallsOnly K := by
  apply hp.bind
  intro out
  split_ifs
  · trivial
  · exact hf out.1

theorem sweepDirs_callsOnly (hlist : ∀ name, K (.readDir name)) (hremove : ∀ name, K (.remove name)) :
    ∀ (dirs : List Bytes) (res : Result), (sweepDirs dirs res).CallsOnly K
  | [], _ => trivial
  | dir :: dirs, res => by
      apply Prog.CallsOnly.bind (.ask (hlist dir))
      intro listed
      cases listed with
      | error e => trivial
      | ok names =>
          show Prog.CallsOnly K (andThen (sweepNames dir (sortBy id names) res) (sweepDirs dirs))
          rw [sweepNames_eq]
          exact andThen_callsOnly (removeLoop_callsOnly hremove _ _ _ _ _ res)
            (sweepDirs_callsOnly hlist hremove dirs)

theorem stage_callsOnly {path data : Bytes} (hwrite : K (.writeFile (path ++ tmpSuffix) data))
    (hrename : K (.rename (path ++ tmpSuffix) path)) : (stage path data).CallsOnly K := by
  apply Prog.CallsOnly.bind (.ask hwrite)
  intro staged
  cases staged with
  | error e => trivial
  | ok u =>
      apply Prog.CallsOnly.bind (.ask hrename)
      intro renamed
      cases renamed with
      | error e => trivial
      | ok u => trivial

theorem writeIfChanged_callsOnly {path data : Bytes} (hread : K (.readFile path))
    (hwrite : K (.writeFile (path ++ tmpSuffix) data)) (hrename : K (.rename (path ++ tmpSuffix) path)) :
    (writeIfChanged path data).CallsOnly K := by
  apply Prog.CallsOnly.bind (.ask hread)
  intro read
  cases read with
  | error e =>
      cases e with
      | notExist => exact stage_callsOnly hwrite hrename
      | other => trivial
  | ok cur =>
      show Prog.CallsOnly K (if cur = data then pure (.ok false) else stage path data)
      split_ifs
      · trivial
      · exact stage_callsOnly hwrite hrename

/-- The files of the tree may be staged. -/
structure Stageable (K : FsOp → Prop) (paths : List Bytes) : Prop where
  read : ∀ path ∈ paths, K (.readFile path)
  write : ∀ path ∈ paths, ∀ data, K (.writeFile (path ++ tmpSuffix) data)
  rename : ∀ path ∈ paths, K (.rename (path ++ tmpSuffix) path)

theorem writeModules_callsOnly (desired : ByteMap Bytes) : ∀ (paths : List Bytes) (res : Result),
    Stageable K paths → (writeModules desired paths res).CallsOnly K
  | [], _, _ => trivial
  | path :: paths, res, h => by
      have hpaths : Stageable K paths :=
        ⟨fun q hq => h.read q (.tail _ hq), fun q hq => h.write q (.tail _ hq),
          fun q hq => h.rename q (.tail _ hq)⟩
      have hpath := List.mem_cons_self (a := path) (l := paths)
      unfold writeModules
      split_ifs
      · apply Prog.CallsOnly.bind
          (writeIfChanged_callsOnly (h.read _ hpath) (h.write _ hpath _) (h.rename _ hpath))
        intro changed
        cases changed with
        | error e => trivial
        | ok changed => exact writeModules_callsOnly desired paths _ hpaths
      · exact writeModules_callsOnly desired paths res hpaths

/-- A commit lists, reads, removes, and stages the files of its tree. -/
theorem commit_callsOnly {desired : ByteMap Bytes} (hlist : ∀ name, K (.readDir name))
    (hremove : ∀ name, K (.remove name)) (hstage : Stageable K (sortedKeys desired)) :
    (commit desired).CallsOnly K := by
  unfold commit
  dsimp only
  split_ifs with hconfig
  · cases (sortedKeys desired).find? fun path => !recognized path with
    | some path => trivial
    | none =>
        have hmem : configFile ∈ sortedKeys desired := mem_sortedKeys.mpr hconfig
        have hconf : ∀ res, (writeConfig desired res).CallsOnly K := by
          intro res
          apply Prog.CallsOnly.bind (writeIfChanged_callsOnly (hstage.read _ hmem) (hstage.write _ hmem _)
            (hstage.rename _ hmem))
          intro changed
          cases changed with
          | error e => trivial
          | ok changed => trivial
        have hstale : ∀ res, (removeStale desired res).CallsOnly K := by
          intro res
          apply Prog.CallsOnly.bind (.ask (hlist _))
          intro listed
          cases listed with
          | error e => trivial
          | ok names =>
              show Prog.CallsOnly K (removeNames desired (sortBy id names) res)
              rw [removeNames_eq]
              exact removeLoop_callsOnly hremove _ _ _ _ _ res
        exact andThen_callsOnly (andThen_callsOnly (andThen_callsOnly (sweepDirs_callsOnly hlist hremove _ _)
          fun res => writeModules_callsOnly desired _ res hstage) hconf) hstale
  · trivial

end calls

/-- The entry of a desired file, and that of its temp file. -/
theorem FlatTree.plainEntry {desired : ByteMap Bytes} (h : FlatTree desired) {path : Bytes}
    (hpath : path ∈ desired) : ∃ g f, (g = [] ∨ g = [udfName]) ∧
      resolve path = some (g ++ [f]) ∧ PlainEntry (g ++ [f]) ∧
      resolve (path ++ tmpSuffix) = some (g ++ [f.tmp]) ∧ PlainEntry (g ++ [f.tmp]) := by
  by_cases hc : path = configFile
  · subst hc
    refine ⟨[], configName, Or.inl rfl, resolve_configFile, ⟨[], configName, Or.inl rfl, rfl, ?_, ?_⟩,
      resolve_configFile_tmp, ⟨[], configName.tmp, Or.inl rfl, rfl, ?_, ?_⟩⟩
    all_goals decide
  · obtain ⟨f, h0, -, rfl⟩ := h.flat path hpath hc
    have h0' : 0 ∉ f.tmp.1 := fun hmem => h0 (nul_mem_tmp.mp hmem)
    exact ⟨[udfName], f, Or.inr rfl, resolve_udfPath h0, ⟨[udfName], f, Or.inr rfl, rfl, h0, by simp⟩,
      resolve_udfPath_tmp h0, ⟨[udfName], f.tmp, Or.inr rfl, rfl, h0', by simp⟩⟩

theorem commit_placed {desired : ByteMap Bytes} (h : FlatTree desired) : (commit desired).CallsOnly Placed := by
  refine commit_callsOnly (fun _ => trivial) (fun _ => trivial) ⟨fun _ _ => trivial, ?_, ?_⟩
  · intro path hpath data
    obtain ⟨g, f, -, -, -, htmp, hentry⟩ := h.plainEntry (mem_sortedKeys.mp hpath)
    exact ⟨_, htmp, hentry⟩
  · intro path hpath
    obtain ⟨g, f, -, hat, hentry, htmp, hentry'⟩ := h.plainEntry (mem_sortedKeys.mp hpath)
    exact ⟨⟨_, htmp, hentry'⟩, _, hat, hentry⟩

/-! ### Success -/

/-- No operation fails, and the mount is plain in the end. -/
def Succeeds {α : Type} (good : α → Prop) (p : Prog FS α) (d : Disk) : Prop :=
  p.Guarantees (MountStep False) (fun _ _ _ => True) (fun a d' => good a ∧ Plain d') d

/-- The commit, or the part of it, has returned no error. -/
def NoError (o : Outcome) : Prop := o.2 = none

section success
variable {α β : Type} {d : Disk}

theorem Succeeds.ret {good : α → Prop} {a : α} (ha : good a) (hd : Plain d) : Succeeds good (.ret a) d :=
  ⟨ha, hd⟩

theorem Succeeds.call {good : α → Prop} {op : FsOp} {k : op.Answer → Prog FS α}
    (h : Succeeds good (k (exec op d).1) (exec op d).2) : Succeeds good (.call op k) d := by
  intro a d' hstep
  cases hstep with
  | inl hexec =>
      obtain ⟨rfl, rfl⟩ := Prod.mk.inj hexec
      exact ⟨trivial, h⟩
  | inr hfault => exact hfault.1.elim

theorem Succeeds.bind {good : α → Prop} {good' : β → Prop} {p : Prog FS α} {f : α → Prog FS β}
    (hp : Succeeds good p d) (hf : ∀ a d', good a → Plain d' → Succeeds good' (f a) d') :
    Succeeds good' (p >>= f) d := by
  apply Prog.Guarantees.bind
  apply Prog.Guarantees.mono hp
  rintro a d' ⟨ha, hd'⟩
  exact hf a d' ha hd'

theorem Succeeds.andThen {p : Prog FS Outcome} {f : Result → Prog FS Outcome} (hp : Succeeds NoError p d)
    (hf : ∀ res d', Plain d' → Succeeds NoError (f res) d') : Succeeds NoError (andThen p f) d := by
  apply hp.bind
  intro o d' ho hd'
  rw [NoError] at ho
  rw [ho]
  exact hf o.1 d' hd'

theorem removeLoop_noError {sel : Bytes → Bool} {dir : Bytes} {g : Path}
    {record : Result → Bytes → Result} {err : Bytes → FsError → CommitError}
    (hdir : dir = [] ∧ g = [] ∨ dir = udfDir ∧ g = [udfName]) : ∀ (names : List Bytes) (res : Result)
    (d : Disk), Plain d → names.Nodup →
    (∀ n ∈ names, ∃ f : Name, f.1 = n ∧ ∃ data, d.node (g ++ [f]) = some (.file data)) →
      Succeeds NoError (removeLoop sel dir record err names res) d
  | [], _, _, hd, _, _ => .ret rfl hd
  | name :: names, res, d, hd, hnodup, hfiles => by
      obtain ⟨hnew, hnodup'⟩ := List.nodup_cons.mp hnodup
      obtain ⟨⟨f, rfl, data, hfile⟩, hfiles'⟩ := List.forall_mem_cons.mp hfiles
      have hentry := hd.files _ _ hfile
      have h0 : 0 ∉ f.1 := by
        obtain ⟨g', f', -, he, h0, -⟩ := hentry
        have hff : f = f' := by simpa using congrArg List.getLast? he
        exact hff ▸ h0
      have hresolve : resolve (entryPath dir f.1) = some (g ++ [f]) := by
        rcases hdir with ⟨rfl, rfl⟩ | ⟨rfl, rfl⟩
        · exact resolve_entry f h0
        · exact resolve_udfPath h0
      unfold removeLoop
      split_ifs with hsel
      · have hexec : exec (.remove (entryPath dir f.1)) d = (.ok (), d.erase (g ++ [f])) := by
          simp [exec, remove, hresolve, hfile]
        apply Succeeds.call
        rw [hexec]
        apply removeLoop_noError hdir names _ _ (hd.erase hentry) hnodup'
        intro n hn
        obtain ⟨f', rfl, data', hfile'⟩ := hfiles' n hn
        refine ⟨f', rfl, data', ?_⟩
        rw [Disk.node_erase_ne, hfile']
        intro he
        have hff : f' = f := by simpa using he
        exact hnew (hff ▸ hn)
      · exact removeLoop_noError hdir names res d hd hnodup' hfiles'

/-- Listing one of the two directories and removing some of its files. -/
theorem list_remove_succeeds (sel : Bytes → Bool) (record : Result → Bytes → Result)
    (err : Bytes → FsError → CommitError) {dir : Bytes} {g : Path}
    (hdir : dir = [] ∧ g = [] ∨ dir = udfDir ∧ g = [udfName]) (hd : Plain d) (res : Result) :
    (exec (.readDir dir) d) = (.ok (d.files g), d) ∧
      Succeeds NoError (removeLoop sel dir record err (sortBy id (d.files g)) res) d := by
  have hg : g = [] ∨ g = [udfName] := hdir.imp (fun h => h.2) fun h => h.2
  have hname : resolve dir = some g := by
    rcases hdir with ⟨rfl, rfl⟩ | ⟨rfl, rfl⟩
    · exact resolve_nil
    · exact resolve_udfDir
  refine ⟨?_, ?_⟩
  · show (readDir dir d, d) = _
    rw [hd.readDir hg hname]
  · rw [sortBy_files]
    have hnodup : (d.files g).Nodup := by
      simpa using Bytes.nodup_of_pairwise_lt id (files_pairwise_lt d g)
    exact removeLoop_noError hdir _ _ _ hd hnodup fun n hn => mem_files.mp hn

theorem sweepDirs_succeeds : ∀ (dirs : List Bytes) (res : Result) (d : Disk),
    (∀ dir ∈ dirs, dir = [] ∨ dir = udfDir) → Plain d → Succeeds NoError (sweepDirs dirs res) d
  | [], _, _, _, hd => .ret rfl hd
  | dir :: dirs, res, d, hdirs, hd => by
      obtain ⟨hdir, hdirs'⟩ := List.forall_mem_cons.mp hdirs
      obtain ⟨g, hg⟩ : ∃ g, dir = [] ∧ g = [] ∨ dir = udfDir ∧ g = [udfName] := by
        cases hdir with
        | inl hdir => exact ⟨[], Or.inl ⟨hdir, rfl⟩⟩
        | inr hdir => exact ⟨[udfName], Or.inr ⟨hdir, rfl⟩⟩
      obtain ⟨hlist, hsweep⟩ := list_remove_succeeds (fun name => hasSuffix name tmpSuffix)
        (fun res path => { res with cleanedTemp := res.cleanedTemp ++ [path] }) .sweep hg hd res
      apply Succeeds.call
      rw [hlist]
      show Succeeds NoError (andThen (sweepNames dir (sortBy id (d.files g)) res) (sweepDirs dirs)) d
      rw [sweepNames_eq]
      exact hsweep.andThen fun res d' hd' => sweepDirs_succeeds dirs res d' hdirs' hd'

/-- A file of the tree is compared, and written if it differs. -/
theorem writeIfChanged_noError {desired : ByteMap Bytes} (hflat : FlatTree desired) {path : Bytes}
    (hpath : path ∈ desired) (hd : Plain d) (data : Bytes) :
    Succeeds (fun r => ∃ changed, r = .ok changed) (writeIfChanged path data) d := by
  obtain ⟨g, f, hg, hat, hentry, htmp, hentry'⟩ := hflat.plainEntry hpath
  have hstage : Succeeds (fun r => ∃ changed, r = .ok changed) (stage path data) d := by
    obtain ⟨d₁, hwrite, hd₁, hfile, hparent⟩ := hd.writeFile htmp hentry' data
    have hdir : d₁.node (g ++ [f]).dropLast = some .dir := by
      rw [List.dropLast_concat] at hparent ⊢
      exact hparent
    obtain ⟨d₂, hrename, hd₂⟩ := hd₁.rename_file htmp hat hentry' hentry hfile hdir
    apply Succeeds.call
    rw [show exec (.writeFile (path ++ tmpSuffix) data) d = (.ok (), d₁) from hwrite]
    apply Succeeds.call
    rw [show exec (.rename (path ++ tmpSuffix) path) d₁ = (.ok (), d₂) from hrename]
    exact .ret ⟨true, rfl⟩ hd₂
  cases hn : d.node (g ++ [f]) with
  | none =>
      have hmissing : d.missing (g ++ [f]) = .notExist := by
        rw [Disk.missing, if_neg]
        rw [List.any_eq_true]
        rintro ⟨q, hq, hfile⟩
        by_cases hqp : q = g ++ [f]
        · simp [hqp, hn] at hfile
        · have hqg : q <+: g := (List.prefix_concat_iff.mp ((List.mem_inits _ _).mp hq)).resolve_left hqp
          exact absurd hfile (Bool.eq_false_iff.mp (hd.no_file_above hg ((List.mem_inits _ _).mpr hqg)))
      have hread : exec (.readFile path) d = (.error .notExist, d) := by
        simp [exec, readFile, hat, hn, hmissing]
      apply Succeeds.call
      rw [hread]
      exact hstage
  | some n =>
      cases n with
      | dir => exact absurd hn (hd.not_dir hentry)
      | file cur =>
          have hread : exec (.readFile path) d = (.ok cur, d) := by simp [exec, readFile, hat, hn]
          apply Succeeds.call
          rw [hread]
          show Succeeds _ (if cur = data then pure (.ok false) else stage path data) d
          split_ifs
          · exact .ret ⟨false, rfl⟩ hd
          · exact hstage

theorem writeModules_noError {desired : ByteMap Bytes} (hflat : FlatTree desired) :
    ∀ (paths : List Bytes) (res : Result) (d : Disk), (∀ path ∈ paths, path ∈ desired) → Plain d →
      Succeeds NoError (writeModules desired paths res) d
  | [], _, _, _, hd => .ret rfl hd
  | path :: paths, res, d, hpaths, hd => by
      obtain ⟨hpath, hpaths'⟩ := List.forall_mem_cons.mp hpaths
      unfold writeModules
      split_ifs
      · apply (writeIfChanged_noError hflat hpath hd _).bind
        rintro _ d' ⟨changed, rfl⟩ hd'
        exact writeModules_noError hflat paths _ d' hpaths' hd'
      · exact writeModules_noError hflat paths res d hpaths' hd

theorem writeConfig_noError {desired : ByteMap Bytes} (hflat : FlatTree desired) (res : Result)
    (hd : Plain d) : Succeeds NoError (writeConfig desired res) d := by
  apply (writeIfChanged_noError hflat hflat.config hd _).bind
  rintro _ d' ⟨changed, rfl⟩ hd'
  exact .ret rfl hd'

theorem removeStale_noError {desired : ByteMap Bytes} (res : Result) (hd : Plain d) :
    Succeeds NoError (removeStale desired res) d := by
  obtain ⟨hlist, hremove⟩ := list_remove_succeeds (isStale desired)
    (fun res path => { res with removedModules := res.removedModules ++ [path] }) .removeStale
    (Or.inr ⟨rfl, rfl⟩) hd res
  apply Succeeds.call
  rw [hlist]
  show Succeeds NoError (removeNames desired (sortBy id (d.files [udfName])) res) d
  rw [removeNames_eq]
  exact hremove

/-- On a plain mount a commit of a rendered tree during which nothing fails returns no error. -/
theorem commit_noError {desired : ByteMap Bytes} (hflat : FlatTree desired) (hd : Plain d) :
    Succeeds NoError (commit desired) d := by
  rw [commit_eq hflat.desiredTree.accepted]
  have hsweep : Succeeds NoError (sweepTemp ⟨false, [], [], []⟩) d := by
    apply sweepDirs_succeeds _ _ _ _ hd
    intro dir hdir
    simpa using hdir
  have hmodules : ∀ res d', Plain d' →
      Succeeds NoError (writeModules desired (sortedKeys desired) res) d' :=
    fun res d' hd' => writeModules_noError hflat _ res d' (fun _ => mem_sortedKeys.mp) hd'
  exact ((hsweep.andThen hmodules).andThen fun res d' hd' => writeConfig_noError hflat res hd').andThen
    fun res d' hd' => removeStale_noError res hd'

end success

/-! ### Committing again -/

/-- A mount all of whose entries are the module directory and files in the two directories. -/
theorem plain_of_entries {d : Disk} (htree : d.Tree) (hentries : ∀ e ∈ d.entries,
    e.2 = .dir ∧ e.1 = [udfName] ∨ e.2 ≠ .dir ∧ (e.1.dropLast = [] ∨ e.1.dropLast = [udfName]) ∧
      e.1 ≠ [] ∧ e.1 ≠ [udfName] ∧ ∀ f ∈ e.1, 0 ∉ f.1) : Plain d := by
  have hmem : ∀ p n, d.node p = some n → p ≠ [] → ⟨p, n⟩ ∈ d.entries := by
    intro p n hn hp
    rw [Disk.node, if_neg hp] at hn
    exact AList.mem_lookup_iff.mp hn
  refine ⟨htree, ?_, ?_⟩
  · intro p hdir
    by_cases hp : p = []
    · exact Or.inl hp
    · rcases hentries _ (hmem p _ hdir hp) with ⟨-, hudf⟩ | ⟨hfile, -⟩
      · exact Or.inr hudf
      · exact absurd rfl hfile
  · intro p data hfile
    by_cases hp : p = []
    · rw [hp] at hfile
      cases hfile
    · rcases hentries _ (hmem p _ hfile hp) with ⟨hdir, -⟩ | ⟨-, hg, -, hudf, hnul⟩
      · cases hdir
      · exact ⟨p.dropLast, p.getLast hp, hg, (List.dropLast_append_getLast hp).symm,
          hnul _ (List.getLast_mem hp), hudf⟩

theorem plain_debris : Plain debris :=
  plain_of_entries (Disk.tree_of_entries (by decide +kernel)) (by decide +kernel)

/-- A commit of a rendered tree to a plain mount returns no error unless an operation fails.  The
mutating operations of a commit that returns no error are those of the planned result; the same
commit again makes none, reports an empty result and leaves the mount as it is, and unless the mount
is faulty it returns no error. -/
theorem commit_idempotent (faults : Prop) (desired : ByteMap Bytes) (htree : DesiredTree desired)
    (d : Disk) (hd : d.Tree) :
    (FlatTree desired → Plain d → (∃ o d', (commit desired).Returns (MountStep False) d o d') ∧
      ∀ o d', (commit desired).Returns (MountStep False) d o d' → o.2 = none) ∧
    ∀ d' res log, (commit desired).Returns (LoggedStep faults) (d, []) (res, none) (d', log) →
      log = (planned desired d).ops desired ∧
      ∀ o d'' log', (commit desired).Returns (LoggedStep faults) (d', []) o (d'', log') →
        log' = [] ∧ o.1 = ⟨false, [], [], []⟩ ∧ d'' = d' ∧ (o.2 = none ∨ faults) := by
  refine ⟨?_, ?_⟩
  · intro hflat hplain
    exact ⟨⟨_, _, Prog.returns_run (MountStep.exec False) (commit desired) d⟩,
      fun o d' h => ((commit_noError hflat hplain).returns h).1⟩
  · intro d' res log h
    obtain ⟨hres, hlog, hconv⟩ := ((commit_yields faults htree hd).returns h).success rfl
    simp only at hres hlog hconv
    refine ⟨by rw [hlog, hres], ?_⟩
    intro o d'' log' hagain
    obtain ⟨ho, hs, herr⟩ := (commit_quiet htree hconv).returns hagain
    obtain ⟨hd'', hlog'⟩ := Prod.mk.inj hs
    exact ⟨hlog', ho, hd'', herr⟩

theorem commit_idempotent_debris :
    ∃ res d' log, Plain debris ∧
      (commit (render contestedSnapshot).1).Returns (LoggedStep False) (debris, []) (res, none) (d', log) ∧
      log = (planned (render contestedSnapshot).1 debris).ops (render contestedSnapshot).1 ∧
      log.length = 6 ∧
      (∃ o d'' log', (commit (render contestedSnapshot).1).Returns (LoggedStep False) (d', []) o (d'', log')) ∧
      ∀ o d'' log', (commit (render contestedSnapshot).1).Returns (LoggedStep False) (d', []) o (d'', log') →
        log' = [] ∧ o.1 = ⟨false, [], [], []⟩ ∧ d'' = d' ∧ (o.2 = none ∨ False) := by
  let tree := (render contestedSnapshot).1
  have hflat : FlatTree tree := flatTree_render contestedSnapshot
  obtain ⟨hsucceeds, hops⟩ := commit_idempotent False tree hflat.desiredTree debris plain_debris.tree
  obtain ⟨⟨o, d', hrun⟩, hnone⟩ := hsucceeds hflat plain_debris
  obtain ⟨log, hlog⟩ := hrun.logged FsOp.mutates []
  have ho : o = (o.1, none) := Prod.ext rfl (hnone o d' hrun)
  rw [ho] at hlog
  obtain ⟨hlog', hagain⟩ := hops d' o.1 log hlog
  obtain ⟨log'', hrun'⟩ :=
    (Prog.returns_run (MountStep.exec False) (commit tree) d').logged FsOp.mutates []
  exact ⟨o.1, d', log, plain_debris, hlog, hlog', by rw [hlog']; decide +kernel, ⟨_, _, _, hrun'⟩, hagain⟩

end McGateway.Operator
