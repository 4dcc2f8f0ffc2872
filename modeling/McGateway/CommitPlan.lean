import McGateway.CommitSteps

/-! # What a commit is for

`planned desired d` is the difference between a tree and the mount: the temp files and the stale
modules found there, and the desired files that are absent or differ.  `Result.ops` lists the
operations that remove it, and `Converged` is the mount without it.  None of this is read off the
committer; that a commit does exactly this is proved in `McGateway.CommitConvergence`.

The mount is a tree here (`Disk.Tree`): an entry has a directory above it.  `MountStep faults` is
the behaviour of the operations when failures happen only if `faults`, and where a file is reported
absent only if it is. -/

namespace McGateway.Operator

open Bytes (ascii hasPrefix hasSuffix sortBy)

/-! ### Trees and listings -/

/-- Every entry is in a directory. -/
def Disk.Tree (d : Disk) : Prop := ∀ p f n, d.node (p ++ [f]) = some n → d.node p = some .dir

theorem Disk.tree_of_entries {d : Disk} (h : ∀ e ∈ d.entries, d.node e.1.dropLast = some .dir) :
    d.Tree := by
  intro p f n hn
  have hmem : (⟨p ++ [f], n⟩ : Sigma fun _ : Path => Node) ∈ d.entries := by
    rw [← AList.mem_lookup_iff, Option.mem_def]
    simpa [Disk.node] using hn
  simpa using h _ hmem

/-- The regular files directly in `p`, sorted. -/
def Disk.files (d : Disk) (p : Path) : List Bytes :=
  sortBy id (((d.children p).filter fun e => e.2 matches .file _).map fun e => e.1.1)

theorem mem_files {d : Disk} {p : Path} {n : Bytes} :
    n ∈ d.files p ↔ ∃ f : Name, f.1 = n ∧ ∃ data, d.node (p ++ [f]) = some (.file data) := by
  unfold Disk.files
  rw [Bytes.mem_sortBy, List.mem_map]
  constructor
  · intro h
    obtain ⟨⟨f, m⟩, he, rfl⟩ := h
    obtain ⟨hchild, hfile⟩ := List.mem_filter.mp he
    cases m with
    | dir => simp at hfile
    | file data => exact ⟨f, rfl, data, by simpa [Disk.node] using mem_children.mp hchild⟩
  · intro h
    obtain ⟨f, rfl, data, hnode⟩ := h
    refine ⟨(f, .file data), List.mem_filter.mpr ⟨mem_children.mpr ?_, rfl⟩, rfl⟩
    simpa [Disk.node] using hnode

theorem children_nodup (d : Disk) (p : Path) : (d.children p).Nodup := by
  unfold Disk.children
  apply List.Nodup.filterMap _ (List.NodupKeys.nodup d.nodupKeys)
  intro e e' c hc hc'
  cases hl : e.1.getLast? with
  | none => simp [hl] at hc
  | some f =>
      cases hl' : e'.1.getLast? with
      | none => simp [hl'] at hc'
      | some f' =>
          simp only [hl, hl', Option.mem_def, Option.ite_none_right_eq_some, Option.some.injEq] at hc hc'
          obtain ⟨hp, rfl⟩ := hc
          obtain ⟨hp', hfn⟩ := hc'
          rw [Prod.mk.injEq] at hfn
          obtain ⟨rfl, hn⟩ := hfn
          have hpath : e.1 = e'.1 := by
            rw [← List.dropLast_append_getLast? f' hl, ← List.dropLast_append_getLast? f' hl', hp, hp']
          exact Sigma.ext hpath (heq_of_eq hn.symm)

theorem files_pairwise_lt (d : Disk) (p : Path) : (d.files p).Pairwise (· < ·) := by
  apply Bytes.sortBy_pairwise_lt id
  rw [List.map_id]
  apply List.Nodup.map_on _ ((children_nodup d p).filter _)
  intro ⟨f, n⟩ he ⟨f', n'⟩ he' hff
  have hf : f = f' := Subtype.ext hff
  subst hf
  have hn := mem_children.mp (List.mem_filter.mp he).1
  have hn' := mem_children.mp (List.mem_filter.mp he').1
  rw [hn, Option.some.injEq] at hn'
  rw [hn']

theorem sortBy_files (d : Disk) (p : Path) : sortBy id (d.files p) = d.files p := by
  have hlt := files_pairwise_lt d p
  symm
  apply Bytes.eq_sortBy id (.refl _)
  · exact hlt.imp fun h => h.le
  · rw [List.map_id]
    exact Bytes.nodup_of_pairwise_lt id hlt

/-- Two listings agree on the files that are the same on both disks. -/
theorem filter_files_congr {d d' : Disk} {p : Path} (sel : Bytes → Bool)
    (h : ∀ f : Name, sel f.1 = true → d'.node (p ++ [f]) = d.node (p ++ [f])) :
    (d'.files p).filter sel = (d.files p).filter sel := by
  apply Bytes.eq_of_mem_iff_of_pairwise_lt id ((files_pairwise_lt d' p).filter _)
    ((files_pairwise_lt d p).filter _)
  intro n
  rw [List.mem_filter, List.mem_filter, mem_files, mem_files]
  constructor
  · intro hn
    obtain ⟨⟨f, rfl, data, hdata⟩, hsel⟩ := hn
    exact ⟨⟨f, rfl, data, (h f hsel) ▸ hdata⟩, hsel⟩
  · intro hn
    obtain ⟨⟨f, rfl, data, hdata⟩, hsel⟩ := hn
    exact ⟨⟨f, rfl, data, (h f hsel).symm ▸ hdata⟩, hsel⟩

theorem readDir_eq_files {d : Disk} {name : Bytes} {p : Path} {names : List Bytes} (htree : d.Tree)
    (hp : resolve name = some p) (h : readDir name d = .ok names) : names = d.files p := by
  simp only [readDir, hp] at h
  cases hn : d.node p with
  | some m =>
      cases m with
      | dir =>
          simp only [hn, Except.ok.injEq] at h
          exact h.symm
      | file b => simp [hn] at h
  | none =>
      have hempty : d.files p = [] := by
        apply List.eq_nil_iff_forall_not_mem.mpr
        intro n hmem
        obtain ⟨f, -, data, hdata⟩ := mem_files.mp hmem
        rw [htree p f _ hdata] at hn
        cases hn
      cases hm : d.missing p with
      | other => simp [hn, hm] at h
      | notExist =>
          simp only [hn, hm, Except.ok.injEq] at h
          rw [hempty, h]

theorem readDir_ok_not_file {d : Disk} {name : Bytes} {p : Path} {names : List Bytes}
    (hp : resolve name = some p) (h : readDir name d = .ok names) (data : Bytes) :
    d.node p ≠ some (.file data) := by
  intro hfile
  simp [readDir, hp, hfile] at h

theorem readFile_of_contents {d : Disk} {name data : Bytes} (h : d.contents name = some data) :
    readFile name d = .ok data := by
  obtain ⟨p, hp, hnode⟩ := contents_eq_some.mp h
  simp [readFile, hp, hnode]

/-! ### The difference between a tree and the mount -/

/-- The tree holds `config.lua` and entries `<name>.wasm` of the module directory. -/
structure DesiredTree (desired : ByteMap Bytes) : Prop where
  config : configFile ∈ desired
  modules : ∀ path ∈ desired, path ≠ configFile →
    ∃ f : Name, hasSuffix f.1 wasmSuffix = true ∧ path = udfPath f

theorem FlatTree.desiredTree {desired : ByteMap Bytes} (h : FlatTree desired) : DesiredTree desired := by
  refine ⟨h.config, ?_⟩
  intro path hpath hne
  obtain ⟨f, -, hw, rfl⟩ := h.flat path hpath hne
  exact ⟨f, hw, rfl⟩

/-- The desired module is to be written. -/
def isChanged (desired : ByteMap Bytes) (d : Disk) (path : Bytes) : Bool :=
  path ≠ configFile ∧ d.contents path ≠ desired.lookup path

def temps (d : Disk) (dir : Bytes) (p : Path) : List Bytes :=
  ((d.files p).filter fun name => hasSuffix name tmpSuffix).map (entryPath dir)

/-- What there is to do. -/
def planned (desired : ByteMap Bytes) (d : Disk) : Result where
  wroteConfig := d.contents configFile ≠ desired.lookup configFile
  wroteModules := (sortedKeys desired).filter (isChanged desired d)
  removedModules := ((d.files [udfName]).filter (isStale desired)).map (entryPath udfDir)
  cleanedTemp := temps d [] [] ++ temps d udfDir [udfName]

/-- The operations that write a file. -/
def stageOps (desired : ByteMap Bytes) (path : Bytes) : List FsOp :=
  [.writeFile (path ++ tmpSuffix) ((desired.lookup path).getD []), .rename (path ++ tmpSuffix) path]

/-- The operations that a result stands for. -/
def Result.ops (desired : ByteMap Bytes) (res : Result) : List FsOp :=
  res.cleanedTemp.map .remove ++ res.wroteModules.flatMap (stageOps desired) ++
    (if res.wroteConfig then stageOps desired configFile else []) ++ res.removedModules.map .remove

/-- A regular file that a sweep removes. -/
def TempFile (d : Disk) (q : Path) : Prop :=
  ∃ (g : Path) (f : Name), (g = [] ∨ g = [udfName]) ∧ q = g ++ [f] ∧ hasSuffix f.1 tmpSuffix = true ∧
    ∃ data, d.node q = some (.file data)

/-- A regular file that is a module nobody wants any more. -/
def StaleModule (desired : ByteMap Bytes) (d : Disk) (q : Path) : Prop :=
  ∃ f : Name, q = [udfName, f] ∧ hasSuffix f.1 wasmSuffix = true ∧ udfPath f ∉ desired ∧
    ∃ data, d.node q = some (.file data)

/-- The mount `d'` is the mount `d` with the desired tree in place. -/
structure Converged (desired : ByteMap Bytes) (d d' : Disk) : Prop where
  tree : d'.Tree
  placed : ∀ path ∈ desired, d'.contents path = desired.lookup path
  noTemp : ∀ q, ¬TempFile d' q
  noStale : ∀ q, ¬StaleModule desired d' q
  udf : ∀ data, d'.node [udfName] ≠ some (.file data)
  frame : ∀ q, ¬TempFile d q → ¬StaleModule desired d q →
    (∀ path ∈ desired, resolve path ≠ some q) → Untouched d d' q

/-! ### Operations of the mount -/

/-- The operation can change the mount. -/
def FsOp.mutates : FsOp → Bool
  | .readFile _ => false
  | .readDir _ => false
  | _ => true

/-- A file is reported absent only if it is. -/
def Truthful : (op : FsOp) → Disk → op.Answer → Prop
  | .readFile name, d, .error .notExist => d.contents name = none
  | _, _, _ => True

/-- An operation of the mount; failures happen only if `faults`. -/
def MountStep (faults : Prop) : Effect FS Disk := fun op d a d' =>
  (a, d') = exec op d ∨ (faults ∧ Truthful op d a ∧ FsStep op d a d')

theorem MountStep.exec (faults : Prop) (op : FsOp) (d : Disk) :
    MountStep faults op d (exec op d).1 (exec op d).2 := Or.inl rfl

theorem contents_of_notExist {d : Disk} {name : Bytes} (h : readFile name d = .error .notExist) :
    d.contents name = none := by
  unfold readFile at h
  unfold Disk.contents
  cases hr : resolve name with
  | none => rfl
  | some p =>
      rw [Option.bind_some]
      cases hn : d.node p with
      | none => rfl
      | some m =>
          cases m with
          | dir => rfl
          | file b => simp [hr, hn] at h

/-- The operation reports success. -/
def Succeeded : (op : FsOp) → op.Answer → Bool
  | .readFile _, a => a.isOk
  | .writeFile _ _, a => a.isOk
  | .rename _ _, a => a.isOk
  | .remove _, a => a.isOk
  | .readDir _, a => a.isOk

namespace MountStep
variable {faults : Prop} {d d' : Disk} {name data oldname newname : Bytes}

theorem fsStep {op : FsOp} {a : op.Answer} (h : MountStep faults op d a d') : FsStep op d a d' := by
  cases h with
  | inl h =>
      obtain ⟨rfl, rfl⟩ := Prod.mk.inj h
      exact .ok op d
  | inr h => exact h.2.2

/-- What reports success has been done. -/
theorem eq_exec {op : FsOp} {a : op.Answer} (h : MountStep faults op d a d')
    (ha : Succeeded op a = true) : (a, d') = Operator.exec op d := by
  cases h with
  | inl h => exact h
  | inr h =>
      cases h.2.2 with
      | ok => rfl
      | readFile | readDir | writeFile | writeFileNot | rename | remove => cases ha

theorem readFile_cases {a : Except FsError Bytes} (h : MountStep faults (.readFile name) d a d') :
    d' = d ∧ (∀ cur, a = .ok cur → d.contents name = some cur) ∧
      (a = .error .notExist → d.contents name = none) ∧
      (∀ e, a = .error e → faults ∨ readFile name d = .error e) := by
  obtain ⟨hd, hok⟩ := h.fsStep.readFile_cases
  refine ⟨hd, hok, ?_⟩
  cases h with
  | inl h =>
      have ha : a = readFile name d := congrArg Prod.fst h
      subst ha
      exact ⟨contents_of_notExist, fun e he => Or.inr he⟩
  | inr h =>
      refine ⟨?_, fun e _ => Or.inl h.1⟩
      rintro rfl
      exact h.2.1

theorem readDir_cases {a : Except FsError (List Bytes)} (h : MountStep faults (.readDir name) d a d') :
    d' = d ∧ (∀ names, a = .ok names → readDir name d = .ok names) ∧
      (∀ e, a = .error e → faults ∨ readDir name d = .error e) := by
  refine ⟨h.fsStep.readDir_cases.1, ?_, ?_⟩
  · rintro names rfl
    exact (congrArg Prod.fst (h.eq_exec rfl)).symm
  · rintro e rfl
    exact h.symm.imp (fun h => h.1) fun h => (congrArg Prod.fst h).symm

/-- A file that has been written and renamed is in place, and in a directory. -/
theorem rename_ok {u : Unit} {p q : Path} (h : MountStep faults (.rename oldname newname) d (.ok u) d')
    (hp : resolve oldname = some p) (hq : resolve newname = some q)
    (hfile : d.node p = some (.file data)) :
    Moved d d' p q data ∧ d.node q.dropLast = some .dir ∧ d.node q ≠ some .dir := by
  have hexec : rename oldname newname d = (.ok u, d') := (h.eq_exec rfl).symm
  constructor
  · cases Operator.rename_cases hexec hp hq hfile with
    | inl herr =>
        obtain ⟨-, e, he⟩ := herr
        cases he
    | inr hmoved => exact hmoved
  · simp only [rename, hp, hq, renamePath, hfile] at hexec
    cases hparent : d.node q.dropLast with
    | none => simp [hparent] at hexec
    | some m =>
        cases m with
        | file b => simp [hparent] at hexec
        | dir =>
            refine ⟨rfl, ?_⟩
            intro hdir
            simp [hparent, hdir] at hexec

theorem remove_ok {u : Unit} {p : Path} (h : MountStep faults (.remove name) d (.ok u) d')
    (hp : resolve name = some p) : d'.node p = none ∧ ∀ q, q ≠ p → d'.node q = d.node q := by
  cases h.fsStep.remove_cases with
  | inl herr =>
      obtain ⟨-, e, he⟩ := herr
      cases he
  | inr hok =>
      obtain ⟨p', hp', hnone, hframe⟩ := hok
      rw [hp, Option.some.injEq] at hp'
      subst hp'
      exact ⟨hnone, hframe⟩

/-- Nothing can be removed under a name that does not resolve. -/
theorem resolve_of_remove_ok {u : Unit} (h : MountStep faults (.remove name) d (.ok u) d') :
    ∃ p, resolve name = some p := by
  cases h.fsStep.remove_cases with
  | inl herr =>
      obtain ⟨-, e, he⟩ := herr
      cases he
  | inr hok =>
      obtain ⟨p, hp, -⟩ := hok
      exact ⟨p, hp⟩

theorem writeFile_ok {u : Unit} (h : MountStep faults (.writeFile name data) d (.ok u) d') :
    ∃ p, resolve name = some p ∧ ChangesAt d d' p ∧ d'.node p = some (.file data) ∧
      d.node p ≠ some .dir := by
  have hexec : writeFile name data d = (.ok u, d') := (h.eq_exec rfl).symm
  cases Operator.writeFile_cases hexec with
  | inl herr =>
      obtain ⟨-, e, he⟩ := herr
      cases he
  | inr hok =>
      obtain ⟨p, hp, hch, hdata⟩ := hok
      refine ⟨p, hp, hch, hdata rfl, ?_⟩
      intro hdir
      cases hm : d.mkdirAll p.dropLast with
      | none => simp [writeFile, hp, hm] at hexec
      | some d1 =>
          have hdir1 : d1.node p = some .dir := by
            rcases Disk.mkdirAll_node hm p with h | ⟨h, -, -⟩
            · exact h.trans hdir
            · rw [h] at hdir
              cases hdir
          simp [writeFile, hp, hm, hdir1] at hexec

/-- A file that has been written is in a directory, and so is everything above it. -/
theorem writeFile_dirs {u : Unit} {p q : Path} (h : MountStep faults (.writeFile name data) d (.ok u) d')
    (hp : resolve name = some p) (hq : q <+: p.dropLast) : d'.node q = some .dir := by
  have hexec : writeFile name data d = (.ok u, d') := (h.eq_exec rfl).symm
  cases hm : d.mkdirAll p.dropLast with
  | none => simp [writeFile, hp, hm] at hexec
  | some d1 =>
      have hqp : q ≠ p := by
        rintro rfl
        have hlen := hq.length_le
        rw [List.length_dropLast] at hlen
        have hnil : q = [] := List.length_eq_zero_iff.mp (by omega)
        subst hnil
        rw [List.dropLast_nil] at hm
        simp [writeFile, hp, hm] at hexec
      have hdir := Disk.mkdirAll_dir hm hq
      simp only [writeFile, hp, hm] at hexec
      cases hn : d1.node p with
      | none =>
          simp only [hn, Prod.mk.injEq] at hexec
          rw [← hexec.2, Disk.node_insert_ne hqp, hdir]
      | some n =>
          cases n with
          | dir => simp [hn] at hexec
          | file b =>
              simp only [hn, Prod.mk.injEq] at hexec
              rw [← hexec.2, Disk.node_insert_ne hqp, hdir]

end MountStep

end McGateway.Operator
