import McGateway.CommitPlan

/-! # The phases of a commit

What each phase does in the executions where it returns no error.  `Yields` is the judgement: no
error is about the shape of the tree, and without an error the result, the log of the mutating
operations and the mount are as stated.  Each phase extends `Progress`, which says of the mount so
far that some desired paths are in place, that there are no temp files, and that nothing else has
changed.  The sweep and the removal of stale modules are one loop (`removeLoop`), and the two
writers share `writeIfChanged_wrote`. -/

namespace McGateway.Operator

open Bytes (ascii hasPrefix hasSuffix sortBy)

/-! ### Executions without an error -/

/-- The tree is refused for its shape. -/
def CommitError.isShape : CommitError → Bool
  | .lacksConfig => true
  | .unrecognizedPath _ => true
  | _ => false

/-- The mount with a log of the mutating operations. -/
abbrev LoggedStep (faults : Prop) : Effect FS (Disk × List FsOp) :=
  Prog.Logged FsOp.mutates (MountStep faults)

/-- The error, if any, is not about the shape of the tree; without one, `P` holds. -/
structure Done (P : Result → Disk → List FsOp → Prop) (o : Outcome) (s : Disk × List FsOp) : Prop where
  shape : ∀ e, o.2 = some e → e.isShape = false
  success : o.2 = none → P o.1 s.1 s.2

/-- Every execution of the program ends with `Done P`. -/
def Yields (faults : Prop) (p : Prog FS Outcome) (P : Result → Disk → List FsOp → Prop)
    (s : Disk × List FsOp) : Prop :=
  p.Guarantees (LoggedStep faults) (fun _ _ _ => True) (Done P) s

section rules
variable {faults : Prop} {P R : Result → Disk → List FsOp → Prop} {d : Disk} {log : List FsOp}

theorem Yields.pure {res : Result} (h : P res d log) :
    Yields faults (Pure.pure (res, none)) P (d, log) :=
  Prog.Guarantees.ret ⟨fun _ he => (Option.some_ne_none _ he.symm).elim, fun _ => h⟩

theorem Yields.fail {res : Result} {e : CommitError} (he : e.isShape = false) :
    Yields faults (Pure.pure (res, some e)) P (d, log) :=
  Prog.Guarantees.ret ⟨fun _ h => Option.some.inj h ▸ he, fun h => (Option.some_ne_none _ h).elim⟩

theorem Yields.call {op : FsOp} {k : op.Answer → Prog FS Outcome}
    (h : ∀ a d', MountStep faults op d a d' →
      Yields faults (k a) P (d', log ++ if op.mutates then [op] else [])) :
    Yields faults (.call op k) P (d, log) := by
  intro a s hs
  obtain ⟨d', log'⟩ := s
  obtain ⟨hstep, hlog⟩ := hs
  subst hlog
  exact ⟨trivial, h a d' hstep⟩

theorem Yields.bind {α : Type} {p : Prog FS α} {f : α → Prog FS Outcome} {s : Disk × List FsOp}
    (h : p.Guarantees (LoggedStep faults) (fun _ _ _ => True) (fun a s => Yields faults (f a) P s) s) :
    Yields faults (p >>= f) P s := Prog.Guarantees.bind h

theorem Yields.andThen {p : Prog FS Outcome} {f : Result → Prog FS Outcome} {s : Disk × List FsOp}
    (hp : Yields faults p P s)
    (hf : ∀ res d log, P res d log → Yields faults (f res) R (d, log)) :
    Yields faults (andThen p f) R s := by
  apply Yields.bind
  apply Prog.Guarantees.mono hp
  intro o s' ho
  obtain ⟨res, err⟩ := o
  cases err with
  | none => exact hf _ _ _ (ho.success rfl)
  | some e => exact Yields.fail (ho.shape e rfl)

end rules

/-! ### Removing -/

/-- The selected entries of `g` are gone, and nothing else has changed. -/
structure Removed (sel : Bytes → Bool) (names : List Bytes) (g : Path) (d d' : Disk) : Prop where
  gone : ∀ f : Name, f.1 ∈ names → sel f.1 = true → d'.node (g ++ [f]) = none
  kept : ∀ q, (∀ f : Name, f.1 ∈ names → sel f.1 = true → q ≠ g ++ [f]) → d'.node q = d.node q

section removing
variable {faults : Prop} {sel : Bytes → Bool} {dir : Bytes} {g : Path}

theorem Removed.skip {names : List Bytes} {f : Name} {d d' : Disk} (h : Removed sel names g d d')
    (hsel : sel f.1 = false) : Removed sel (f.1 :: names) g d d' := by
  refine ⟨?_, ?_⟩
  · intro f' hf' hs
    cases List.mem_cons.mp hf' with
    | inl he =>
        rw [he, hsel] at hs
        cases hs
    | inr hf' => exact h.gone f' hf' hs
  · intro q hq
    exact h.kept q fun f' hf' => hq f' (List.mem_cons_of_mem _ hf')

theorem Removed.cons {names : List Bytes} {f : Name} {d d₁ d' : Disk} (hsel : sel f.1 = true)
    (hnone : d₁.node (g ++ [f]) = none) (hframe : ∀ q, q ≠ g ++ [f] → d₁.node q = d.node q)
    (h : Removed sel names g d₁ d') : Removed sel (f.1 :: names) g d d' := by
  refine ⟨?_, ?_⟩
  · intro f' hf' hs
    by_cases hmem : f'.1 ∈ names
    · exact h.gone f' hmem hs
    · -- the entry just removed is not touched by the rest of the loop
      have he : f' = f := Subtype.ext ((List.mem_cons.mp hf').resolve_right hmem)
      subst he
      rw [h.kept, hnone]
      intro f'' hf'' _ he
      have : f' = f'' := by simpa using he
      exact hmem (this ▸ hf'')
  · intro q hq
    rw [h.kept q fun f' hf' => hq f' (List.mem_cons_of_mem _ hf')]
    exact hframe q (hq f List.mem_cons_self hsel)

theorem removeLoop_yields {record : Result → Bytes → Result} {err : Bytes → FsError → CommitError}
    (hdir : dir = [] ∧ g = [] ∨ dir = udfDir ∧ g = [udfName])
    (herr : ∀ path e, (err path e).isShape = false) :
    ∀ (names : List Bytes) (res : Result) (d : Disk) (log : List FsOp), Listed names →
      Yields faults (removeLoop sel dir record err names res)
        (fun res' d' log' =>
          res' = (names.filter sel).foldl (fun r name => record r (entryPath dir name)) res ∧
          log' = log ++ ((names.filter sel).map (entryPath dir)).map .remove ∧
          Removed sel names g d d') (d, log)
  | [], res, d, log, _ => by
      apply Yields.pure
      refine ⟨rfl, by simp, ?_, fun _ _ => rfl⟩
      intro f hf
      cases hf
  | name :: names, res, d, log, hl => by
      obtain ⟨⟨f, rfl⟩, hl'⟩ := List.forall_mem_cons.mp hl
      unfold removeLoop
      cases hsel : sel f.1 with
      | false =>
          rw [if_neg (by simp)]
          apply Prog.Guarantees.mono (removeLoop_yields hdir herr names res d log hl')
          intro o s ho
          refine ⟨ho.shape, fun h => ?_⟩
          obtain ⟨hres, hlog, hrem⟩ := ho.success h
          exact ⟨by simpa [hsel] using hres, by simpa [hsel] using hlog, hrem.skip hsel⟩
      | true =>
          rw [if_pos rfl]
          apply Yields.call
          intro a d1 hstep
          cases a with
          | error e => exact Yields.fail (herr _ e)
          | ok u =>
              obtain ⟨p, hp⟩ := MountStep.resolve_of_remove_ok hstep
              obtain ⟨rfl, -⟩ := resolve_entryPath hdir hp
              obtain ⟨hnone, hframe⟩ := MountStep.remove_ok hstep hp
              apply Prog.Guarantees.mono (removeLoop_yields hdir herr names _ d1 _ hl')
              intro o s ho
              refine ⟨ho.shape, fun h => ?_⟩
              obtain ⟨hres, hlog, hrem⟩ := ho.success h
              exact ⟨by simpa [hsel] using hres, by simpa [hsel, FsOp.mutates] using hlog,
                .cons hsel hnone hframe hrem⟩

/-- A file that remains is one that was there and was not selected. -/
theorem Removed.not_file {d d' : Disk} (h : Removed sel (d.files g) g d d') {f : Name}
    (hs : sel f.1 = true) (data : Bytes) : d'.node (g ++ [f]) ≠ some (.file data) := by
  intro hfile
  by_cases hmem : f.1 ∈ d.files g
  · rw [h.gone f hmem hs] at hfile
    cases hfile
  · rw [h.kept] at hfile
    · exact hmem (mem_files.mpr ⟨f, rfl, data, hfile⟩)
    · intro f' hf' _ he
      have : f = f' := by simpa using he
      exact hmem (this ▸ hf')

theorem Removed.eq_of_not_file {d d' : Disk} (h : Removed sel (d.files g) g d d') {q : Path}
    (hq : ∀ f data, q = g ++ [f] → sel f.1 = true → d.node q ≠ some (.file data)) :
    d'.node q = d.node q := by
  apply h.kept
  intro f hf hs he
  obtain ⟨f', hff', data, hdata⟩ := mem_files.mp hf
  have : f' = f := Subtype.ext hff'
  subst this
  exact hq f' data he hs (he ▸ hdata)

/-- What is still there has not been changed. -/
theorem Removed.eq_of_some {d d' : Disk} (h : Removed sel (d.files g) g d d') {q : Path} {n : Node}
    (hq : d'.node q = some n) : d.node q = some n := by
  rw [← hq]
  symm
  apply h.kept
  intro f hf hs he
  rw [he, h.gone f hf hs] at hq
  cases hq

theorem Removed.tree {d d' : Disk} (h : Removed sel (d.files g) g d d') (htree : d.Tree) : d'.Tree := by
  intro p f n hn
  have hdir := htree p f n (h.eq_of_some hn)
  rw [h.eq_of_not_file, hdir]
  intro f' data _ _ hfile
  rw [hdir] at hfile
  cases hfile

end removing

/-! ### Sweeping -/

/-- The paths of `written` are in place, there are no temp files, and nothing else has changed. -/
structure Progress (desired : ByteMap Bytes) (written : Set Bytes) (d d' : Disk) : Prop where
  tree : d'.Tree
  noTemp : ∀ q, ¬TempFile d' q
  placed : ∀ path ∈ written, ∀ data, desired.lookup path = some data → d'.contents path = some data
  frame : ∀ q, ¬TempFile d q → (∀ path ∈ written, resolve path ≠ some q) → Untouched d d' q

theorem resolve_nil : resolve [] = some [] := rfl

theorem resolve_udfDir : resolve udfDir = some [udfName] := resolve_entry udfName (by decide)

theorem foldl_cleanedTemp (dir : Bytes) : ∀ (names : List Bytes) (res : Result),
    names.foldl (fun r name => { r with cleanedTemp := r.cleanedTemp ++ [entryPath dir name] }) res =
      { res with cleanedTemp := res.cleanedTemp ++ names.map (entryPath dir) }
  | [], res => by simp
  | name :: names, res => by
      rw [List.foldl_cons, foldl_cleanedTemp dir names]
      simp

theorem foldl_removedModules (dir : Bytes) : ∀ (names : List Bytes) (res : Result),
    names.foldl (fun r name => { r with removedModules := r.removedModules ++ [entryPath dir name] }) res =
      { res with removedModules := res.removedModules ++ names.map (entryPath dir) }
  | [], res => by simp
  | name :: names, res => by
      rw [List.foldl_cons, foldl_removedModules dir names]
      simp

theorem listed_files (d : Disk) (p : Path) : Listed (d.files p) := by
  intro n hn
  obtain ⟨f, hf, -⟩ := mem_files.mp hn
  exact ⟨f, hf⟩

section sweeping
variable {faults : Prop} {P : Result → Disk → List FsOp → Prop}

/-- One round of the sweep, followed by the others. -/
theorem sweepDirs_yields {dir : Bytes} {g : Path} {dirs : List Bytes} {res : Result} {d : Disk}
    {log : List FsOp} (hdir : dir = [] ∧ g = [] ∨ dir = udfDir ∧ g = [udfName])
    (hg : resolve dir = some g) (htree : d.Tree)
    (h : ∀ d', Removed (fun name => hasSuffix name tmpSuffix) (d.files g) g d d' →
      Yields faults (sweepDirs dirs { res with cleanedTemp := res.cleanedTemp ++ temps d dir g }) P
        (d', log ++ (temps d dir g).map .remove)) :
    Yields faults (sweepDirs (dir :: dirs) res) P (d, log) := by
  apply Yields.call
  intro a d1 hstep
  obtain ⟨rfl, hok, -⟩ := MountStep.readDir_cases hstep
  cases a with
  | error e => exact Yields.fail rfl
  | ok names =>
      obtain rfl := readDir_eq_files htree hg (hok names rfl)
      change Yields faults (andThen (sweepNames dir (sortBy id (d1.files g)) res) (sweepDirs dirs)) P
        (d1, log ++ [])
      rw [sortBy_files, sweepNames_eq, List.append_nil]
      apply Yields.andThen (removeLoop_yields hdir (fun _ _ => rfl) _ res d1 log (listed_files d1 g))
      intro res' d' log' hrem
      obtain ⟨rfl, rfl, hrem⟩ := hrem
      rw [foldl_cleanedTemp]
      exact h d' hrem

/-- The sweep removes the temp files of both directories. -/
theorem sweepTemp_yields (desired : ByteMap Bytes) {d : Disk} (htree : d.Tree) :
    Yields faults (sweepTemp ⟨false, [], [], []⟩)
      (fun res d' log => res = ⟨false, [], [], (planned desired d).cleanedTemp⟩ ∧
        log = res.ops desired ∧ Progress desired ∅ d d') (d, []) := by
  apply sweepDirs_yields (Or.inl ⟨rfl, rfl⟩) resolve_nil htree
  intro d1 hroot
  apply sweepDirs_yields (Or.inr ⟨rfl, rfl⟩) resolve_udfDir (hroot.tree htree)
  intro d2 hudf
  -- the first round leaves the module directory alone
  have htemps : temps d1 udfDir [udfName] = temps d udfDir [udfName] := by
    unfold temps
    rw [filter_files_congr]
    intro f _
    apply hroot.kept
    intro f' _ _ he
    simp at he
  apply Yields.pure
  refine ⟨by simp [planned, htemps], by simp [Result.ops, htemps], hudf.tree (hroot.tree htree), ?_,
    by simp, ?_⟩
  · intro q hq
    obtain ⟨g, f, hg, rfl, hs, data, hdata⟩ := hq
    cases hg with
    | inl hg =>
        subst hg
        exact hroot.not_file hs data (hudf.eq_of_some hdata)
    | inr hg =>
        subst hg
        exact hudf.not_file hs data hdata
  · intro q hq _
    left
    rw [hudf.eq_of_not_file, hroot.eq_of_not_file]
    · intro f data he hs hfile
      exact hq ⟨[], f, Or.inl rfl, he, hs, data, hfile⟩
    · intro f data he hs hfile
      exact hq ⟨[udfName], f, Or.inr rfl, he, hs, data, hroot.eq_of_some hfile⟩

end sweeping

/-! ### Staging -/

/-- The path names the entry `f` of the directory `dir`, if there is such a directory, and its temp
file is next to it. -/
structure Sited (path : Bytes) (dir : Option Path) (f : Name) : Prop where
  resolve_eq : resolve path = if 0 ∈ f.1 then none else dir.map (· ++ [f])
  resolve_tmp : resolve (path ++ tmpSuffix) = if 0 ∈ f.1 then none else dir.map (· ++ [f.tmp])
  not_tmp : hasSuffix f.1 tmpSuffix = false

theorem nul_mem_tmp {f : Name} : 0 ∈ f.tmp.1 ↔ 0 ∈ f.1 := by
  have h0 : 0 ∉ tmpSuffix := by decide
  simp [Name.tmp, h0]

namespace Sited
variable {path : Bytes} {dir : Option Path} {f : Name} {p : Path}

theorem of_entry {dir : Bytes} (hne : dir ≠ []) (hslash : hasPrefix dir (ascii "/") = false)
    (hf : hasSuffix f.1 tmpSuffix = false) : Sited (dir ++ ascii "/" ++ f.1) (resolve dir) f := by
  refine ⟨resolve_append_entry hne hslash f, ?_, hf⟩
  have htmp := resolve_append_entry hne hslash f.tmp
  simp only [nul_mem_tmp] at htmp
  rw [← htmp, List.append_assoc]
  rfl

theorem of_resolve (h : Sited path dir f) (hp : resolve path = some p) :
    ∃ g, dir = some g ∧ 0 ∉ f.1 ∧ p = g ++ [f] := by
  have heq := h.resolve_eq
  rw [hp] at heq
  split_ifs at heq with h0
  obtain ⟨g, hg, hpg⟩ := Option.map_eq_some_iff.mp heq.symm
  exact ⟨g, hg, h0, hpg.symm⟩

theorem of_resolve_tmp (h : Sited path dir f) (hp : resolve (path ++ tmpSuffix) = some p) :
    ∃ g, dir = some g ∧ 0 ∉ f.1 ∧ p = g ++ [f.tmp] := by
  have heq := h.resolve_tmp
  rw [hp] at heq
  split_ifs at heq with h0
  obtain ⟨g, hg, hpg⟩ := Option.map_eq_some_iff.mp heq.symm
  exact ⟨g, hg, h0, hpg.symm⟩

theorem resolve_some {g : Path} (h : Sited path (some g) f) (h0 : 0 ∉ f.1) :
    resolve path = some (g ++ [f]) := by
  rw [h.resolve_eq, if_neg h0, Option.map_some]

theorem ne_tmp (h : Sited path dir f) : f ≠ f.tmp := by
  intro he
  have hs := h.not_tmp
  rw [he, Name.tmp, Bytes.hasSuffix_append] at hs
  cases hs

end Sited

/-- A file has been written to its temp file in `g` and renamed. -/
structure Staged (d d' : Disk) (g : Path) (f : Name) (data : Bytes) : Prop where
  target : d'.node (g ++ [f]) = some (.file data)
  source : d'.node (g ++ [f.tmp]) = none
  dirs : ∀ q, q <+: g → d'.node q = some .dir
  notDir : d.node (g ++ [f]) ≠ some .dir
  tmpNotDir : d.node (g ++ [f.tmp]) ≠ some .dir
  frame : ∀ q, q ≠ g ++ [f] → q ≠ g ++ [f.tmp] →
    d'.node q = d.node q ∨ (d.node q = none ∧ d'.node q = some .dir ∧ q <+: g)

theorem prefix_ne_concat {q g : Path} {f : Name} (hq : q <+: g) : q ≠ g ++ [f] := by
  intro he
  have hlen := hq.length_le
  rw [he, List.length_append, List.length_singleton] at hlen
  omega

theorem staged_of_moved {d d1 d' : Disk} {g : Path} {f : Name} {data : Bytes} (hf : f ≠ f.tmp)
    (hwrite : ChangesAt d d1 (g ++ [f.tmp])) (hmoved : Moved d1 d' (g ++ [f.tmp]) (g ++ [f]) data)
    (hdirs : ∀ q, q <+: g → d1.node q = some .dir) (hdir : d1.node (g ++ [f]) ≠ some .dir)
    (htmp : d.node (g ++ [f.tmp]) ≠ some .dir) : Staged d d' g f data := by
  have hne : g ++ [f] ≠ g ++ [f.tmp] := by simp [hf]
  refine ⟨hmoved.target, hmoved.source hne.symm, ?_, ?_, htmp, ?_⟩
  · intro q hq
    rw [hmoved.frame q (prefix_ne_concat hq) (prefix_ne_concat hq), hdirs q hq]
  · intro h
    cases hwrite _ hne with
    | inl hsame => exact hdir (hsame.trans h)
    | inr hnew => exact hdir hnew.2.1
  · intro q hq hqt
    rw [hmoved.frame q hqt hq]
    cases hwrite q hqt with
    | inl hsame => exact Or.inl hsame
    | inr hnew =>
        obtain ⟨hnone, hdirq, hpre⟩ := hnew
        exact Or.inr ⟨hnone, hdirq, (List.prefix_concat_iff.mp hpre).resolve_left hqt⟩

theorem Staged.tree {d d' : Disk} {g : Path} {f : Name} {data : Bytes} (h : Staged d d' g f data)
    (htree : d.Tree) : d'.Tree := by
  intro q x n hn
  by_cases htarget : q ++ [x] = g ++ [f]
  · obtain ⟨rfl, -⟩ := List.append_inj' htarget rfl
    exact h.dirs q (List.prefix_refl q)
  have hsource : q ++ [x] ≠ g ++ [f.tmp] := by
    intro he
    rw [he, h.source] at hn
    cases hn
  cases h.frame _ htarget hsource with
  | inl hsame =>
      have hdir := htree q x n (hsame ▸ hn)
      have hqf : q ≠ g ++ [f] := by
        rintro rfl
        exact h.notDir hdir
      have hqt : q ≠ g ++ [f.tmp] := by
        rintro rfl
        exact h.tmpNotDir hdir
      cases h.frame q hqf hqt with
      | inl hq => rw [hq, hdir]
      | inr hq => exact hq.2.1
  | inr hnew => exact h.dirs q ((List.prefix_append q [x]).trans hnew.2.2)

theorem Staged.noTemp {d d' : Disk} {g : Path} {f : Name} {data : Bytes} (h : Staged d d' g f data)
    (hf : hasSuffix f.1 tmpSuffix = false) (hd : ∀ q, ¬TempFile d q) (q : Path) : ¬TempFile d' q := by
  intro hq
  obtain ⟨g', f', hg', rfl, hs, data', hdata'⟩ := hq
  have htarget : g' ++ [f'] ≠ g ++ [f] := by
    intro he
    have hff : f' = f := by simpa using congrArg List.getLast? he
    rw [hff, hf] at hs
    cases hs
  have hsource : g' ++ [f'] ≠ g ++ [f.tmp] := by
    intro he
    rw [he, h.source] at hdata'
    cases hdata'
  cases h.frame _ htarget hsource with
  | inl hsame => exact hd _ ⟨g', f', hg', rfl, hs, data', hsame ▸ hdata'⟩
  | inr hnew =>
      rw [hnew.2.1] at hdata'
      cases hdata'

/-- What `stage` has done when it returns no error. -/
theorem stage_staged {faults : Prop} {path data : Bytes} {dir : Option Path} {f : Name} {d : Disk}
    {log : List FsOp} (h : Sited path dir f) :
    (stage path data).Guarantees (LoggedStep faults) (fun _ _ _ => True)
      (fun r s => (∀ e, r = .error e → e.isShape = false) ∧ ∀ b, r = .ok b → b = true ∧
        s.2 = log ++ [.writeFile (path ++ tmpSuffix) data, .rename (path ++ tmpSuffix) path] ∧
        ∃ g, dir = some g ∧ 0 ∉ f.1 ∧ Staged d s.1 g f data) (d, log) := by
  intro a s hs
  obtain ⟨d1, log1⟩ := s
  obtain ⟨hwrite, hlog1⟩ := hs
  refine ⟨trivial, ?_⟩
  cases a with
  | error e => exact ⟨fun _ he => Except.error.inj he ▸ rfl, fun _ hb => (nomatch hb)⟩
  | ok u =>
      obtain ⟨t, hr, hch, hfile, hnotdir⟩ := MountStep.writeFile_ok hwrite
      obtain ⟨g, rfl, h0, rfl⟩ := h.of_resolve_tmp hr
      have hdirs (q : Path) (hq : q <+: g) : d1.node q = some .dir :=
        MountStep.writeFile_dirs hwrite hr (by rwa [List.dropLast_concat])
      intro a s hs
      obtain ⟨d2, log2⟩ := s
      obtain ⟨hrename, hlog2⟩ := hs
      refine ⟨trivial, ?_⟩
      cases a with
      | error e => exact ⟨fun _ he => Except.error.inj he ▸ rfl, fun _ hb => (nomatch hb)⟩
      | ok u =>
          obtain ⟨hmoved, -, hnotdir1⟩ := MountStep.rename_ok hrename hr (h.resolve_some h0) hfile
          refine ⟨fun _ he => (nomatch he), fun b hb => ⟨(Except.ok.inj hb).symm, ?_, g, rfl, h0,
            staged_of_moved h.ne_tmp hch hmoved hdirs hnotdir1 hnotdir⟩⟩
          simp only [FsOp.mutates, if_true] at hlog1 hlog2
          rw [hlog2, hlog1, List.append_assoc]
          rfl

/-! ### Writing -/

/-- The paths of a desired tree, and where they are. -/
inductive Target : Bytes → Path → Name → Prop where
  | config : Target configFile [] configName
  | module (f : Name) (hw : hasSuffix f.1 wasmSuffix = true) : Target (udfPath f) [udfName] f

namespace Target
variable {path path' : Bytes} {g g' p : Path} {f f' : Name}

theorem dir (h : Target path g f) : g = [] ∨ g = [udfName] := by
  cases h with
  | config => exact Or.inl rfl
  | module f hw => exact Or.inr rfl

theorem not_tmp (h : Target path g f) : hasSuffix f.1 tmpSuffix = false := by
  cases h with
  | config => decide
  | module f hw =>
      rw [Bool.eq_false_iff]
      intro hs
      exact not_temp_of_wasm hw ⟨f, rfl, hs⟩

theorem sited (h : Target path g f) : Sited path (some g) f := by
  have hnot := h.not_tmp
  cases h with
  | config => exact ⟨resolve_configFile, resolve_configFile_tmp, hnot⟩
  | module f hw => exact resolve_udfDir ▸ Sited.of_entry (by decide) (by decide) hnot

theorem of_resolve (h : Target path g f) (hp : resolve path = some p) : p = g ++ [f] ∧ 0 ∉ f.1 := by
  obtain ⟨_, hg, h0, rfl⟩ := h.sited.of_resolve hp
  cases hg
  exact ⟨rfl, h0⟩

theorem ne_udf (h : Target path g f) : g ++ [f] ≠ [udfName] := by
  cases h with
  | config => exact configName_ne_udfName
  | module f hw => simp

theorem inj (h : Target path g f) (h' : Target path' g' f') (he : g ++ [f] = g' ++ [f']) :
    path = path' := by
  cases h with
  | config =>
      cases h' with
      | config => rfl
      | module f' hw => simp at he
  | module f hw =>
      cases h' with
      | config => simp at he
      | module f' hw' =>
          simp only [List.cons_append, List.nil_append, List.cons.injEq, and_true, true_and] at he
          rw [he]

end Target

theorem DesiredTree.target {desired : ByteMap Bytes} (h : DesiredTree desired) {path : Bytes}
    (hpath : path ∈ desired) : ∃ g f, Target path g f := by
  by_cases hc : path = configFile
  · subst hc
    exact ⟨[], configName, .config⟩
  · obtain ⟨f, hw, rfl⟩ := h.modules path hpath hc
    exact ⟨[udfName], f, .module f hw⟩

theorem Untouched.trans {d d' d'' : Disk} {q : Path} (h : Untouched d d' q) (h' : Untouched d' d'' q) :
    Untouched d d'' q := by
  unfold Untouched at *
  cases h with
  | inl h => rwa [h] at h'
  | inr h =>
      obtain ⟨hq, hnone, hdir⟩ := h
      refine Or.inr ⟨hq, hnone, ?_⟩
      cases h' with
      | inl h' => rw [h', hdir]
      | inr h' => exact h'.2.2

theorem Untouched.of_some {d d' : Disk} {q : Path} {n : Node} (h : Untouched d d' q)
    (hn : d.node q = some n) : d'.node q = some n := by
  cases h with
  | inl h => rw [h, hn]
  | inr h =>
      rw [h.2.1] at hn
      cases hn

/-- A file has been put at `p`, and nothing else has changed. -/
structure Put (d d' : Disk) (p : Path) (data : Bytes) : Prop where
  target : d'.node p = some (.file data)
  parent : d'.node p.dropLast = some .dir
  notDir : d.node p ≠ some .dir
  frame : ∀ q, q ≠ p → Untouched d d' q

/-- Writing a temp file and renaming it, when there was none before. -/
theorem Staged.put {d d' : Disk} {g : Path} {f : Name} {data : Bytes} (h : Staged d d' g f data)
    (hg : g = [] ∨ g = [udfName]) (htmp : d.node (g ++ [f.tmp]) = none) : Put d d' (g ++ [f]) data := by
  refine ⟨h.target, by rw [List.dropLast_concat, h.dirs g (List.prefix_refl g)], h.notDir, ?_⟩
  intro q hq
  by_cases ht : q = g ++ [f.tmp]
  · left
    rw [ht, h.source, htmp]
  · cases h.frame q hq ht with
    | inl hsame => exact Or.inl hsame
    | inr hnew =>
        obtain ⟨hnone, hdir, hpre⟩ := hnew
        have hq0 : q ≠ [] := by
          rintro rfl
          simp at hnone
        refine Or.inr ⟨?_, hnone, hdir⟩
        cases hg with
        | inl hg => exact absurd (List.prefix_nil.mp (hg ▸ hpre)) hq0
        | inr hg =>
            obtain hnil | ⟨t, rfl, htail⟩ := List.prefix_cons_iff.mp (hg ▸ hpre)
            · exact absurd hnil hq0
            · rw [List.prefix_nil.mp htail]

section writing
variable {faults : Prop} {desired : ByteMap Bytes} {written : Set Bytes} {d d' : Disk}
  {path data : Bytes} {g : Path} {f : Name}

/-- A path that has not been written has its old contents. -/
theorem Progress.contents_eq (h : Progress desired written d d') (ht : Target path g f)
    (hfresh : ∀ path' ∈ written, ∃ g' f', Target path' g' f') (hpath : path ∉ written) :
    d'.contents path = d.contents path := by
  by_cases h0 : 0 ∈ f.1
  · have hnone : resolve path = none := by
      cases hr : resolve path with
      | none => rfl
      | some p => exact absurd h0 (ht.of_resolve hr).2
    simp [Disk.contents, hnone]
  · have hnode : d'.node (g ++ [f]) = d.node (g ++ [f]) := by
      refine Untouched.node_eq (h.frame _ ?_ ?_) ht.ne_udf
      · intro htemp
        obtain ⟨g', f', -, he, hs, -⟩ := htemp
        have hff : f = f' := by simpa using congrArg List.getLast? he
        rw [← hff, ht.not_tmp] at hs
        cases hs
      · intro path' hpath' hr
        obtain ⟨g', f', ht'⟩ := hfresh path' hpath'
        have he := ht.inj ht' (ht'.of_resolve hr).1
        exact hpath (he ▸ hpath')
    simp [Disk.contents, ht.sited.resolve_some h0, hnode]

theorem Progress.same (h : Progress desired written d d') (hdata : desired.lookup path = some data)
    (hcur : d'.contents path = some data) : Progress desired (insert path written) d d' := by
  refine ⟨h.tree, h.noTemp, ?_, ?_⟩
  · intro path' hpath' data' hdata'
    cases Set.mem_insert_iff.mp hpath' with
    | inl he =>
        subst he
        rw [hdata] at hdata'
        rw [hcur, hdata']
    | inr hpath' => exact h.placed path' hpath' data' hdata'
  · intro q hq hw
    exact h.frame q hq fun path' hpath' => hw path' (Set.mem_insert_of_mem _ hpath')

/-- The sweep has left no file in the place of a temp file. -/
theorem Progress.tmp_free (h : Progress desired written d d') (ht : Target path g f)
    (hnotdir : d'.node (g ++ [f.tmp]) ≠ some .dir) : d'.node (g ++ [f.tmp]) = none := by
  cases hn : d'.node (g ++ [f.tmp]) with
  | none => rfl
  | some n =>
      cases n with
      | dir => exact absurd hn hnotdir
      | file b => exact absurd ⟨g, f.tmp, ht.dir, rfl, Bytes.hasSuffix_append _ _, b, hn⟩ (h.noTemp _)

theorem Progress.put {d'' : Disk} (h : Progress desired written d d') (ht : Target path g f)
    (h0 : 0 ∉ f.1) (hfresh : ∀ path' ∈ written, ∃ g' f', Target path' g' f') (hpath : path ∉ written)
    (hdata : desired.lookup path = some data) (hstaged : Staged d' d'' g f data) :
    Progress desired (insert path written) d d'' := by
  have hput := hstaged.put ht.dir (h.tmp_free ht hstaged.tmpNotDir)
  refine ⟨hstaged.tree h.tree, hstaged.noTemp ht.not_tmp h.noTemp, ?_, ?_⟩
  · intro path' hpath' data' hdata'
    cases Set.mem_insert_iff.mp hpath' with
    | inl he =>
        subst he
        rw [hdata, Option.some.injEq] at hdata'
        subst hdata'
        exact contents_eq_some.mpr ⟨_, ht.sited.resolve_some h0, hput.target⟩
    | inr hpath' =>
        obtain ⟨p, hp, hnode⟩ := contents_eq_some.mp (h.placed path' hpath' data' hdata')
        have hne : p ≠ g ++ [f] := by
          rintro rfl
          obtain ⟨g', f', ht'⟩ := hfresh path' hpath'
          have he := ht.inj ht' (ht'.of_resolve hp).1
          exact hpath (he ▸ hpath')
        exact contents_eq_some.mpr ⟨p, hp, (hput.frame p hne).of_some hnode⟩
  · intro q hq hw
    have hne : q ≠ g ++ [f] := by
      rintro rfl
      exact hw path (Set.mem_insert _ _) (ht.sited.resolve_some h0)
    exact (h.frame q hq fun path' hpath' => hw path' (Set.mem_insert_of_mem _ hpath')).trans
      (hput.frame q hne)

/-- The outcome of writing `path`: whether it has changed, and the operations for that. -/
def Wrote (desired : ByteMap Bytes) (path : Bytes) (changed : Bool) (log : List FsOp)
    (P : Disk → Prop) (r : Except CommitError Bool) (s : Disk × List FsOp) : Prop :=
  (∀ e, r = .error e → e.isShape = false) ∧
  ∀ b, r = .ok b → b = changed ∧ s.2 = log ++ (if b then stageOps desired path else []) ∧ P s.1

theorem stage_wrote {log : List FsOp} (h : Progress desired written d d') (ht : Target path g f)
    (hfresh : ∀ path' ∈ written, ∃ g' f', Target path' g' f') (hpath : path ∉ written)
    (hdata : desired.lookup path = some data) :
    (stage path data).Guarantees (LoggedStep faults) (fun _ _ _ => True)
      (Wrote desired path true log (Progress desired (insert path written) d)) (d', log) := by
  apply (stage_staged ht.sited).mono
  intro r s hr
  refine ⟨hr.1, ?_⟩
  intro b hb
  obtain ⟨rfl, hlog, _, hg, h0, hstaged⟩ := hr.2 b hb
  cases hg
  refine ⟨rfl, ?_, h.put ht h0 hfresh hpath hdata hstaged⟩
  simp [hlog, stageOps, hdata]

/-- What a write can do: leave bytes that are in place, stage others, or fail to read. -/
theorem writeIfChanged_rule {log : List FsOp} {R : Except CommitError Bool → Disk × List FsOp → Prop}
    (hsame : d.contents path = some data → R (.ok false) (d, log))
    (hstage : d.contents path ≠ some data →
      (stage path data).Guarantees (LoggedStep faults) (fun _ _ _ => True) R (d, log))
    (hfail : faults ∨ readFile path d = .error .other → R (.error (.read path .other)) (d, log)) :
    (writeIfChanged path data).Guarantees (LoggedStep faults) (fun _ _ _ => True) R (d, log) := by
  intro a s hs
  obtain ⟨d1, log1⟩ := s
  obtain ⟨hread, hlog⟩ := hs
  obtain ⟨hd, hok, hnone, hbad⟩ := MountStep.readFile_cases hread
  simp only [FsOp.mutates, Bool.false_eq_true, if_false, List.append_nil] at hd hlog
  subst hd hlog
  refine ⟨trivial, ?_⟩
  cases a with
  | ok cur =>
      have hcur := hok cur rfl
      change Prog.Guarantees _ _ _ (if cur = data then pure (.ok false) else stage path data) (d1, log1)
      split_ifs with he
      · exact hsame (he ▸ hcur)
      · exact hstage (by simpa [hcur] using he)
  | error e =>
      cases e with
      | notExist => exact hstage (by simp [hnone rfl])
      | other => exact hfail (hbad .other rfl)

theorem writeIfChanged_wrote {log : List FsOp} (h : Progress desired written d d')
    (ht : Target path g f) (hfresh : ∀ path' ∈ written, ∃ g' f', Target path' g' f')
    (hpath : path ∉ written) (hdata : desired.lookup path = some data) :
    (writeIfChanged path data).Guarantees (LoggedStep faults) (fun _ _ _ => True)
      (Wrote desired path (d.contents path ≠ desired.lookup path) log
        (Progress desired (insert path written) d)) (d', log) := by
  rw [hdata, ← h.contents_eq ht hfresh hpath]
  apply writeIfChanged_rule
  · intro hcur
    refine ⟨fun _ he => (nomatch he), fun b hb => ?_⟩
    obtain rfl : false = b := Except.ok.inj hb
    exact ⟨by simp [hcur], by simp, h.same hdata hcur⟩
  · intro hcur
    simpa [hcur] using stage_wrote h ht hfresh hpath hdata
  · intro _
    exact ⟨fun _ he => Except.error.inj he ▸ rfl, fun _ hb => (nomatch hb)⟩

/-- The configuration file is none of the modules. -/
theorem modulePaths_cons_config (paths : List Bytes) :
    {p | p ∈ configFile :: paths ∧ p ≠ configFile} = {p | p ∈ paths ∧ p ≠ configFile} := by
  ext p
  simp only [List.mem_cons, Set.mem_ofPred_eq]
  tauto

theorem insert_union_modulePaths (hne : path ≠ configFile) (paths : List Bytes) :
    insert path written ∪ {p | p ∈ paths ∧ p ≠ configFile} =
      written ∪ {p | p ∈ path :: paths ∧ p ≠ configFile} := by
  ext p
  simp only [Set.mem_union, Set.mem_insert_iff, Set.mem_ofPred_eq, List.mem_cons]
  constructor
  · rintro ((rfl | h) | h)
    · exact Or.inr ⟨Or.inl rfl, hne⟩
    · exact Or.inl h
    · exact Or.inr ⟨Or.inr h.1, h.2⟩
  · tauto

/-- The loop over the modules has `paths` before it and has written `written`. -/
structure Writing (desired : ByteMap Bytes) (paths : List Bytes) (written : Set Bytes) (d d' : Disk) : Prop where
  pending : ∀ path ∈ paths, path ∈ desired
  fresh : ∀ path ∈ paths, path ∉ written
  nodup : paths.Nodup
  done : ∀ path ∈ written, path ∈ desired
  progress : Progress desired written d d'

theorem Writing.skip {paths : List Bytes} (h : Writing desired (path :: paths) written d d') :
    Writing desired paths written d d' where
  pending := (List.forall_mem_cons.mp h.pending).2
  fresh := (List.forall_mem_cons.mp h.fresh).2
  nodup := (List.nodup_cons.mp h.nodup).2
  done := h.done
  progress := h.progress

theorem Writing.write {paths : List Bytes} {d1 : Disk} (h : Writing desired (path :: paths) written d d')
    (hprog : Progress desired (insert path written) d d1) : Writing desired paths (insert path written) d d1 := by
  have hskip := h.skip
  refine ⟨hskip.pending, ?_, hskip.nodup, ?_, hprog⟩
  · intro p hp hmem
    cases Set.mem_insert_iff.mp hmem with
    | inl he => exact (List.nodup_cons.mp h.nodup).1 (he ▸ hp)
    | inr hmem => exact hskip.fresh p hp hmem
  · intro p hmem
    cases Set.mem_insert_iff.mp hmem with
    | inl he => exact he ▸ h.pending path List.mem_cons_self
    | inr hmem => exact h.done p hmem

theorem writeModules_yields (htree : DesiredTree desired) (temps : List Bytes) :
    ∀ (paths : List Bytes) (written : Set Bytes) (modules : List Bytes) (d' : Disk),
      Writing desired paths written d d' →
      Yields faults (writeModules desired paths ⟨false, modules, [], temps⟩)
        (fun res d'' log => res = ⟨false, modules ++ paths.filter (isChanged desired d), [], temps⟩ ∧
          log = res.ops desired ∧
          Progress desired (written ∪ {path | path ∈ paths ∧ path ≠ configFile}) d d'')
        (d', Result.ops desired ⟨false, modules, [], temps⟩)
  | [], written, modules, d', h => by
      apply Yields.pure
      simpa using h.progress
  | path :: paths, written, modules, d', h => by
      have hpath := h.pending path List.mem_cons_self
      unfold writeModules
      by_cases hc : path = configFile
      · subst hc
        have hpre : ¬hasPrefix configFile (udfDir ++ ascii "/") = true := by decide
        rw [if_neg hpre, modulePaths_cons_config]
        simpa [isChanged] using writeModules_yields htree temps paths written modules d' h.skip
      · obtain ⟨f, hw, rfl⟩ := htree.modules path hpath hc
        obtain ⟨data, hdata⟩ := Option.isSome_iff_exists.mp (AList.lookup_isSome.mpr hpath)
        have hpre : hasPrefix (udfPath f) (udfDir ++ ascii "/") = true := Bytes.hasPrefix_append _ _
        rw [if_pos hpre]
        conv in (desired.lookup (udfPath f)).getD [] => rw [hdata, Option.getD_some]
        apply Yields.bind
        apply (writeIfChanged_wrote h.progress (.module f hw) (fun p hp => htree.target (h.done p hp))
          (h.fresh _ List.mem_cons_self) hdata).mono
        intro r s hr
        obtain ⟨d1, log1⟩ := s
        cases r with
        | error e => exact Yields.fail (hr.1 e rfl)
        | ok b =>
            obtain ⟨hb, hlog, hprog⟩ := hr.2 b rfl
            simp only at hlog hprog
            have hnext := fun modules' => writeModules_yields htree temps paths
              (insert (udfPath f) written) modules' d1 (h.write hprog)
            rw [insert_union_modulePaths hc] at hnext
            have hchanged : isChanged desired d (udfPath f) = b := by
              simp [isChanged, hc, hb]
            cases b with
            | true =>
                have hops : log1 = Result.ops desired ⟨false, modules ++ [udfPath f], [], temps⟩ := by
                  rw [hlog]
                  simp [Result.ops]
                rw [hops]
                simpa [hchanged] using hnext (modules ++ [udfPath f])
            | false =>
                have hops : log1 = Result.ops desired ⟨false, modules, [], temps⟩ := by
                  rw [hlog]
                  simp
                rw [hops]
                simpa [hchanged] using hnext modules

theorem writeConfig_yields (htree : DesiredTree desired) (temps modules : List Bytes)
    (hwritten : ∀ path ∈ written, path ∈ desired) (hfresh : configFile ∉ written)
    (h : Progress desired written d d') :
    Yields faults (writeConfig desired ⟨false, modules, [], temps⟩)
      (fun res d'' log =>
        res = ⟨d.contents configFile ≠ desired.lookup configFile, modules, [], temps⟩ ∧
        log = res.ops desired ∧ Progress desired (insert configFile written) d d'')
      (d', Result.ops desired ⟨false, modules, [], temps⟩) := by
  obtain ⟨data, hdata⟩ := Option.isSome_iff_exists.mp (AList.lookup_isSome.mpr htree.config)
  unfold writeConfig
  conv in (desired.lookup configFile).getD [] => rw [hdata, Option.getD_some]
  apply Yields.bind
  apply (writeIfChanged_wrote h .config (fun p hp => htree.target (hwritten p hp)) hfresh hdata).mono
  intro r s hr
  obtain ⟨d1, log1⟩ := s
  cases r with
  | error e => exact Yields.fail (hr.1 e rfl)
  | ok b =>
      obtain ⟨hb, hlog, hprog⟩ := hr.2 b rfl
      apply Yields.pure
      refine ⟨by rw [hb], ?_, hprog⟩
      simp only at hlog
      rw [hlog]
      simp [Result.ops]

end writing

/-! ### Removing -/

section stale
variable {faults : Prop} {desired : ByteMap Bytes} {d d' : Disk}

theorem isStale_iff {f : Name} :
    isStale desired f.1 = true ↔ hasSuffix f.1 wasmSuffix = true ∧ udfPath f ∉ desired :=
  decide_eq_true_iff

/-- The desired tree has no path of a stale module. -/
theorem DesiredTree.resolve_ne_stale (htree : DesiredTree desired) {f : Name}
    (hs : isStale desired f.1 = true) : ∀ path ∈ desired, resolve path ≠ some [udfName, f] := by
  obtain ⟨hw, hf⟩ := isStale_iff.mp hs
  intro path hpath hr
  obtain ⟨g, f', ht⟩ := htree.target hpath
  have he : udfPath f = path := (Target.module f hw).inj ht (ht.of_resolve hr).1
  exact hf (he ▸ hpath)

/-- A stale module is as it was. -/
theorem Progress.stale (htree : DesiredTree desired)
    (h : Progress desired {path | path ∈ desired} d d') {f : Name} (hs : isStale desired f.1 = true) :
    d'.node [udfName, f] = d.node [udfName, f] := by
  refine Untouched.node_eq (h.frame _ ?_ (htree.resolve_ne_stale hs)) (by simp)
  intro ht
  obtain ⟨g, f', -, he, hs', -⟩ := ht
  have hff : f = f' := by simpa using congrArg List.getLast? he
  rw [← hff, (Target.module f (isStale_iff.mp hs).1).not_tmp] at hs'
  cases hs'

theorem Progress.converged {d'' : Disk} (htree : DesiredTree desired)
    (h : Progress desired {path | path ∈ desired} d d')
    (hudf : ∀ data, d'.node [udfName] ≠ some (.file data))
    (hrem : Removed (isStale desired) (d'.files [udfName]) [udfName] d' d'') :
    Converged desired d d'' := by
  refine ⟨hrem.tree h.tree, ?_, ?_, ?_, fun data hfile => hudf data (hrem.eq_of_some hfile), ?_⟩
  · intro path hpath
    obtain ⟨data, hdata⟩ := Option.isSome_iff_exists.mp (AList.lookup_isSome.mpr hpath)
    obtain ⟨p, hp, hnode⟩ := contents_eq_some.mp (h.placed path hpath data hdata)
    rw [hdata]
    refine contents_eq_some.mpr ⟨p, hp, ?_⟩
    rw [hrem.kept, hnode]
    rintro f - hs rfl
    exact htree.resolve_ne_stale hs path hpath hp
  · intro q ht
    obtain ⟨g, f, hg, he, hs, data, hdata⟩ := ht
    exact h.noTemp q ⟨g, f, hg, he, hs, data, hrem.eq_of_some hdata⟩
  · intro q hst
    obtain ⟨f, rfl, hw, hf, data, hdata⟩ := hst
    exact hrem.not_file (isStale_iff.mpr ⟨hw, hf⟩) data hdata
  · intro q ht hst hq
    have hkeep : d''.node q = d'.node q := by
      apply hrem.eq_of_not_file
      rintro f data rfl hs hfile
      obtain ⟨hw, hf⟩ := isStale_iff.mp hs
      exact hst ⟨f, rfl, hw, hf, data, (h.stale htree hs) ▸ hfile⟩
    have hun := h.frame q ht hq
    unfold Untouched at hun ⊢
    rwa [hkeep]

/-- The stale modules go, and the module directory is no file. -/
theorem removeStale_removed (htree : d.Tree) (res : Result) (log : List FsOp) :
    Yields faults (removeStale desired res)
      (fun res' d' log' =>
        res' = { res with removedModules :=
          res.removedModules ++ ((d.files [udfName]).filter (isStale desired)).map (entryPath udfDir) } ∧
        log' = log ++ (((d.files [udfName]).filter (isStale desired)).map (entryPath udfDir)).map .remove ∧
        (∀ data, d.node [udfName] ≠ some (.file data)) ∧
        Removed (isStale desired) (d.files [udfName]) [udfName] d d') (d, log) := by
  apply Yields.call
  intro a d1 hstep
  obtain ⟨rfl, hok, -⟩ := MountStep.readDir_cases hstep
  cases a with
  | error e => exact Yields.fail rfl
  | ok names =>
      have hudf := readDir_ok_not_file resolve_udfDir (hok names rfl)
      obtain rfl := readDir_eq_files htree resolve_udfDir (hok names rfl)
      change Yields faults (removeNames desired (sortBy id (d1.files [udfName])) res) _ (d1, log ++ [])
      rw [sortBy_files, removeNames_eq, List.append_nil]
      apply Prog.Guarantees.mono (removeLoop_yields (Or.inr ⟨rfl, rfl⟩) (fun _ _ => rfl) _ res d1 log
        (listed_files d1 [udfName]))
      intro o s ho
      refine ⟨ho.shape, fun hnone => ?_⟩
      obtain ⟨hres, hlog, hrem⟩ := ho.success hnone
      rw [foldl_removedModules] at hres
      exact ⟨hres, hlog, hudf, hrem⟩

theorem removeStale_yields (htree : DesiredTree desired) (temps modules : List Bytes) (wrote : Bool)
    (h : Progress desired {path | path ∈ desired} d d') :
    Yields faults (removeStale desired ⟨wrote, modules, [], temps⟩)
      (fun res d'' log => res = ⟨wrote, modules, (planned desired d).removedModules, temps⟩ ∧
        log = res.ops desired ∧ Converged desired d d'')
      (d', Result.ops desired ⟨wrote, modules, [], temps⟩) := by
  apply Prog.Guarantees.mono (removeStale_removed h.tree _ _)
  intro o s ho
  refine ⟨ho.shape, fun hnone => ?_⟩
  obtain ⟨hres, hlog, hudf, hrem⟩ := ho.success hnone
  have hfiles : (d'.files [udfName]).filter (isStale desired) =
      (d.files [udfName]).filter (isStale desired) :=
    filter_files_congr _ fun f hs => h.stale htree hs
  rw [hfiles] at hres hlog
  refine ⟨by simpa [planned] using hres, ?_, h.converged htree hudf hrem⟩
  rw [hlog, hres]
  simp [Result.ops]

end stale

end McGateway.Operator
