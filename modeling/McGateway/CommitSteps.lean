import McGateway.Commit
import McGateway.RenderSpec

/-! # What a commit does to the mount

`CommitStep desired op d d'` lists everything a single operation of `commit desired` can do to
the disk: something to temp files only; install a desired module; install the desired
`config.lua`, and this only when every desired module is in place; remove a module that is not
desired, and this only when the whole desired tree is in place.  `commit_guarantees` proves it for
every operation of every commit, from any disk and with any failures.  The safety results about
histories of commits use only this list. -/

namespace McGateway.Operator

open Bytes (ascii hasPrefix hasSuffix sortBy)

/-! ### Names -/

def configName : Name := ⟨configFile, by decide⟩
def udfName : Name := ⟨udfDir, by decide⟩

/-- The name in the tree of an entry of the module directory. -/
def udfPath (f : Name) : Bytes := udfDir ++ ascii "/" ++ f.1

/-- The name of the temp file for an entry. -/
def Name.tmp (f : Name) : Name :=
  ⟨f.1 ++ tmpSuffix, by
    obtain ⟨hne, -, -, hslash⟩ := f.2
    refine ⟨by simp [hne], ?_, ?_, by simp [hslash, tmpSuffix, ascii]⟩
    all_goals
      intro h
      have := congrArg List.length h
      simp [tmpSuffix, ascii] at this⟩

theorem resolve_configFile : resolve configFile = some [configName] :=
  resolve_entry configName (by decide)

theorem resolve_udfPath {f : Name} (h : 0 ∉ f.1) : resolve (udfPath f) = some [udfName, f] :=
  resolve_join udfName f (by decide) h

theorem resolve_configFile_tmp : resolve (configFile ++ tmpSuffix) = some [configName.tmp] :=
  resolve_entry configName.tmp (by decide)

theorem resolve_udfPath_tmp {f : Name} (h : 0 ∉ f.1) :
    resolve (udfPath f ++ tmpSuffix) = some [udfName, f.tmp] := by
  have h0 : 0 ∉ f.tmp.1 := by
    simp only [Name.tmp, List.mem_append, not_or]
    exact ⟨h, by decide⟩
  have e : udfPath f ++ tmpSuffix = udfPath f.tmp := by simp [udfPath, Name.tmp]
  rw [e, resolve_udfPath h0]

theorem udfPath_injective : Function.Injective udfPath := by
  intro f g h
  apply Subtype.ext
  simpa [udfPath] using h

theorem udfPath_ne_configFile (f : Name) : udfPath f ≠ configFile := by
  simp [udfPath, configFile, udfDir, ascii]

/-- The path of a temp file. -/
def Temp (p : Path) : Prop := ∃ f, p.getLast? = some f ∧ hasSuffix f.1 tmpSuffix = true

theorem temp_tmp (dir : Path) (f : Name) : Temp (dir ++ [f.tmp]) :=
  ⟨f.tmp, by simp, Bytes.hasSuffix_append _ _⟩

theorem not_temp_config : ¬ Temp [configName] := by
  rintro ⟨f, hf, hs⟩
  simp only [List.getLast?_singleton, Option.some.injEq] at hf
  subst hf
  revert hs
  decide

theorem not_temp_of_wasm {f : Name} (h : hasSuffix f.1 wasmSuffix = true) : ¬ Temp [udfName, f] := by
  rintro ⟨g, hg, hs⟩
  simp only [List.getLast?_cons_cons, List.getLast?_singleton, Option.some.injEq] at hg
  subst hg
  obtain ⟨r, hr⟩ := Bytes.hasSuffix_iff.mp h
  rw [hr, Bytes.hasSuffix_append_of_length_le _ _ _ (by decide)] at hs
  revert hs
  decide

/-- A tree the committer can place: `config.lua` and entries of the module directory. -/
structure FlatTree (desired : ByteMap Bytes) : Prop where
  config : configFile ∈ desired
  flat : ∀ path ∈ desired, path ≠ configFile →
    ∃ f : Name, 0 ∉ f.1 ∧ hasSuffix f.1 wasmSuffix = true ∧ path = udfPath f

theorem FlatTree.udf {desired : ByteMap Bytes} (h : FlatTree desired) {f : Name}
    (hf : udfPath f ∈ desired) : 0 ∉ f.1 ∧ hasSuffix f.1 wasmSuffix = true := by
  obtain ⟨g, h0, hw, hg⟩ := h.flat _ hf (udfPath_ne_configFile f)
  rw [udfPath_injective hg]
  exact ⟨h0, hw⟩

/-! ### Steps -/

/-- Unchanged, except that the module directory may have been created. -/
def Untouched (d d' : Disk) (q : Path) : Prop :=
  d'.node q = d.node q ∨ (q = [udfName] ∧ d.node q = none ∧ d'.node q = some .dir)

/-- The desired modules among `paths` are in place. -/
def ModulesAt (desired : ByteMap Bytes) (paths : List Bytes) (d : Disk) : Prop :=
  ∀ f data, udfPath f ∈ paths → desired.lookup (udfPath f) = some data →
    d.node [udfName, f] = some (.file data)

/-- The desired tree is in place. -/
structure InPlace (desired : ByteMap Bytes) (d : Disk) : Prop where
  modules : ModulesAt desired (sortedKeys desired) d
  config : ∀ data, desired.lookup configFile = some data → d.node [configName] = some (.file data)

/-- What a single operation of a commit can do. -/
inductive CommitStep (desired : ByteMap Bytes) : FsOp → Disk → Disk → Prop where
  | temp (op : FsOp) (d d' : Disk) (frame : ∀ q, ¬ Temp q → Untouched d d' q) :
      CommitStep desired op d d'
  | module (op : FsOp) (d d' : Disk) (f : Name) (data : Bytes)
      (hf : desired.lookup (udfPath f) = some data)
      (hat : d'.node [udfName, f] = some (.file data))
      (frame : ∀ q, q ≠ [udfName, f] → ¬ Temp q → Untouched d d' q) : CommitStep desired op d d'
  | config (op : FsOp) (d d' : Disk) (data : Bytes)
      (hmodules : ModulesAt desired (sortedKeys desired) d)
      (hc : desired.lookup configFile = some data) (hat : d'.node [configName] = some (.file data))
      (frame : ∀ q, q ≠ [configName] → ¬ Temp q → Untouched d d' q) : CommitStep desired op d d'
  | stale (d d' : Disk) (f : Name) (hplace : InPlace desired d) (h0 : 0 ∉ f.1)
      (hw : hasSuffix f.1 wasmSuffix = true) (hf : udfPath f ∉ desired)
      (hat : d'.node [udfName, f] = none) (frame : ∀ q, q ≠ [udfName, f] → d'.node q = d.node q) :
      CommitStep desired (.remove (udfPath f)) d d'

theorem CommitStep.refl (desired : ByteMap Bytes) (op : FsOp) (d : Disk) :
    CommitStep desired op d d :=
  .temp op d d fun _ _ => Or.inl rfl

/-- Writing an entry of the root or of the module directory touches nothing else. -/
theorem ChangesAt.untouched_of_ne {d d' : Disk} {dir : Path} {f : Name}
    (hdir : dir = [] ∨ dir = [udfName]) (h : ChangesAt d d' (dir ++ [f])) {q : Path}
    (hne : q ≠ dir ++ [f]) : Untouched d d' q := by
  rcases h q hne with h | ⟨h1, h2, h3⟩
  · exact Or.inl h
  · right
    have hq0 : q ≠ [] := by
      rintro rfl
      simp at h1
    refine ⟨?_, h1, h2⟩
    rcases List.prefix_concat_iff.mp h3 with h3 | h3
    · exact absurd h3 hne
    · rcases hdir with rfl | rfl
      · exact absurd (List.prefix_nil.mp h3) hq0
      · rcases List.prefix_cons_iff.mp h3 with h3 | ⟨t, rfl, ht⟩
        · exact absurd h3 hq0
        · rw [List.prefix_nil.mp ht]

/-- Writing a temp file touches no other file. -/
theorem ChangesAt.untouched {d d' : Disk} {dir : Path} {f : Name} (hdir : dir = [] ∨ dir = [udfName])
    (hf : Temp (dir ++ [f])) (h : ChangesAt d d' (dir ++ [f])) {q : Path} (hq : ¬ Temp q) :
    Untouched d d' q := by
  have hne : q ≠ dir ++ [f] := by
    rintro rfl
    exact hq hf
  exact h.untouched_of_ne hdir hne

theorem Moved.untouched {d d' : Disk} {p t : Path} {data : Bytes} (ht : Temp t)
    (h : Moved d d' t p data) {q : Path} (hqp : q ≠ p) (hq : ¬ Temp q) : Untouched d d' q :=
  Or.inl (h.frame q (fun e => hq (e ▸ ht)) hqp)

section commit
variable {desired : ByteMap Bytes}

theorem Untouched.node_eq {d d' : Disk} {q : Path} (h : Untouched d d' q) (hq : q ≠ [udfName]) :
    d'.node q = d.node q := by
  rcases h with h | ⟨h, -, -⟩
  · exact h
  · exact absurd h hq

theorem configName_ne_udfName : [configName] ≠ [udfName] := by decide

/-- Modules stay in place when no module entry is touched. -/
theorem ModulesAt.untouched (hflat : FlatTree desired) {paths : List Bytes} {d d' : Disk}
    (h : ModulesAt desired paths d)
    (frame : ∀ f : Name, hasSuffix f.1 wasmSuffix = true → udfPath f ∈ desired →
      Untouched d d' [udfName, f]) : ModulesAt desired paths d' := by
  intro f data hf hdata
  have hmem : udfPath f ∈ desired := AList.lookup_isSome.mp (by rw [hdata]; rfl)
  rw [(frame f (hflat.udf hmem).2 hmem).node_eq (by simp)]
  exact h f data hf hdata

/-- What a step can do to `config.lua`. -/
theorem CommitStep.config_cases (hflat : FlatTree desired) {op : FsOp} {d d' : Disk}
    (h : CommitStep desired op d d') :
    d'.node [configName] = d.node [configName] ∨
    ∃ data, desired.lookup configFile = some data ∧ d'.node [configName] = some (.file data) ∧
      ModulesAt desired (sortedKeys desired) d' := by
  cases h with
  | temp _ _ _ frame => exact Or.inl ((frame _ not_temp_config).node_eq configName_ne_udfName)
  | module _ _ _ f _ _ _ frame =>
      exact Or.inl ((frame _ (by simp) not_temp_config).node_eq configName_ne_udfName)
  | config _ _ _ data hmodules hc hat frame =>
      refine Or.inr ⟨data, hc, hat, hmodules.untouched hflat fun f hf _ => ?_⟩
      exact frame _ (by simp) (not_temp_of_wasm hf)
  | stale _ _ f _ _ _ _ _ frame => exact Or.inl (frame _ (by simp))

/-- What a step can do to an entry of the module directory. -/
theorem CommitStep.module_cases (hflat : FlatTree desired) {op : FsOp} {d d' : Disk}
    (h : CommitStep desired op d d') {f : Name} (hw : hasSuffix f.1 wasmSuffix = true) :
    d'.node [udfName, f] = d.node [udfName, f] ∨
    (∃ data, desired.lookup (udfPath f) = some data ∧ d'.node [udfName, f] = some (.file data)) ∨
    (d'.node [udfName, f] = none ∧ op = .remove (udfPath f) ∧ InPlace desired d') := by
  cases h with
  | temp _ _ _ frame => exact Or.inl ((frame _ (not_temp_of_wasm hw)).node_eq (by simp))
  | module _ _ _ g data hg hat frame =>
      by_cases hfg : f = g
      · subst hfg
        exact Or.inr (Or.inl ⟨data, hg, hat⟩)
      · exact Or.inl ((frame _ (by simp [hfg]) (not_temp_of_wasm hw)).node_eq (by simp))
  | config _ _ _ _ _ _ _ frame =>
      exact Or.inl ((frame _ (by simp) (not_temp_of_wasm hw)).node_eq (by simp))
  | stale _ _ g hplace _ _ hg hat frame =>
      by_cases hfg : f = g
      · subst hfg
        refine Or.inr (Or.inr ⟨hat, rfl, ?_, ?_⟩)
        · refine hplace.modules.untouched hflat fun g' _ hg' => Or.inl (frame _ ?_)
          rintro he
          simp only [List.cons.injEq, and_true, true_and] at he
          exact hg (he ▸ hg')
        · intro data hdata
          rw [frame _ (by simp)]
          exact hplace.config data hdata
      · exact Or.inl (frame _ (by simp [hfg]))

/-! ### Outcomes -/

/-- On return without an error, `R` holds of the disk. -/
def OnSuccess (R : Disk → Prop) (o : Outcome) (d : Disk) : Prop := o.2 = none → R d

theorem andThen_guarantees {G : FsOp → Disk → Disk → Prop} {P R : Disk → Prop} {p : Prog FS Outcome}
    {f : Result → Prog FS Outcome} {d : Disk} (hp : p.Guarantees FsStep G (OnSuccess P) d)
    (hf : ∀ res d, P d → (f res).Guarantees FsStep G (OnSuccess R) d) :
    (andThen p f).Guarantees FsStep G (OnSuccess R) d := by
  apply Prog.Guarantees.bind
  apply hp.mono
  intro o d' ho
  by_cases h : o.2 = none
  · simp only [h, Option.isSome_none, Bool.false_eq_true, if_false]
    exact hf _ _ (ho h)
  · have hs : o.2.isSome = true := Option.isSome_iff_ne_none.mpr h
    simp only [hs, if_true]
    exact fun h' => absurd h' h

/-! ### Loops that remove -/

/-- The names come from a directory listing. -/
def Listed (names : List Bytes) : Prop := ∀ n ∈ names, ∃ f : Name, f.1 = n

theorem resolve_entryPath {dir : Bytes} {g : Path} (hdir : dir = [] ∧ g = [] ∨ dir = udfDir ∧ g = [udfName])
    {f : Name} {p : Path} (h : resolve (entryPath dir f.1) = some p) :
    p = g ++ [f] ∧ 0 ∉ f.1 := by
  have h0 : 0 ∉ f.1 := by
    intro hmem
    have hmem' : 0 ∈ entryPath dir f.1 := by
      unfold entryPath
      split_ifs <;> simp [hmem]
    rw [resolve, if_pos hmem'] at h
    cases h
  refine ⟨?_, h0⟩
  rcases hdir with ⟨rfl, rfl⟩ | ⟨rfl, rfl⟩
  · have e : entryPath [] f.1 = f.1 := rfl
    rw [e, resolve_entry f h0, Option.some.injEq] at h
    exact h.symm
  · have e : entryPath udfDir f.1 = udfPath f := rfl
    rw [e, resolve_udfPath h0, Option.some.injEq] at h
    exact h.symm

/-- The module is to be removed. -/
def isStale (desired : ByteMap Bytes) (name : Bytes) : Bool :=
  hasSuffix name wasmSuffix ∧ entryPath udfDir name ∉ desired

/-- The loop shared by the sweep and the removal of stale modules. -/
def removeLoop (sel : Bytes → Bool) (dir : Bytes) (record : Result → Bytes → Result)
    (err : Bytes → FsError → CommitError) : List Bytes → Result → Prog FS Outcome
  | [], res => pure (res, none)
  | name :: names, res =>
      if sel name then do
        match ← Prog.ask (S := FS) (.remove (entryPath dir name)) with
        | .error e => pure (res, some (err (entryPath dir name) e))
        | .ok () => removeLoop sel dir record err names (record res (entryPath dir name))
      else removeLoop sel dir record err names res

theorem sweepNames_eq (dir : Bytes) : ∀ (names : List Bytes) (res : Result),
    sweepNames dir names res = removeLoop (fun name => hasSuffix name tmpSuffix) dir
      (fun res path => { res with cleanedTemp := res.cleanedTemp ++ [path] }) .sweep names res
  | [], _ => rfl
  | name :: names, res => by
      unfold sweepNames removeLoop
      split_ifs with h
      · congr 1
        funext a
        cases a with
        | error e => rfl
        | ok u => exact sweepNames_eq dir names _
      · exact sweepNames_eq dir names res

theorem removeNames_eq (desired : ByteMap Bytes) : ∀ (names : List Bytes) (res : Result),
    removeNames desired names res = removeLoop (isStale desired) udfDir
      (fun res path => { res with removedModules := res.removedModules ++ [path] }) .removeStale names res
  | [], _ => rfl
  | name :: names, res => by
      unfold removeNames removeLoop
      simp only [isStale, decide_eq_true_eq]
      split_ifs with h
      · congr 1
        funext a
        cases a with
        | error e => rfl
        | ok u => exact removeNames_eq desired names _
      · exact removeNames_eq desired names res

theorem removeLoop_guarantees {sel : Bytes → Bool} {dir : Bytes} {record : Result → Bytes → Result}
    {err : Bytes → FsError → CommitError} {G : FsOp → Disk → Disk → Prop} {P : Disk → Prop}
    (hstep : ∀ (f : Name) d a d', sel f.1 = true → P d → FsStep (.remove (entryPath dir f.1)) d a d' →
      G (.remove (entryPath dir f.1)) d d' ∧ P d') :
    ∀ (names : List Bytes) (res : Result) (d : Disk), Listed names → P d →
      (removeLoop sel dir record err names res).Guarantees FsStep G (OnSuccess P) d
  | [], _, _, _, h => fun _ => h
  | name :: names, res, d, hl, h => by
      obtain ⟨⟨f, rfl⟩, hl'⟩ := List.forall_mem_cons.mp hl
      unfold removeLoop
      by_cases hs : sel f.1 = true
      · rw [if_pos hs]
        intro a d' hremove
        obtain ⟨hg, h'⟩ := hstep f d a d' hs h hremove
        refine ⟨hg, ?_⟩
        cases a with
        | error e => exact fun h => by simp at h
        | ok u => exact removeLoop_guarantees hstep names _ d' hl' h'
      · rw [if_neg hs]
        exact removeLoop_guarantees hstep names res d hl' h

/-! ### Sweeping -/

theorem sweepNames_guarantees {dir : Bytes} {g : Path}
    (hdir : dir = [] ∧ g = [] ∨ dir = udfDir ∧ g = [udfName]) (names : List Bytes) (res : Result) (d : Disk)
    (hl : Listed names) :
    (sweepNames dir names res).Guarantees FsStep (CommitStep desired) (OnSuccess fun _ => True) d := by
  rw [sweepNames_eq]
  apply removeLoop_guarantees _ names res d hl trivial
  intro f d a d' hs _ hremove
  refine ⟨?_, trivial⟩
  cases hremove.remove_cases with
  | inl hsame =>
      obtain ⟨rfl, -⟩ := hsame
      exact .refl ..
  | inr hgone =>
      obtain ⟨p, hp, -, hframe⟩ := hgone
      obtain ⟨rfl, -⟩ := resolve_entryPath hdir hp
      refine .temp _ _ _ fun q hq => Or.inl (hframe q ?_)
      intro he
      exact hq ⟨f, by simp [he], hs⟩

theorem listed_sortBy {names : List Bytes} (h : Listed names) : Listed (sortBy id names) :=
  fun n hn => h n ((Bytes.mem_sortBy id).mp hn)

theorem FsStep.listed {name : Bytes} {d d' : Disk} {names : List Bytes}
    (h : FsStep (.readDir name) d (.ok names) d') : Listed names := by
  obtain ⟨-, hok⟩ := h.readDir_cases
  obtain ⟨p, -, hnames⟩ := hok names rfl
  intro n hn
  obtain ⟨f, hf, -⟩ := hnames n hn
  exact ⟨f, hf⟩

theorem sweepDirs_guarantees : ∀ (dirs : List Bytes) (res : Result) (d : Disk),
    (∀ dir ∈ dirs, dir = [] ∨ dir = udfDir) →
    (sweepDirs dirs res).Guarantees FsStep (CommitStep desired) (OnSuccess fun _ => True) d
  | [], _, _, _ => fun _ => trivial
  | dir :: dirs, res, d, hdirs => by
      obtain ⟨hdir, hdirs'⟩ := List.forall_mem_cons.mp hdirs
      intro a d' hstep
      obtain ⟨rfl, -⟩ := FsStep.readDir_cases hstep
      refine ⟨.refl .., ?_⟩
      cases a with
      | error e => exact fun h => by simp at h
      | ok names =>
          have hdir' : ∃ g : Path, dir = [] ∧ g = [] ∨ dir = udfDir ∧ g = [udfName] := by
            rcases hdir with h | h
            · exact ⟨[], Or.inl ⟨h, rfl⟩⟩
            · exact ⟨[udfName], Or.inr ⟨h, rfl⟩⟩
          obtain ⟨g, hg⟩ := hdir'
          apply andThen_guarantees (sweepNames_guarantees hg _ _ _ (listed_sortBy hstep.listed))
          intro res' d'' _
          exact sweepDirs_guarantees dirs res' d'' hdirs'

/-! ### Writing -/

/-- `P` is kept while only the temp file `t` changes, `P'` holds once `data` is at `p`, and all
this within `G`. -/
structure Installs (G : FsOp → Disk → Disk → Prop) (P P' : Disk → Prop) (p t : Path) (data : Bytes) :
    Prop where
  skip : ∀ op d, P d → G op d d
  temp : ∀ op d d', P d → ChangesAt d d' t → P d' ∧ G op d d'
  move : ∀ op d d', P d → Moved d d' t p data → P' d' ∧ G op d d'
  same : ∀ d, P d → d.node p = some (.file data) → P' d

section writing
variable {G : FsOp → Disk → Disk → Prop} {P P' : Disk → Prop} {path data : Bytes} {p t : Path}

theorem stage_guarantees (hi : Installs G P P' p t data) (hp : resolve path = some p)
    (ht : resolve (path ++ tmpSuffix) = some t) {d : Disk} (h : P d) :
    (stage path data).Guarantees FsStep G (fun r d' => ∀ b, r = .ok b → P' d') d := by
  intro a d1 hwrite
  rcases hwrite.writeFile_cases with ⟨rfl, e, rfl⟩ | ⟨t', ht', hchange, hdata⟩
  · exact ⟨hi.skip _ _ h, fun b hb => by simp at hb⟩
  · obtain rfl : t = t' := by simpa [ht] using ht'
    obtain ⟨h1, hg⟩ := hi.temp (.writeFile (path ++ tmpSuffix) data) d d1 h hchange
    refine ⟨hg, ?_⟩
    cases a with
    | error e => exact fun b hb => by simp at hb
    | ok u =>
        intro a' d2 hrename
        rcases hrename.rename_cases ht hp (hdata rfl) with ⟨rfl, e, rfl⟩ | hmoved
        · exact ⟨hi.skip _ _ h1, fun b hb => by simp at hb⟩
        · obtain ⟨h2, hg2⟩ := hi.move (.rename (path ++ tmpSuffix) path) d1 d2 h1 hmoved
          refine ⟨hg2, ?_⟩
          cases a' with
          | error e => exact fun b hb => by simp at hb
          | ok u => exact fun b _ => h2

theorem writeIfChanged_guarantees (hi : Installs G P P' p t data) (hp : resolve path = some p)
    (ht : resolve (path ++ tmpSuffix) = some t) {d : Disk} (h : P d) :
    (writeIfChanged path data).Guarantees FsStep G (fun r d' => ∀ b, r = .ok b → P' d') d := by
  have hstage := stage_guarantees hi hp ht h
  intro a d' hread
  obtain ⟨rfl, hcur⟩ := FsStep.readFile_cases hread
  refine ⟨hi.skip _ _ h, ?_⟩
  cases a with
  | error e =>
      cases e with
      | notExist => exact hstage
      | other => exact fun b hb => by simp at hb
  | ok cur =>
      change Prog.Guarantees FsStep G _ (if cur = data then pure (.ok false) else stage path data) d'
      split_ifs with heq
      · obtain ⟨p', hp', hnode⟩ := contents_eq_some.mp (hcur cur rfl)
        obtain rfl : p = p' := by simpa [hp] using hp'
        exact fun b _ => hi.same _ h (heq ▸ hnode)
      · exact hstage

end writing

theorem installs_module (hflat : FlatTree desired) (done : List Bytes) {f : Name} {data : Bytes}
    (hdata : desired.lookup (udfPath f) = some data) :
    Installs (CommitStep desired) (ModulesAt desired done) (ModulesAt desired (udfPath f :: done))
      [udfName, f] [udfName, f.tmp] data := by
  refine ⟨fun op d _ => .refl _ op d, ?_, ?_, ?_⟩
  · intro op d1 d2 h1 hch
    have hun : ∀ q, ¬ Temp q → Untouched d1 d2 q :=
      fun q hq => ChangesAt.untouched (Or.inr rfl) (temp_tmp [udfName] f) hch hq
    exact ⟨h1.untouched hflat fun g hgw _ => hun _ (not_temp_of_wasm hgw), .temp op d1 d2 hun⟩
  · intro op d1 d2 h1 hm
    have hun : ∀ q, q ≠ [udfName, f] → ¬ Temp q → Untouched d1 d2 q :=
      fun q hqp hq => hm.untouched (temp_tmp [udfName] f) hqp hq
    refine ⟨?_, .module op d1 d2 f data hdata hm.target hun⟩
    intro g data' hg hdata'
    by_cases hgf : g = f
    · subst hgf
      rw [hdata, Option.some.injEq] at hdata'
      rw [hm.target, hdata']
    · have hg' : udfPath g ∈ done := by
        rcases List.mem_cons.mp hg with hg | hg
        · exact absurd (udfPath_injective hg) hgf
        · exact hg
      have hgw := (hflat.udf (AList.lookup_isSome.mp (by rw [hdata']; rfl))).2
      rw [(hun [udfName, g] (by simp [hgf]) (not_temp_of_wasm hgw)).node_eq (by simp)]
      exact h1 g data' hg' hdata'
  · intro d1 h1 hnode g data' hg hdata'
    rcases List.mem_cons.mp hg with hg | hg
    · obtain rfl := udfPath_injective hg
      rw [hdata, Option.some.injEq] at hdata'
      rw [hnode, hdata']
    · exact h1 g data' hg hdata'

/-- The loop over the modules leaves those of `paths` in place, besides those of `done`. -/
theorem writeModules_guarantees (hflat : FlatTree desired) :
    ∀ (paths done : List Bytes) (res : Result) (d : Disk), (∀ path ∈ paths, path ∈ desired) →
      ModulesAt desired done d →
      (writeModules desired paths res).Guarantees FsStep (CommitStep desired)
        (OnSuccess (ModulesAt desired (paths ++ done))) d
  | [], _, _, _, _, h => fun _ => h
  | path :: paths, done, res, d, hpaths, h => by
      obtain ⟨hpath, hpaths'⟩ := List.forall_mem_cons.mp hpaths
      unfold writeModules
      by_cases hc : path = configFile
      · have hpre : ¬ hasPrefix path (udfDir ++ ascii "/") = true := by
          subst hc
          decide
        rw [if_neg hpre]
        apply (writeModules_guarantees hflat paths done res d hpaths' h).mono
        intro o d' ho hok f data hf hdata
        rcases List.mem_cons.mp hf with hf | hf
        · exact absurd (hf.trans hc) (udfPath_ne_configFile f)
        · exact ho hok f data hf hdata
      · obtain ⟨f, h0, hw, rfl⟩ := hflat.flat path hpath hc
        obtain ⟨data, hdata⟩ := Option.isSome_iff_exists.mp (AList.lookup_isSome.mpr hpath)
        have hpre : hasPrefix (udfPath f) (udfDir ++ ascii "/") = true := Bytes.hasPrefix_append _ _
        rw [if_pos hpre, hdata, Option.getD_some]
        apply Prog.Guarantees.bind
        apply (writeIfChanged_guarantees (installs_module hflat done hdata) (resolve_udfPath h0)
          (resolve_udfPath_tmp h0) h).mono
        intro r d' hr
        cases r with
        | error e => exact fun h => by simp at h
        | ok b =>
            apply (writeModules_guarantees hflat paths (udfPath f :: done) _ d' hpaths' (hr b rfl)).mono
            intro o d'' ho hok g data' hg hdata'
            apply ho hok g data' _ hdata'
            simp only [List.cons_append, List.mem_cons, List.mem_append] at hg ⊢
            tauto

theorem installs_config (hflat : FlatTree desired) {data : Bytes}
    (hdata : desired.lookup configFile = some data) :
    Installs (CommitStep desired) (ModulesAt desired (sortedKeys desired)) (InPlace desired)
      [configName] [configName.tmp] data := by
  refine ⟨fun op d _ => .refl _ op d, ?_, ?_, ?_⟩
  · intro op d1 d2 h1 hch
    have hun : ∀ q, ¬ Temp q → Untouched d1 d2 q :=
      fun q hq => ChangesAt.untouched (Or.inl rfl) (temp_tmp [] configName) hch hq
    exact ⟨h1.untouched hflat fun g hgw _ => hun _ (not_temp_of_wasm hgw), .temp op d1 d2 hun⟩
  · intro op d1 d2 h1 hm
    have hun : ∀ q, q ≠ [configName] → ¬ Temp q → Untouched d1 d2 q :=
      fun q hqp hq => hm.untouched (temp_tmp [] configName) hqp hq
    refine ⟨⟨h1.untouched hflat fun g hgw _ => hun _ (by simp) (not_temp_of_wasm hgw), ?_⟩,
      .config op d1 d2 data h1 hdata hm.target hun⟩
    intro data' hdata'
    rw [hdata, Option.some.injEq] at hdata'
    rw [hm.target, hdata']
  · intro d1 h1 hnode
    refine ⟨h1, fun data' hdata' => ?_⟩
    rw [hdata, Option.some.injEq] at hdata'
    rw [hnode, hdata']

theorem writeConfig_guarantees (hflat : FlatTree desired) (res : Result) (d : Disk)
    (h : ModulesAt desired (sortedKeys desired) d) :
    (writeConfig desired res).Guarantees FsStep (CommitStep desired) (OnSuccess (InPlace desired)) d := by
  obtain ⟨data, hdata⟩ := Option.isSome_iff_exists.mp (AList.lookup_isSome.mpr hflat.config)
  unfold writeConfig
  rw [hdata, Option.getD_some]
  apply Prog.Guarantees.bind
  apply (writeIfChanged_guarantees (installs_config hflat hdata) resolve_configFile
    resolve_configFile_tmp h).mono
  intro r d' hr
  cases r with
  | error e => exact fun h => by simp at h
  | ok b => exact fun _ => hr b rfl

/-! ### Removing -/

theorem removeNames_guarantees (names : List Bytes) (res : Result) (d : Disk) (hl : Listed names)
    (h : InPlace desired d) :
    (removeNames desired names res).Guarantees FsStep (CommitStep desired) (OnSuccess (InPlace desired)) d := by
  rw [removeNames_eq]
  apply removeLoop_guarantees _ names res d hl h
  intro f d a d' hs h hremove
  obtain ⟨hw, hnot⟩ : hasSuffix f.1 wasmSuffix = true ∧ entryPath udfDir f.1 ∉ desired := by
    simpa [isStale] using hs
  cases hremove.remove_cases with
  | inl hsame =>
      obtain ⟨rfl, -⟩ := hsame
      exact ⟨.refl .., h⟩
  | inr hgone =>
      obtain ⟨p, hp, hnone, hframe⟩ := hgone
      obtain ⟨rfl, h0⟩ := resolve_entryPath (Or.inr ⟨rfl, rfl⟩) hp
      refine ⟨.stale d d' f h h0 hw hnot hnone hframe, ?_, ?_⟩
      · intro g data hg hdata
        have hgf : g ≠ f := by
          intro he
          subst he
          have hmem : udfPath g ∈ desired := AList.lookup_isSome.mp (Option.isSome_of_eq_some hdata)
          exact hnot hmem
        rw [hframe _ (by simp [hgf])]
        exact h.modules g data hg hdata
      · intro data hdata
        rw [hframe _ (by simp)]
        exact h.config data hdata

theorem removeStale_guarantees (res : Result) (d : Disk) (h : InPlace desired d) :
    (removeStale desired res).Guarantees FsStep (CommitStep desired) (OnSuccess (InPlace desired)) d := by
  intro a d' hstep
  obtain ⟨rfl, -⟩ := FsStep.readDir_cases hstep
  refine ⟨.refl .., ?_⟩
  cases a with
  | error e => exact fun h => by simp at h
  | ok names => exact removeNames_guarantees _ res _ (listed_sortBy hstep.listed) h

/-- Every operation of a commit is one of the listed steps, and a commit that returns no error
leaves the desired tree in place. -/
theorem commit_guarantees (hflat : FlatTree desired) (d : Disk) :
    (commit desired).Guarantees FsStep (CommitStep desired) (OnSuccess (InPlace desired)) d := by
  unfold commit
  rw [if_neg (not_not.mpr hflat.config)]
  cases (sortedKeys desired).find? (fun path => !recognized path) with
  | some path => exact fun h => by simp at h
  | none =>
      have hkeys : ∀ path ∈ sortedKeys desired, path ∈ desired := by
        intro path hpath
        exact AList.mem_keys.mpr ((Bytes.mem_sortBy id).mp hpath)
      apply andThen_guarantees _ fun res d h => removeStale_guarantees res d h
      apply andThen_guarantees _ fun res d h => writeConfig_guarantees hflat res d h
      apply andThen_guarantees (sweepDirs_guarantees _ _ _ (by simp))
      intro res d' _
      apply (writeModules_guarantees hflat _ [] res d' hkeys (by intro f data hf; simp at hf)).mono
      intro o d'' ho hok
      simpa using ho hok

end commit

end McGateway.Operator
