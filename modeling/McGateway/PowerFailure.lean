import McGateway.Durability

/-! # Power failures during commits

A file is written under a temp name and synced before it is renamed into place, and the directory is
synced after the rename.  Here this is put to the test: the power may fail between any two calls to the
system, and the mount is then found in any of the states that `Storage.PowerLoss` allows.

Whatever fails, no file is ever found torn under its own name (`power_failure_leaves_whole_files`).  That
`config.lua` is found with the modules it refers to needs more.  A rename whose directory is not synced,
because the sync fails or because the process is killed in between, is taken for done by the next
commit, which finds the bytes in place and does not sync again.  Unless that happens (`disturbed`), the
configuration is found with its modules (`power_failure_consistent`), and a commit that has returned no
error is there to stay (`commit_durable`). -/

open Bytes (ascii hasPrefix hasSuffix sortBy)
open UnixPath (isAbs)

namespace McGateway.Operator

/-! ### Writing temp files -/

section writing
variable {started : List Snapshot} {A : Storage Name Bytes → Prop} {s s' : Storage Name Bytes} {g : Path} {f : Name}
  {i : ℕ}

theorem Kept.made (hA : Kept A) (hg : g = [] ∨ g = [udfName]) (hm : s.Made g s') (h : A s) : A s' := by
  induction hm with
  | refl => exact h
  | mkdir s' p f _ _ hnone habove ih =>
      have hpf : p ++ [f] = [udfName] := by
        rcases prefix_of_dir hg habove with hnil | hudf
        · exact absurd hnil (by simp)
        · exact hudf
      obtain ⟨rfl, rfl⟩ : p = [] ∧ f = udfName := List.append_singleton_inj.mp hpf
      exact hA.mkdir s' hnone ih

theorem Sound.opened (h : Sound started s) (hA : Kept A) (hf : IsTmp f) (hopen : s.Opened g f i s') :
    Sound started s' ∧ (A s → A s') := by
  cases hopen with
  | there _ => exact ⟨h, id⟩
  | created _ hi => exact ⟨h.create hf hi, hA.tidy _ _ (.bind s g hf _)⟩

theorem Written.keeps (hw : Written s g f s') (hA : Kept A) (hf : IsTmp f) (hg : g = [] ∨ g = [udfName])
    (h : Sound started s) : Sound started s' ∧ (A s → A s') := by
  cases hw with
  | made _ hm => exact ⟨h.made hm, hA.made hg hm⟩
  | torn s₁ s₂ i part hm _ hopen =>
      obtain ⟨hs₂, hA₂⟩ := (h.made hm).opened hA hf hopen
      refine ⟨hs₂.put hf hopen.view_eq part, fun ha => ?_⟩
      exact hA.tidy _ _ (.put hs₂ hf hopen.view_eq part) (hA₂ (hA.made hg hm ha))
  | whole s₁ s₂ i part hm _ hopen =>
      obtain ⟨hs₂, hA₂⟩ := (h.made hm).opened hA hf hopen
      refine ⟨(hs₂.put hf hopen.view_eq part).settle i, fun ha => ?_⟩
      exact hA.tidy _ _ (.settle _ i) (hA.tidy _ _ (.put hs₂ hf hopen.view_eq part) (hA₂ (hA.made hg hm ha)))

/-- The file is whole when the write has returned. -/
theorem WrittenOut.whole {data : Bytes} (hw : WrittenOut s g f data s') :
    ∃ i, s'.view g f = some (.file i) ∧ s'.clean i = true ∧ s'.data i = data := by
  obtain ⟨s₁, s₂, i, -, -, hopen, rfl⟩ := hw
  exact ⟨i, hopen.view_eq, Function.update_self .., Function.update_self ..⟩

end writing

/-! ### Runs of the committer on the system -/

section runs
variable (o : OsFS) (disturbed : Prop) (started : List Snapshot)

/-- Single files are whole, and `A` holds unless `disturbed`. -/
def Under (A : Storage Name Bytes → Prop) (s : Storage Name Bytes) : Prop :=
  Sound started s ∧ (¬disturbed → A s)

/-- What holds at every moment. -/
abbrev Safe (s : Storage Name Bytes) : Prop := Under disturbed started Calm s

/-- What holds whenever a directory is not about to be synced. -/
abbrev Holds (s : Storage Name Bytes) : Prop := Under disturbed started (fun s => Calm s ∧ Steady s) s

/-- What is seen at a call. -/
def Watched (call : OsCall) (k k' : Kernel) : Prop :=
  Safe disturbed started k'.storage ∧ (¬call.Flushes k.files → Holds disturbed started k.storage)

/-- Every execution of the program on the system is `Watched`, and returns with `Q`. -/
def Runs {α : Type} (p : Prog FS α) (Q : α → Storage Name Bytes → Prop) (k : Kernel) : Prop :=
  (p.implement o.perform).Guarantees (KernelStep o disturbed) (Watched disturbed started)
    (fun a k' => Q a k'.storage) k

/-- A phase of the commit achieves `A`, unless it returns an error. -/
def Achieves (p : Prog FS Outcome) (A : Storage Name Bytes → Prop) (k : Kernel) : Prop :=
  Runs o disturbed started p
    (fun out s => Holds disturbed started s ∧ (out.2 = none → Under disturbed started A s)) k

end runs

section rules
variable {o : OsFS} {disturbed : Prop} {started : List Snapshot} {A B : Storage Name Bytes → Prop} {k : Kernel}
  {s s' : Storage Name Bytes} {α β : Type}

theorem Under.mono (h : Under disturbed started A s) (hAB : A s → B s) : Under disturbed started B s :=
  ⟨h.1, fun hd => hAB (h.2 hd)⟩

theorem Holds.safe (h : Holds disturbed started s) : Safe disturbed started s := h.mono And.left

theorem Runs.bind {p : Prog FS α} {f : α → Prog FS β} {P : α → Storage Name Bytes → Prop}
    {Q : β → Storage Name Bytes → Prop} (hp : Runs o disturbed started p P k)
    (hf : ∀ a k', P a k'.storage → Runs o disturbed started (f a) Q k') : Runs o disturbed started (p >>= f) Q k := by
  unfold Runs
  rw [Prog.implement_bind]
  exact Prog.Guarantees.bind (hp.mono hf)

theorem Runs.call {op : FsOp} {f : op.Answer → Prog FS β} {P : op.Answer → Kernel → Prop}
    {Q : β → Storage Name Bytes → Prop}
    (hp : (o.perform op).Guarantees (KernelStep o disturbed) (Watched disturbed started) P k)
    (hf : ∀ a k', P a k' → Runs o disturbed started (f a) Q k') : Runs o disturbed started (.call op f) Q k :=
  Prog.Guarantees.bind (hp.mono hf)

theorem Achieves.done {res : Result} (hA : A k.storage → Calm k.storage ∧ Steady k.storage)
    (h : Under disturbed started A k.storage) : Achieves o disturbed started (pure (res, none)) A k :=
  ⟨h.mono hA, fun _ => h⟩

theorem Achieves.fail {res : Result} {e : CommitError} (h : Holds disturbed started k.storage) :
    Achieves o disturbed started (pure (res, some e)) A k :=
  ⟨h, fun he => by cases he⟩

theorem Achieves.andThen {p : Prog FS Outcome} {f : Result → Prog FS Outcome}
    (hp : Achieves o disturbed started p A k)
    (hf : ∀ res k', Under disturbed started A k'.storage → Achieves o disturbed started (f res) B k') :
    Achieves o disturbed started (andThen p f) B k := by
  apply Runs.bind hp
  rintro ⟨res, err⟩ k' ⟨hholds, hA⟩
  cases err with
  | none => exact hf res k' (hA rfl)
  | some e => exact Achieves.fail hholds

/-- The calls of a method between which no directory is to be synced. -/
theorem watched_of_holds {p : Prog OS α} {Q : α → Kernel → Prop}
    (hp : p.Guarantees (KernelStep o disturbed) (fun _ _ k' => Holds disturbed started k'.storage) Q k)
    (hk : Holds disturbed started k.storage) :
    p.Guarantees (KernelStep o disturbed) (Watched disturbed started) Q k := by
  apply (hp.before hk).imp _ fun _ _ => id
  intro call k₁ a k₂ _ h
  exact ⟨Holds.safe h.2, fun _ => h.1⟩

theorem readFile_watched (hroot : isAbs o.root = true) (name : Bytes) (hk : Holds disturbed started k.storage) :
    (o.perform (.readFile name)).Guarantees (KernelStep o disturbed) (Watched disturbed started)
      (fun a k' => k'.storage = k.storage ∧ FileRead k.storage name a) k := by
  refine watched_of_holds ((readFile_spec hroot name k).imp ?_ fun _ _ => id) hk
  intro _ _ _ k' _ hsame
  rw [hsame]
  exact hk

theorem readDir_watched (hroot : isAbs o.root = true) (name : Bytes) (hk : Holds disturbed started k.storage) :
    (o.perform (.readDir name)).Guarantees (KernelStep o disturbed) (Watched disturbed started)
      (fun a k' => k'.storage = k.storage ∧ DirRead k.storage name a) k := by
  refine watched_of_holds ((readDir_spec hroot name k).imp ?_ fun _ _ => id) hk
  intro _ _ _ k' _ hsame
  rw [hsame]
  exact hk

theorem remove_watched (hroot : isAbs o.root = true) (name : Bytes) (hk : Under disturbed started A k.storage)
    (hA : ∀ s, A s → Calm s ∧ Steady s)
    (hgone : ∀ s, Unlinked k.storage name s → Under disturbed started A s) :
    (o.perform (.remove name)).Guarantees (KernelStep o disturbed) (Watched disturbed started)
      (fun _ k' => Under disturbed started A k'.storage) k := by
  have hsame : ∀ s, s = k.storage ∨ Unlinked k.storage name s → Under disturbed started A s := by
    rintro s (rfl | hs)
    · exact hk
    · exact hgone s hs
  refine watched_of_holds ((remove_spec hroot name k).imp ?_ ?_) (hk.mono (hA _))
  · exact fun _ _ _ k' _ h => (hsame _ h).mono (hA _)
  · exact fun _ k' h => hsame _ (h.imp_left And.left)

theorem writeFile_watched (hroot : isAbs o.root = true) {name : Bytes} {g : Path} {f : Name}
    (hname : resolve name = some (g ++ [f])) (hf : IsTmp f) (hg : g = [] ∨ g = [udfName]) (data : Bytes)
    (hkept : Kept A) (hA : ∀ s, A s → Calm s ∧ Steady s) (hk : Under disturbed started A k.storage) :
    (o.perform (.writeFile name data)).Guarantees (KernelStep o disturbed) (Watched disturbed started)
      (fun a k' => Under disturbed started A k'.storage ∧ (a = .ok () → ∃ i, k'.storage.view g f = some (.file i) ∧
        k'.storage.clean i = true ∧ k'.storage.data i = data)) k := by
  have hunder : ∀ s, Written k.storage g f s → Under disturbed started A s := by
    intro s hw
    obtain ⟨hsound, hA'⟩ := hw.keeps hkept hf hg hk.1
    exact ⟨hsound, fun hd => hA' (hk.2 hd)⟩
  refine watched_of_holds ((writeFile_spec hroot hname data k).imp ?_ ?_) (hk.mono (hA _))
  · exact fun _ _ _ k' _ hw => (hunder _ hw).mono (hA _)
  · exact fun a k' hw => ⟨hunder _ hw.1, fun ha => (hw.2 ha).whole⟩

theorem rename_watched (hroot : isAbs o.root = true) {oldname newname : Bytes} {g : Path} {f f' : Name}
    (hold : resolve oldname = some (g ++ [f])) (hnew : resolve newname = some (g ++ [f']))
    (hB : ∀ s, B s → Calm s ∧ Steady s) (hk : Holds disturbed started k.storage)
    (hmoved : ∀ s, Renamed k.storage g f g f' s → Safe disturbed started s ∧ Under disturbed started B (s.flush g)) :
    (o.perform (.rename oldname newname)).Guarantees (KernelStep o disturbed) (Watched disturbed started)
      (fun a k' => Holds disturbed started k'.storage ∧ (a.isOk = true → Under disturbed started B k'.storage)) k := by
  have hrenaming : ∀ ok s, Renaming disturbed k.storage g f g f' ok s →
      Holds disturbed started s ∧ (ok = true → Under disturbed started B s) := by
    intro ok s hs
    cases hs with
    | not => exact ⟨hk, fun h => by cases h⟩
    | unsynced _ hren hd => exact ⟨⟨(hmoved _ hren).1.1, fun hnot => absurd hd hnot⟩, fun h => by cases h⟩
    | synced _ _ hren => exact ⟨(hmoved _ hren).2.mono (hB _), fun _ => (hmoved _ hren).2⟩
  apply (rename_spec hroot hold hnew k).imp
  · intro call k₁ _ k' _ h
    refine ⟨?_, fun hnot => (hrenaming _ _ (h.2 hnot)).1⟩
    cases h.1 with
    | inl hren => exact (hmoved _ hren).1
    | inr hren => exact Holds.safe (hrenaming _ _ hren).1
  · exact fun a k' h => hrenaming _ _ h

end rules

/-! ### The phases -/

section phases
variable {o : OsFS} {disturbed : Prop} {started : List Snapshot} {A B : Storage Name Bytes → Prop} {k : Kernel}

/-- Write a file: `A` before and `B` after, whether the file has to be moved into place or is there. -/
theorem writeIfChanged_runs (hroot : isAbs o.root = true) {path data : Bytes} {g : Path} {f : Name}
    (hpath : resolve path = some (g ++ [f])) (htmp : resolve (path ++ tmpSuffix) = some (g ++ [f.tmp]))
    (hg : g = [] ∨ g = [udfName]) (hf : ¬IsTmp f) (hgen : Genuine started (g ++ [f]) data)
    (hkept : Kept A) (hA : ∀ s, A s → Calm s ∧ Steady s) (hB : ∀ s, B s → Calm s ∧ Steady s)
    (hsame : ∀ s i, A s → s.lookup (g ++ [f]) = some (.file i) → s.data i = data → B s)
    (hmove : ∀ s i, A s → s.lookup g = some .dir → s.data i = data →
      Calm (s.move g f.tmp g f i) ∧ B ((s.move g f.tmp g f i).flush g))
    (hk : Under disturbed started A k.storage) :
    Runs o disturbed started (writeIfChanged path data)
      (fun a s => Holds disturbed started s ∧ (a.isOk = true → Under disturbed started B s)) k := by
  have hfail : ∀ (e : CommitError) (k' : Kernel), Holds disturbed started k'.storage →
      Runs o disturbed started (pure (.error e))
        (fun (a : Except CommitError Bool) s =>
          Holds disturbed started s ∧ (a.isOk = true → Under disturbed started B s)) k' :=
    fun e k' h => ⟨h, fun he => by cases he⟩
  have hstage : ∀ k' : Kernel, k'.storage = k.storage → Runs o disturbed started (stage path data)
      (fun a s => Holds disturbed started s ∧ (a.isOk = true → Under disturbed started B s)) k' := by
    intro k' hk'
    apply Runs.call (writeFile_watched hroot htmp (isTmp_tmp f) hg data hkept hA (hk'.symm ▸ hk))
    rintro a k₁ ⟨hk₁, hwritten⟩
    cases a with
    | error e => exact hfail _ k₁ (hk₁.mono (hA _))
    | ok u =>
        obtain ⟨i, hi, hclean, hdata⟩ := hwritten rfl
        apply Runs.call (rename_watched hroot htmp hpath hB (hk₁.mono (hA _)) ?_)
        · rintro a k₂ ⟨hholds, hB'⟩
          cases a with
          | error e => exact hfail _ k₂ hholds
          | ok u => exact ⟨hholds, fun _ => hB' rfl⟩
        · rintro s ⟨j, hj, hdir, -, rfl⟩
          have hij : j = i := by
            rw [Storage.lookup_concat, if_pos hdir, hi, Option.some.injEq, Binding.file.injEq] at hj
            exact hj.symm
          subst hij
          have hsound := hk₁.1.move hi hclean (hdata.symm ▸ hgen) hf
          exact ⟨⟨hsound, fun hd => (hmove _ j (hk₁.2 hd) hdir hdata).1⟩, hsound.flush g,
            fun hd => (hmove _ j (hk₁.2 hd) hdir hdata).2⟩
  apply Runs.call (readFile_watched hroot path (hk.mono (hA _)))
  rintro a k' ⟨hk', hread⟩
  have hholds : Holds disturbed started k'.storage := by
    rw [hk']
    exact hk.mono (hA _)
  cases a with
  | error e =>
      cases e with
      | notExist => exact hstage k' hk'
      | other => exact hfail _ k' hholds
  | ok cur =>
      show Runs o disturbed started (if cur = data then pure (.ok false) else stage path data) _ k'
      split_ifs with hcur
      · obtain ⟨q, i, hq, hi, hdata⟩ := hread
        obtain rfl : g ++ [f] = q := Option.some.inj (hpath.symm.trans hq)
        refine ⟨hholds, fun _ => ?_⟩
        rw [hk']
        exact hk.mono fun h => hsame _ i h hi (hdata.trans hcur)
      · exact hstage k' hk'

theorem Pinned.mono {sn : Snapshot} {P Q : Name → Prop} {s : Storage Name Bytes} (h : Pinned sn P s)
    (hQ : ∀ f, Q f → P f) : Pinned sn Q s :=
  ⟨fun f hf => h.modules f (hQ f hf), fun f hf => h.udf f (hQ f hf)⟩

/-- What holds while the modules are written; those that `P` selects are in place. -/
def Modules (sn : Snapshot) (P : Name → Prop) (s : Storage Name Bytes) : Prop := (Calm s ∧ Steady s) ∧ Pinned sn P s

/-- What a commit achieves. -/
def Committed (sn : Snapshot) (s : Storage Name Bytes) : Prop :=
  Modules sn (fun f => udfPath f ∈ (render sn).1) s ∧ ConfigPinned sn s

/-- A loop that removes files keeps what each removal keeps. -/
theorem removeLoop_achieves (hroot : isAbs o.root = true) {sel : Bytes → Bool} {dir : Bytes} {g : Path}
    {record : Result → Bytes → Result} {err : Bytes → FsError → CommitError}
    (hdir : dir = [] ∧ g = [] ∨ dir = udfDir ∧ g = [udfName]) (hA : ∀ s, A s → Calm s ∧ Steady s)
    (hunlink : ∀ s (f : Name), sel f.1 = true → A s → A (s.bind g f none)) :
    ∀ (names : List Bytes) (res : Result) (k : Kernel), Listed names → Under disturbed started A k.storage →
      Achieves o disturbed started (removeLoop sel dir record err names res) A k
  | [], res, k, _, hk => Achieves.done (hA _) hk
  | name :: names, res, k, hl, hk => by
      obtain ⟨⟨f, rfl⟩, hl'⟩ := List.forall_mem_cons.mp hl
      unfold removeLoop
      cases hsel : sel f.1 with
      | false =>
          rw [if_neg (by simp)]
          exact removeLoop_achieves hroot hdir hA hunlink names res k hl' hk
      | true =>
          rw [if_pos rfl]
          apply Runs.call (remove_watched hroot _ hk hA ?_)
          · intro a k' hk'
            cases a with
            | error e => exact Achieves.fail (hk'.mono (hA _))
            | ok u => exact removeLoop_achieves hroot hdir hA hunlink names _ k' hl' hk'
          · rintro s ⟨g', f', i, hname, -, rfl⟩
            obtain ⟨hpath, -⟩ := resolve_entryPath hdir hname
            obtain ⟨rfl, rfl⟩ := List.append_singleton_inj.mp hpath
            exact ⟨hk.1.unlink _ _, fun hd => hunlink _ _ hsel (hk.2 hd)⟩

theorem DirRead.listed {s : Storage Name Bytes} {name : Bytes} {names : List Bytes}
    (h : DirRead s name (.ok names)) : Listed names := by
  obtain ⟨q, -, ⟨-, -, hmem⟩ | ⟨rfl, -⟩⟩ := h
  · intro n hn
    obtain ⟨f, hf, -⟩ := (hmem n).mp hn
    exact ⟨f, hf⟩
  · exact fun n hn => by cases hn

theorem sweepDirs_achieves (hroot : isAbs o.root = true) : ∀ (dirs : List Bytes) (res : Result) (k : Kernel),
    (∀ dir ∈ dirs, dir = [] ∨ dir = udfDir) → Holds disturbed started k.storage →
      Achieves o disturbed started (sweepDirs dirs res) (fun s => Calm s ∧ Steady s) k
  | [], res, k, _, hk => Achieves.done id hk
  | dir :: dirs, res, k, hdirs, hk => by
      obtain ⟨hdir, hdirs'⟩ := List.forall_mem_cons.mp hdirs
      apply Runs.call (readDir_watched hroot dir hk)
      rintro a k' ⟨hk', hread⟩
      have hholds : Holds disturbed started k'.storage := by
        rw [hk']
        exact hk
      cases a with
      | error e => exact Achieves.fail hholds
      | ok names =>
          show Achieves o disturbed started (andThen (sweepNames dir (sortBy id names) res) (sweepDirs dirs)) _ k'
          rw [sweepNames_eq]
          have hlisted := listed_sortBy hread.listed
          have htidy : ∀ g s (f : Name), hasSuffix f.1 tmpSuffix = true → Calm s ∧ Steady s →
              Calm (s.bind g f none) ∧ Steady (s.bind g f none) :=
            fun g s f hf h => (kept_calm.and kept_steady).tidy _ _ (.bind s g hf none) h
          have hdir' : ∃ g, dir = [] ∧ g = [] ∨ dir = udfDir ∧ g = [udfName] := by
            rcases hdir with rfl | rfl
            · exact ⟨[], Or.inl ⟨rfl, rfl⟩⟩
            · exact ⟨[udfName], Or.inr ⟨rfl, rfl⟩⟩
          obtain ⟨g, hg⟩ := hdir'
          apply Achieves.andThen (removeLoop_achieves hroot hg (fun _ => id) (htidy g) _ res k' hlisted hholds)
          exact fun res k'' hk'' => sweepDirs_achieves hroot dirs res k'' hdirs' hk''

theorem writeModules_achieves (hroot : isAbs o.root = true) {sn : Snapshot} (hsn : sn ∈ started) :
    ∀ (paths : List Bytes) (P : Name → Prop) (res : Result) (k : Kernel), (∀ path ∈ paths, path ∈ (render sn).1) →
      (∀ f, P f → ¬IsTmp f) → Under disturbed started (Modules sn P) k.storage →
      Achieves o disturbed started (writeModules (render sn).1 paths res)
        (Modules sn fun f => P f ∨ udfPath f ∈ paths) k
  | [], P, res, k, _, _, hk => by
      apply Achieves.done And.left
      exact hk.mono fun h => ⟨h.1, h.2.mono fun f hf => hf.resolve_right List.not_mem_nil⟩
  | path :: paths, P, res, k, hmem, hP, hk => by
      obtain ⟨hpath, hmem'⟩ := List.forall_mem_cons.mp hmem
      have hflat := flatTree_render sn
      by_cases hc : path = configFile
      · -- the configuration is written later
        subst hc
        have hskip : writeModules (render sn).1 (configFile :: paths) res = writeModules (render sn).1 paths res :=
          if_neg (by decide)
        rw [hskip]
        apply (writeModules_achieves hroot hsn paths P res k hmem' hP hk).mono
        rintro out k' ⟨hholds, hdone⟩
        refine ⟨hholds, fun hout => (hdone hout).mono fun h => ⟨h.1, h.2.mono fun f hf => hf.imp_right fun hf => ?_⟩⟩
        exact (List.mem_cons.mp hf).resolve_left (udfPath_ne_configFile f)
      · obtain ⟨f, h0, hw, rfl⟩ := hflat.flat path hpath hc
        obtain ⟨b, hb⟩ := Option.isSome_iff_exists.mp (AList.lookup_isSome.mpr hpath)
        have hnot := not_isTmp_of_wasm hw
        have hP' : ∀ x, P x ∨ x = f → ¬IsTmp x := by
          rintro x (hx | rfl)
          · exact hP x hx
          · exact hnot
        have hwrite : Runs o disturbed started (writeIfChanged (udfPath f) b)
            (fun a s => Holds disturbed started s ∧
              (a.isOk = true → Under disturbed started (Modules sn fun x => P x ∨ x = f) s)) k := by
          refine writeIfChanged_runs hroot (resolve_udfPath h0) (resolve_udfPath_tmp h0) (Or.inr rfl) hnot
            ⟨sn, hsn, _, resolve_udfPath h0, hb⟩ ((kept_calm.and kept_steady).and (kept_pinned hP))
            (fun s h => h.1) (fun s h => h.1) ?_ ?_ hk
          · exact fun s i h hi hdata => ⟨h.1, h.2.unchanged h.1.2 hnot hi (hdata.symm ▸ hb)⟩
          · intro s i h hdir hdata
            have hudf : s.view [] udfName = some .dir := by
              rwa [Storage.lookup_singleton] at hdir
            have hcalm : Calm (s.move [udfName] f.tmp [udfName] f i) := h.1.1.move_module (isTmp_tmp f)
            refine ⟨hcalm, ⟨kept_calm.tidy _ _ (.flush _ _) hcalm, h.1.2.move_module _ _ _⟩, ?_⟩
            exact h.2.move_module hP (isTmp_tmp f) hudf (hdata.symm ▸ hb)
        have hpre : hasPrefix (udfPath f) (udfDir ++ ascii "/") = true := Bytes.hasPrefix_append _ _
        unfold writeModules
        rw [if_pos hpre, hb, Option.getD_some]
        apply Runs.bind hwrite
        rintro a k' ⟨hholds, hok⟩
        cases a with
        | error e => exact Achieves.fail hholds
        | ok changed =>
            apply (writeModules_achieves hroot hsn paths _ _ k' hmem' hP' (hok rfl)).mono
            rintro out k'' ⟨hholds', hdone⟩
            refine ⟨hholds', fun hout => (hdone hout).mono fun h => ⟨h.1, h.2.mono ?_⟩⟩
            rintro x (hx | hx)
            · exact Or.inl (Or.inl hx)
            · rcases List.mem_cons.mp hx with hx | hx
              · exact Or.inl (Or.inr (udfPath_injective hx))
              · exact Or.inr hx

theorem writeConfig_achieves (hroot : isAbs o.root = true) {sn : Snapshot} (hsn : sn ∈ started) (res : Result)
    (hk : Under disturbed started (Modules sn fun f => udfPath f ∈ (render sn).1) k.storage) :
    Achieves o disturbed started (writeConfig (render sn).1 res) (Committed sn) k := by
  have hP : ∀ f, udfPath f ∈ (render sn).1 → ¬IsTmp f :=
    fun f hf => not_isTmp_of_wasm ((flatTree_render sn).udf hf).2
  have hwrite : Runs o disturbed started (writeIfChanged configFile (configBytes sn))
      (fun a s => Holds disturbed started s ∧ (a.isOk = true → Under disturbed started (Committed sn) s)) k := by
    refine writeIfChanged_runs hroot (g := []) resolve_configFile resolve_configFile_tmp (Or.inl rfl) not_isTmp_config
      ⟨sn, hsn, _, resolve_configFile, lookup_render_config sn⟩ ((kept_calm.and kept_steady).and (kept_pinned hP))
      (fun s h => h.1) (fun s h => h.1.1) ?_ ?_ hk
    · exact fun s i h hi hdata => ⟨h, h.1.2.configPinned hi hdata⟩
    · intro s i h _ hdata
      -- the modules the new configuration refers to are in place
      have hcalm : Calm (s.move [] configName.tmp [] configName i) := by
        apply h.1.1.move_config (isTmp_tmp _)
        intro f hf
        rw [hdata] at hf
        have hmem := hf.mem_render
        obtain ⟨b, hb⟩ := Option.isSome_iff_exists.mp (AList.lookup_isSome.mpr hmem)
        refine ⟨h.2.udf f hmem, fun u hu => ?_⟩
        obtain ⟨j, hj, -⟩ := h.2.modules f hmem b hb u hu
        exact ⟨j, hj⟩
      refine ⟨hcalm, ⟨⟨kept_calm.tidy _ _ (.flush _ _) hcalm, h.1.2.move_config _ _⟩, ?_⟩, ?_⟩
      · exact h.2.move_config (isTmp_tmp _)
      · exact ConfigPinned.move_config hdata
  unfold writeConfig
  rw [lookup_render_config, Option.getD_some]
  apply Runs.bind hwrite
  rintro a k' ⟨hholds, hok⟩
  cases a with
  | error e => exact Achieves.fail hholds
  | ok changed => exact Achieves.done (fun h => h.1.1) (hok rfl)

theorem removeStale_achieves (hroot : isAbs o.root = true) {sn : Snapshot} (res : Result)
    (hk : Under disturbed started (Committed sn) k.storage) :
    Achieves o disturbed started (removeStale (render sn).1 res) (Committed sn) k := by
  apply Runs.call (readDir_watched hroot udfDir (hk.mono fun h => h.1.1))
  rintro a k' ⟨hk', hread⟩
  rw [← hk'] at hk
  cases a with
  | error e => exact Achieves.fail (hk.mono fun h => h.1.1)
  | ok names =>
      show Achieves o disturbed started (removeNames (render sn).1 (sortBy id names) res) _ k'
      rw [removeNames_eq]
      refine removeLoop_achieves hroot (Or.inr ⟨rfl, rfl⟩) (fun s h => h.1.1) ?_ _ res k' (listed_sortBy hread.listed) hk
      intro s f hstale h
      have hnot : udfPath f ∉ (render sn).1 := by
        unfold isStale at hstale
        exact (of_decide_eq_true hstale).2
      -- the configuration, whichever view it is found in, is that of the snapshot
      have hno : ∀ v ∈ s.views [], ∀ i, v configName = some (.file i) → ¬Refers (s.data i) f := by
        intro v hv i hi hf
        obtain ⟨j, hj, hdata⟩ := h.2 v hv
        obtain rfl : i = j := by
          rw [hi, Option.some.injEq, Binding.file.injEq] at hj
          exact hj
        rw [hdata] at hf
        exact hnot hf.mem_render
      exact ⟨⟨⟨h.1.1.1.unlink_module hno, h.1.1.2.unlink_module f⟩, h.1.2.unlink_module hnot⟩, h.2.unlink_module f⟩

/-- A commit, whatever it starts from and however it ends. -/
theorem commit_achieves (hroot : isAbs o.root = true) {sn : Snapshot} (hsn : sn ∈ started)
    (hk : Holds disturbed started k.storage) :
    Achieves o disturbed started (Operator.commit (render sn).1) (Committed sn) k := by
  rw [commit_eq (flatTree_render sn).desiredTree.accepted]
  apply Achieves.andThen _ fun res k' hk' => removeStale_achieves hroot res hk'
  apply Achieves.andThen _ fun res k' hk' => writeConfig_achieves hroot hsn res hk'
  apply Achieves.andThen (sweepDirs_achieves hroot _ _ k (by simp) hk)
  intro res k' hk'
  have hstart : Under disturbed started (Modules sn fun _ => False) k'.storage :=
    hk'.mono fun h => ⟨h, fun _ hf => hf.elim, fun _ hf => hf.elim⟩
  apply (writeModules_achieves hroot hsn _ _ res k' (fun _ => mem_sortedKeys.mp) (fun _ hf => hf.elim) hstart).mono
  rintro out k'' ⟨hholds, hdone⟩
  refine ⟨hholds, fun hout => (hdone hout).mono fun h => ⟨h.1, h.2.mono fun f hf => ?_⟩⟩
  exact Or.inr (mem_sortedKeys.mpr hf)

end phases

/-! ### The machine -/

/-- The mount, and the operator on it. -/
structure Machine where
  started : List Snapshot
  /-- What the last commit was of, if it has returned without an error. -/
  committed : Option Snapshot
  kernel : Kernel
  job : Option (Snapshot × Prog OS Outcome)

/-- An empty mount. -/
def Machine.init : Machine := ⟨[], none, Kernel.empty, none⟩

/-- Nothing that was running is running any more. -/
def Machine.stopped (w : Machine) (s : Storage Name Bytes) : Machine := ⟨w.started, w.committed, ⟨s, fun _ => none⟩, none⟩

/-- Calls fail as `KernelStep` has it.  The process may be killed anywhere, but on the way from a rename to
the sync of its directory only if `disturbed`; the power may fail anywhere. -/
inductive MachineStep (o : OsFS) (disturbed : Prop) : Machine → Machine → Prop where
  | start (w : Machine) (sn : Snapshot) (hjob : w.job = none) :
      MachineStep o disturbed w ⟨sn :: w.started, none, w.kernel, some (sn, o.commit (render sn).1)⟩
  | call (w : Machine) (sn : Snapshot) (c : OsCall) (p : c.Answer → Prog OS Outcome) (a : c.Answer) (k : Kernel)
      (hjob : w.job = some (sn, .call c p)) (hk : KernelStep o disturbed c w.kernel a k) :
      MachineStep o disturbed w { w with kernel := k, job := some (sn, p a) }
  | finish (w : Machine) (sn : Snapshot) (out : Outcome) (hjob : w.job = some (sn, .ret out)) :
      MachineStep o disturbed w { w with committed := if out.2 = none then some sn else none, job := none }
  /-- `run` makes the module directory. -/
  | boot (w : Machine) (s : Storage Name Bytes) (hjob : w.job = none) (hs : w.kernel.storage.Made [udfName] s) :
      MachineStep o disturbed w { w with kernel := { w.kernel with storage := s } }
  | kill (w : Machine) (hwindow : ∀ sn c p, w.job = some (sn, .call c p) → c.Flushes w.kernel.files → disturbed) :
      MachineStep o disturbed w (w.stopped w.kernel.storage)
  | powerLoss (w : Machine) (s : Storage Name Bytes) (hs : w.kernel.storage.PowerLoss s) :
      MachineStep o disturbed w (w.stopped s)

abbrev MachineSteps (o : OsFS) (disturbed : Prop) : Machine → Machine → Prop :=
  Relation.ReflTransGen (MachineStep o disturbed)

/-- What is there to stay. -/
def Lasting (sn : Snapshot) (s : Storage Name Bytes) : Prop :=
  Pinned sn (Refers (configBytes sn)) s ∧ ConfigPinned sn s

/-- The commit in progress is watched, and between commits the last one is there to stay. -/
structure MachineInv (o : OsFS) (disturbed : Prop) (w : Machine) : Prop where
  idle : w.job = none → Under disturbed w.started
    (fun s => (Calm s ∧ Steady s) ∧ ∀ sn, w.committed = some sn → Lasting sn s) w.kernel.storage
  busy : ∀ sn p, w.job = some (sn, p) → w.committed = none ∧ Safe disturbed w.started w.kernel.storage ∧
    p.Guarantees (KernelStep o disturbed) (Watched disturbed w.started)
      (fun out k => Holds disturbed w.started k.storage ∧ (out.2 = none → Under disturbed w.started (Committed sn) k.storage))
      w.kernel

section machine
variable {o : OsFS} {disturbed : Prop} {w w' : Machine}

theorem Committed.lasting {sn : Snapshot} {s : Storage Name Bytes} (h : Committed sn s) : Lasting sn s :=
  ⟨h.1.2.mono fun _ hf => hf.mem_render, h.2⟩

theorem kept_lasting (sn : Snapshot) : Kept (Lasting sn) :=
  (kept_pinned fun _ hf => hf.not_isTmp).and kept_configPinned

theorem Kept.forall {ι : Sort*} {A : ι → Storage Name Bytes → Prop} (hA : ∀ x, Kept (A x)) : Kept fun s => ∀ x, A x s where
  tidy s s' ht h x := (hA x).tidy s s' ht (h x)
  mkdir s hs h x := (hA x).mkdir s hs (h x)

theorem MachineInv.safe (h : MachineInv o disturbed w) : Safe disturbed w.started w.kernel.storage := by
  cases hjob : w.job with
  | none => exact (h.idle hjob).mono fun h => h.1.1
  | some j => exact (h.busy j.1 j.2 hjob).2.1

/-- After a process has stopped, and nothing is left of its commit. -/
theorem MachineInv.stopped {s : Storage Name Bytes} (hs : Under disturbed w.started
    (fun s => (Calm s ∧ Steady s) ∧ ∀ sn, w.committed = some sn → Lasting sn s) s) :
    MachineInv o disturbed (w.stopped s) :=
  ⟨fun _ => hs, fun sn p hjob => by cases hjob⟩

/-- A process is killed where no directory is about to be synced. -/
theorem MachineInv.kill (h : MachineInv o disturbed w)
    (hwindow : ∀ sn c p, w.job = some (sn, .call c p) → c.Flushes w.kernel.files → disturbed) :
    MachineInv o disturbed (w.stopped w.kernel.storage) := by
  apply MachineInv.stopped
  cases hjob : w.job with
  | none => exact h.idle hjob
  | some j =>
      obtain ⟨sn, p⟩ := j
      obtain ⟨hnone, hsafe, hp⟩ := h.busy sn p hjob
      have hholds : Holds disturbed w.started w.kernel.storage := by
        cases p with
        | ret out => exact hp.1
        | call c p =>
            by_cases hflush : c.Flushes w.kernel.files
            · exact ⟨hsafe.1, fun hd => absurd (hwindow sn c p hjob hflush) hd⟩
            · -- the call may fail, so what it is watched for holds already
              have hfails : KernelStep o disturbed c w.kernel (c.failure .other) w.kernel :=
                .fails c w.kernel .other (fun h => by cases h) fun h => absurd h hflush
              exact (hp _ _ hfails).1.2 hflush
      refine hholds.mono fun h => ⟨h, fun sn' hsn' => ?_⟩
      rw [hnone] at hsn'
      cases hsn'

theorem MachineInv.powerLoss {s : Storage Name Bytes} (h : MachineInv o disturbed w)
    (hs : w.kernel.storage.PowerLoss s) : MachineInv o disturbed (w.stopped s) := by
  obtain ⟨hsound, hcalm⟩ := h.safe
  refine MachineInv.stopped ⟨hsound.powerLoss hs, fun hd => ⟨⟨(hcalm hd).powerLoss hsound hs, .powerLoss hs⟩, ?_⟩⟩
  intro sn hsn
  cases hjob : w.job with
  | none =>
      obtain ⟨hpinned, hconfig⟩ := ((h.idle hjob).2 hd).2 sn hsn
      exact ⟨hpinned.powerLoss hconfig (hcalm hd) hsound hs, hconfig.powerLoss hsound hs⟩
  | some j =>
      rw [(h.busy j.1 j.2 hjob).1] at hsn
      cases hsn

theorem MachineInv.step (hroot : isAbs o.root = true) (h : MachineInv o disturbed w) (hstep : MachineStep o disturbed w w') :
    MachineInv o disturbed w' := by
  cases hstep with
  | start sn hjob =>
      refine ⟨fun hjob' => (by cases hjob'), ?_⟩
      rintro _ _ ⟨⟩
      have hholds : Holds disturbed (sn :: w.started) w.kernel.storage :=
        ⟨(h.idle hjob).1.mono fun _ => List.mem_cons_of_mem _, fun hd => ((h.idle hjob).2 hd).1⟩
      exact ⟨rfl, hholds.safe, commit_achieves hroot List.mem_cons_self hholds⟩
  | call sn c p a k hjob hk =>
      refine ⟨fun hjob' => (by cases hjob'), ?_⟩
      rintro _ _ ⟨⟩
      obtain ⟨hnone, -, hp⟩ := h.busy sn _ hjob
      obtain ⟨hwatched, hrest⟩ := hp a k hk
      exact ⟨hnone, hwatched.1, hrest⟩
  | finish sn out hjob =>
      refine ⟨fun _ => ?_, fun sn p hjob => by cases hjob⟩
      obtain ⟨-, -, hholds, hdone⟩ := h.busy sn _ hjob
      refine ⟨hholds.1, fun hd => ⟨hholds.2 hd, fun sn' hsn' => ?_⟩⟩
      by_cases hout : out.2 = none
      · rw [if_pos hout, Option.some.injEq] at hsn'
        subst hsn'
        exact ((hdone hout).2 hd).lasting
      · rw [if_neg hout] at hsn'
        cases hsn'
  | boot s hjob hs =>
      refine ⟨fun _ => ?_, fun sn p hjob' => ?_⟩
      · have hkept : Kept fun s => (Calm s ∧ Steady s) ∧ ∀ sn, w.committed = some sn → Lasting sn s :=
          (kept_calm.and kept_steady).and (.forall fun sn => .forall fun _ => kept_lasting sn)
        exact ⟨(h.idle hjob).1.made hs, fun hd => hkept.made (Or.inr rfl) hs ((h.idle hjob).2 hd)⟩
      · rw [hjob] at hjob'
        cases hjob'
  | kill hwindow => exact h.kill hwindow
  | powerLoss s hs => exact h.powerLoss hs

theorem MachineInv.init : MachineInv o disturbed Machine.init := by
  have hno : ∀ (g : Path) (v : DirView Name) (f : Name) (b : Binding), v ∈ Kernel.empty.storage.views g → v f ≠ some b := by
    intro g v f b hv hb
    rw [List.mem_singleton.mp hv] at hb
    cases hb
  have hsound : Sound [] Kernel.empty.storage :=
    ⟨fun g _ v _ f _ i hv _ hi => absurd hi (hno g v f _ hv), fun g v f _ i hv hi => absurd hi (hno g v f _ hv),
      fun g f i _ hi => absurd hi (hno g _ f _ (Storage.view_mem_views _ g)),
      fun g v f i hv hi => absurd hi (hno g v f _ hv)⟩
  have hcalm : Calm Kernel.empty.storage :=
    ⟨fun v hv i hi => absurd hi (hno [] v _ _ hv), fun v hv hdir => absurd hdir (hno [] v _ _ hv)⟩
  have hsteady : Steady Kernel.empty.storage :=
    ⟨fun u _ f i _ hi => absurd hi (hno [udfName] _ f _ (Storage.view_mem_views _ _)),
      fun v hv => by rw [List.mem_singleton.mp hv]⟩
  refine ⟨fun _ => ⟨hsound, fun _ => ⟨⟨hcalm, hsteady⟩, fun sn hsn => ?_⟩⟩, fun sn p hjob => ?_⟩
  · cases hsn
  · cases hjob

theorem MachineInv.steps (hroot : isAbs o.root = true) (h : MachineSteps o disturbed Machine.init w) :
    MachineInv o disturbed w := by
  induction h with
  | refl => exact MachineInv.init
  | tail _ hstep ih => exact ih.step hroot hstep

end machine

/-! ### Results -/

/-- The mount has the file. -/
def FileAt (s : Storage Name Bytes) (q : Path) (b : Bytes) : Prop := ∃ i, s.lookup q = some (.file i) ∧ s.data i = b

section results
variable {o : OsFS} {disturbed : Prop} {w : Machine}

/-- The modules that a configuration refers to, by the names of the merges. -/
theorem module_of_merge {sn : Snapshot} {n : Bytes} (hn : n ∈ referencedMerges (configBytes sn))
    (hnot : n ∉ builtinMerges) : ∃ f : Name, f.1 = n ++ wasmSuffix ∧ Refers (configBytes sn) f ∧ udfPath f = modulePath n := by
  have hmem := hn
  rw [referencedMerges_configBytes, List.mem_map] at hmem
  obtain ⟨ks, hks, rfl⟩ := hmem
  have hmod := (mergeName_emitted ((emittedKeyspaces_spec sn).admissible ks hks)).resolve_left hnot
  have hsafe := (mem_emittedModules hmod).1
  exact ⟨moduleEntry _ hsafe, rfl, ⟨_, hn, hnot, rfl⟩, udfPath_moduleEntry hsafe⟩

theorem ConfigPinned.fileAt {sn : Snapshot} {s : Storage Name Bytes} (h : ConfigPinned sn s) :
    FileAt s [configName] (configBytes sn) := by
  obtain ⟨i, hi, hdata⟩ := h _ (s.view_mem_views [])
  exact ⟨i, by rw [Storage.lookup_singleton, hi], hdata⟩

theorem MachineInv.lasting (h : MachineInv o disturbed w) (hd : ¬disturbed) {sn : Snapshot}
    (hsn : w.committed = some sn) : Lasting sn w.kernel.storage := by
  cases hjob : w.job with
  | none => exact ((h.idle hjob).2 hd).2 sn hsn
  | some j =>
      rw [(h.busy j.1 j.2 hjob).1] at hsn
      cases hsn

/-- A commit that returns, step by step. -/
theorem machineSteps_of_returns {started : List Snapshot} {committed : Option Snapshot} {sn : Snapshot} {out : Outcome}
    {p : Prog OS Outcome} {k k' : Kernel} (h : p.Returns (KernelStep o disturbed) k out k') :
    MachineSteps o disturbed ⟨started, committed, k, some (sn, p)⟩ ⟨started, committed, k', some (sn, .ret out)⟩ := by
  induction h with
  | ret => exact .refl
  | call hstep _ ih => exact .head (.call _ sn _ _ _ _ rfl hstep) ih

/-- A commit, and a power failure after it. -/
theorem exists_contested_run : ∃ w, MachineSteps chartRoot False Machine.init w ∧
    w.committed = some contestedSnapshot ∧ w.started = [contestedSnapshot] := by
  obtain ⟨k, hrun, -⟩ :=
    commit_follows (o := chartRoot) (by decide) (by decide) contestedSnapshot plain_empty follows_empty
  have hnone : ((commit (render contestedSnapshot).1).run exec ∅).1.2 = none := by decide +kernel
  have hlost : k.storage.PowerLoss ⟨k.storage.view, fun _ => [], k.storage.data, fun _ => true⟩ :=
    ⟨k.storage.view_mem_views, fun _ => rfl, fun _ _ => rfl, fun _ => rfl⟩
  refine ⟨_, .tail (.tail (.head (.start _ contestedSnapshot rfl) (machineSteps_of_returns hrun))
    (.finish _ contestedSnapshot _ rfl)) (.powerLoss _ _ hlost), ?_, rfl⟩
  show (if (Prog.run exec (commit (render contestedSnapshot).1) ∅).1.2 = none then some contestedSnapshot else none) = _
  rw [if_pos hnone]

/-- Whatever calls fail, whenever the operator is killed and the power fails, in any order: a file on the
mount that is not a temp file is a whole file of a tree that a commit was started with. -/
theorem power_failure_leaves_whole_files (hroot : isAbs o.root = true) (h : MachineSteps o disturbed Machine.init w)
    (q : Path) (b : Bytes) (hb : FileAt w.kernel.storage q b) : Temp q ∨ Genuine w.started q b := by
  obtain ⟨i, hi, rfl⟩ := hb
  cases q using List.reverseRecOn with
  | nil => cases hi
  | append_singleton g f =>
      rw [Storage.lookup_concat] at hi
      split_ifs at hi
      by_cases hf : IsTmp f
      · exact Or.inl ⟨f, List.getLast?_concat .., hf⟩
      · exact Or.inr ((MachineInv.steps hroot h).safe.1.final g _ f i (Storage.view_mem_views _ g) hi hf).2

theorem power_failure_leaves_whole_files_contested : ∃ w, MachineSteps chartRoot False Machine.init w ∧
    FileAt w.kernel.storage [configName] (configBytes contestedSnapshot) ∧
    (Temp [configName] ∨ Genuine w.started [configName] (configBytes contestedSnapshot)) := by
  obtain ⟨w, hrun, hdone, -⟩ := exists_contested_run
  have hconfig := ((MachineInv.steps (by decide) hrun).lasting not_false hdone).2.fileAt
  exact ⟨w, hrun, hconfig, power_failure_leaves_whole_files (by decide) hrun _ _ hconfig⟩

/-- Unless a rename goes without the sync of its directory: in every state of every history of commits,
failures, kills and power failures, `config.lua` is a whole configuration, and every merge it names is
built in or its module is on the mount, whole. -/
theorem power_failure_consistent (hroot : isAbs o.root = true) (h : MachineSteps o False Machine.init w) (b : Bytes)
    (hb : FileAt w.kernel.storage [configName] b) :
    (∃ sn ∈ w.started, (render sn).1.lookup configFile = some b) ∧
    ∀ n ∈ referencedMerges b, n ∈ builtinMerges ∨ ∃ f c, f.1 = n ++ wasmSuffix ∧
      FileAt w.kernel.storage [udfName, f] c ∧ ∃ sn ∈ w.started, (render sn).1.lookup (modulePath n) = some c := by
  obtain ⟨i, hi, rfl⟩ := hb
  rw [Storage.lookup_singleton] at hi
  obtain ⟨hsound, hcalm⟩ := (MachineInv.steps hroot h).safe
  have hview := w.kernel.storage.view_mem_views []
  obtain ⟨sn, hsn, hdata⟩ := (hsound.final [] _ configName i hview hi not_isTmp_config).2.config
  rw [hdata]
  refine ⟨⟨sn, hsn, lookup_render_config sn⟩, ?_⟩
  intro n hn
  by_cases hbuiltin : n ∈ builtinMerges
  · exact Or.inl hbuiltin
  · right
    obtain ⟨f, hf, hrefers, hpath⟩ := module_of_merge hn hbuiltin
    have hview' := w.kernel.storage.view_mem_views [udfName]
    obtain ⟨hdir, hall⟩ := (hcalm not_false).backed _ hview i hi f (hdata.symm ▸ hrefers)
    obtain ⟨j, hj⟩ := hall _ hview'
    obtain ⟨sn', hsn', hc⟩ := (hsound.final [udfName] _ f j hview' hj hrefers.not_isTmp).2.module
    refine ⟨f, _, hf, ⟨j, ?_, rfl⟩, sn', hsn', hpath ▸ hc⟩
    rw [Storage.lookup_pair, if_pos hdir, hj]

theorem power_failure_consistent_contested : ∃ w, MachineSteps chartRoot False Machine.init w ∧
    FileAt w.kernel.storage [configName] (configBytes contestedSnapshot) ∧
    ∀ n ∈ referencedMerges (configBytes contestedSnapshot), n ∈ builtinMerges ∨
      ∃ f c, f.1 = n ++ wasmSuffix ∧ FileAt w.kernel.storage [udfName, f] c := by
  obtain ⟨w, hrun, hdone, -⟩ := exists_contested_run
  have hconfig := ((MachineInv.steps (by decide) hrun).lasting not_false hdone).2.fileAt
  refine ⟨w, hrun, hconfig, fun n hn => ?_⟩
  obtain ⟨-, hall⟩ := power_failure_consistent (by decide) hrun _ hconfig
  rcases hall n hn with hbuiltin | ⟨f, c, hf, hc, -⟩
  · exact Or.inl hbuiltin
  · exact Or.inr ⟨f, c, hf, hc⟩

/-- Unless a rename goes without the sync of its directory: what a commit has written when it returns
without an error, the configuration and the modules it refers to, is on the mount until the next
commit starts, through any number of power failures. -/
theorem commit_durable (hroot : isAbs o.root = true) (h : MachineSteps o False Machine.init w) (sn : Snapshot)
    (hsn : w.committed = some sn) :
    FileAt w.kernel.storage [configName] (configBytes sn) ∧
    ∀ n ∈ referencedMerges (configBytes sn), n ∈ builtinMerges ∨ ∃ f c, f.1 = n ++ wasmSuffix ∧
      FileAt w.kernel.storage [udfName, f] c ∧ (render sn).1.lookup (modulePath n) = some c := by
  obtain ⟨hpinned, hconfig⟩ := (MachineInv.steps hroot h).lasting not_false hsn
  refine ⟨hconfig.fileAt, ?_⟩
  intro n hn
  by_cases hbuiltin : n ∈ builtinMerges
  · exact Or.inl hbuiltin
  · right
    obtain ⟨f, hf, hrefers, hpath⟩ := module_of_merge hn hbuiltin
    obtain ⟨c, hc⟩ := Option.isSome_iff_exists.mp (AList.lookup_isSome.mpr hrefers.mem_render)
    obtain ⟨j, hj, hdata'⟩ := hpinned.modules f hrefers c hc _ (w.kernel.storage.view_mem_views _)
    refine ⟨f, c, hf, ⟨j, ?_, hdata'⟩, hpath ▸ hc⟩
    rw [Storage.lookup_pair, if_pos (hpinned.udf f hrefers), hj]

theorem commit_durable_contested : ∃ w, MachineSteps chartRoot False Machine.init w ∧
    w.committed = some contestedSnapshot ∧
    FileAt w.kernel.storage [configName] (configBytes contestedSnapshot) := by
  obtain ⟨w, hrun, hdone, -⟩ := exists_contested_run
  exact ⟨w, hrun, hdone, (commit_durable (by decide) hrun _ hdone).1⟩

end results

end McGateway.Operator
