import McGateway.LexicalPaths
import McGateway.CommitSteps

/-! # The mount root (`osFS` of `commit.go`)

`FileSystem` has the mount as a tree of its own.  Here `osFS` is a program over the calls it makes to
the operating system, with the paths it passes as byte strings: `abs` joins a name to the root, and
each method of `FS` is a sequence of calls on the result.  `commit` over these methods is the program
the operator runs.

The path that `abs` returns addresses, below the location of the root, the path that `abs` of
`FileSystem` assigns to the name (`abs_addresses`).  Every path that a commit passes to the system is
therefore the root or below it, the parent directories included that `WriteFile` makes and `Rename`
syncs: these are below the root because a commit writes only `config.lua` and names under `udf/`. -/

open Bytes (ascii hasPrefix split sortBy)
open UnixPath (isAbs join dir Within location IsName)

namespace McGateway.Operator

/-! ### Calls to the operating system -/

structure DirEntry where
  name : Bytes
  regular : Bool
deriving DecidableEq, Repr

/-- The functions of package `os` that `osFS` uses.  A file is opened for writing with `O_CREATE` and
`O_TRUNC`; open files are numbered. -/
inductive OsCall where
  | readFile (path : Bytes)
  | mkdirAll (path : Bytes) (perm : ℕ)
  | openFile (path : Bytes) (perm : ℕ)
  | open (path : Bytes)
  | write (file : ℕ) (data : Bytes)
  | sync (file : ℕ)
  | close (file : ℕ)
  | rename (oldpath newpath : Bytes)
  | remove (path : Bytes)
  | readDir (path : Bytes)
deriving DecidableEq, Repr

@[reducible] def OsCall.Answer : OsCall → Type
  | readFile _ => Except FsError Bytes
  | openFile _ _ => Except FsError ℕ
  | .open _ => Except FsError ℕ
  | readDir _ => Except FsError (List DirEntry)
  | _ => Except FsError Unit

abbrev OS : Interface := ⟨OsCall, OsCall.Answer⟩

/-- The paths a call is made with. -/
def OsCall.paths : OsCall → List Bytes
  | readFile path => [path]
  | mkdirAll path _ => [path]
  | openFile path _ => [path]
  | .open path => [path]
  | write _ _ => []
  | sync _ => []
  | close _ => []
  | rename oldpath newpath => [oldpath, newpath]
  | remove path => [path]
  | readDir path => [path]

/-- A name that is written or renamed to is not one of the root. -/
def FsOp.Inner : FsOp → Prop
  | .writeFile name _ => abs name ≠ some []
  | .rename _ newname => abs newname ≠ some []
  | _ => True

/-! ### The methods -/

inductive AbsError where
  /-- `path <name> escapes the mount root`, with the name quoted -/
  | escapes (name : Bytes)
deriving DecidableEq, Repr

/-- `osFS`. -/
structure OsFS where
  root : Bytes
deriving DecidableEq, Repr

namespace OsFS

/-- `filepath.FromSlash` is the identity where the separator is a slash. -/
def abs (o : OsFS) (name : Bytes) : Except AbsError Bytes :=
  if name = [] then .ok o.root
  else if isAbs name then .error (.escapes name)
  else if (split 47 name).any (· = ascii "..") then .error (.escapes name)
  else .ok (join [o.root, name])

def readFile (o : OsFS) (name : Bytes) : Prog OS (Except FsError Bytes) :=
  match o.abs name with
  | .error _ => pure (.error .other)
  | .ok path => Prog.ask (S := OS) (.readFile path)

def writeFile (o : OsFS) (name data : Bytes) : Prog OS (Except FsError Unit) :=
  match o.abs name with
  | .error _ => pure (.error .other)
  | .ok path => do
      match ← Prog.ask (S := OS) (.mkdirAll (dir path) 0o755) with
      | .error e => pure (.error e)
      | .ok () =>
          match ← Prog.ask (S := OS) (.openFile path 0o644) with
          | .error e => pure (.error e)
          | .ok f =>
              match ← Prog.ask (S := OS) (.write f data) with
              | .error e => do
                  let _ ← Prog.ask (S := OS) (.close f)
                  pure (.error e)
              | .ok () =>
                  match ← Prog.ask (S := OS) (.sync f) with
                  | .error e => do
                      let _ ← Prog.ask (S := OS) (.close f)
                      pure (.error e)
                  | .ok () => Prog.ask (S := OS) (.close f)

def syncDir (path : Bytes) : Prog OS (Except FsError Unit) := do
  match ← Prog.ask (S := OS) (.open path) with
  | .error e => pure (.error e)
  | .ok d =>
      let err ← Prog.ask (S := OS) (.sync d)
      let cerr ← Prog.ask (S := OS) (.close d)
      match err with
      | .error e => pure (.error e)
      | .ok () => pure cerr

def rename (o : OsFS) (oldname newname : Bytes) : Prog OS (Except FsError Unit) :=
  match o.abs oldname with
  | .error _ => pure (.error .other)
  | .ok oldpath =>
      match o.abs newname with
      | .error _ => pure (.error .other)
      | .ok newpath => do
          match ← Prog.ask (S := OS) (.rename oldpath newpath) with
          | .error e => pure (.error e)
          | .ok () => syncDir (dir newpath)

def remove (o : OsFS) (name : Bytes) : Prog OS (Except FsError Unit) :=
  match o.abs name with
  | .error _ => pure (.error .other)
  | .ok path => Prog.ask (S := OS) (.remove path)

def readDir (o : OsFS) (name : Bytes) : Prog OS (Except FsError (List Bytes)) :=
  match o.abs name with
  | .error _ => pure (.error .other)
  | .ok path => do
      match ← Prog.ask (S := OS) (.readDir path) with
      | .error .notExist => pure (.ok [])
      | .error e => pure (.error e)
      | .ok entries => pure (.ok ((entries.filter fun e => e.regular).map fun e => e.name))

/-- The interface `FS` over the operating system. -/
def perform (o : OsFS) : (op : FsOp) → Prog OS op.Answer
  | .readFile name => o.readFile name
  | .writeFile name data => o.writeFile name data
  | .rename oldname newname => o.rename oldname newname
  | .remove name => o.remove name
  | .readDir name => o.readDir name

/-! ### Paths below the root -/

/-- The path is absolute and leads to `q` below the mount root. -/
structure Addresses (o : OsFS) (path : Bytes) (q : Path) : Prop where
  absolute : isAbs path = true
  location_eq : location path = location o.root ++ q.map fun f => f.1

variable {o : OsFS} {name path : Bytes} {q : Path}

theorem Addresses.within (hroot : isAbs o.root = true) (h : Addresses o path q) : Within o.root path := by
  apply UnixPath.within_of_location hroot h.absolute
  rw [h.location_eq]
  exact List.prefix_append _ _

theorem mapM_ofBytes : ∀ {names : List Bytes}, (∀ b ∈ names, IsName b) →
    ∃ q : Path, names.mapM Name.ofBytes = some q ∧ q.map (fun f => f.1) = names
  | [], _ => ⟨[], rfl, rfl⟩
  | b :: names, h => by
      obtain ⟨hb, hnames⟩ := List.forall_mem_cons.mp h
      obtain ⟨q, hq, hmap⟩ := mapM_ofBytes hnames
      refine ⟨⟨b, hb⟩ :: q, ?_, ?_⟩
      · simp [Name.ofBytes, hb, hq]
      · rw [List.map_cons, hmap]

theorem abs_ok_iff : (∃ path, o.abs name = .ok path) ↔ isAbs name = false ∧ ascii ".." ∉ split 47 name := by
  unfold abs
  split_ifs with hnil habs hup
  · subst hnil
    exact ⟨fun _ => by decide, fun _ => ⟨_, rfl⟩⟩
  · simp [habs]
  · have hmem : ascii ".." ∈ split 47 name := by simpa using hup
    simp [hmem]
  · have hmem : ascii ".." ∉ split 47 name := by simpa using hup
    simp [habs, hmem]

/-- A name other than the empty one is joined to the root. -/
theorem abs_eq_join (hne : name ≠ []) (h : o.abs name = .ok path) :
    path = join [o.root, name] ∧ isAbs name = false ∧ ascii ".." ∉ split 47 name := by
  obtain ⟨habs, hup⟩ := abs_ok_iff.mp ⟨path, h⟩
  refine ⟨?_, habs, hup⟩
  have hany : (split 47 name).any (· = ascii "..") = false := by
    rw [List.any_eq_false]
    intro seg hseg he
    exact hup (of_decide_eq_true he ▸ hseg)
  simp only [abs, if_neg hne, habs, hany, Bool.false_eq_true, if_false] at h
  exact (Except.ok.inj h).symm

/-- The path that the operating system gets for a name is the one that the name has in the mount. -/
theorem abs_addresses (hroot : isAbs o.root = true) (h : o.abs name = .ok path) :
    ∃ q, Operator.abs name = some q ∧ Addresses o path q := by
  by_cases hnil : name = []
  · subst hnil
    obtain rfl := Except.ok.inj h
    exact ⟨[], rfl, hroot, by simp⟩
  · obtain ⟨rfl, habs, hup⟩ := abs_eq_join hnil h
    have hvalid : ∀ b ∈ (split 47 name).filter fun seg => seg ≠ [] ∧ seg ≠ ascii ".", IsName b := by
      intro b hb
      obtain ⟨hmem, hreal⟩ := List.mem_filter.mp hb
      rw [decide_eq_true_eq] at hreal
      exact ⟨hreal.1, hreal.2, fun he => hup (he ▸ hmem), Bytes.not_mem_of_mem_split hmem⟩
    obtain ⟨q, hq, hmap⟩ := mapM_ofBytes hvalid
    refine ⟨q, ?_, ?_, ?_⟩
    · have hslash : hasPrefix name (ascii "/") = false := habs
      rw [Operator.abs, if_neg hnil, hslash, hq]
      rfl
    · rw [UnixPath.join_pair (UnixPath.ne_nil_of_isAbs hroot)]
      exact UnixPath.isAbs_clean (UnixPath.isAbs_append hroot _)
    · rw [UnixPath.location_join hroot, UnixPath.foldl_walkStep_of_not_mem hup, hmap]

/-- So is its directory, unless the name is one of the root itself. -/
theorem dir_addresses (hroot : isAbs o.root = true) (h : o.abs name = .ok path)
    (hinner : Operator.abs name ≠ some []) : ∃ q, Addresses o (dir path) q := by
  obtain ⟨q, hq, haddr⟩ := abs_addresses hroot h
  have hne : name ≠ [] := by
    intro hnil
    subst hnil
    exact hinner rfl
  have hqne : q ≠ [] := by
    intro hnil
    exact hinner (hnil ▸ hq)
  obtain ⟨rfl, -, -⟩ := abs_eq_join hne h
  have hloc := haddr.location_eq
  rw [UnixPath.join_pair (UnixPath.ne_nil_of_isAbs hroot)] at hloc ⊢
  have habs : isAbs (o.root ++ 47 :: name) = true := UnixPath.isAbs_append hroot _
  rw [UnixPath.location_clean habs] at hloc
  rw [UnixPath.dir_clean habs]
  refine ⟨q.dropLast, UnixPath.isAbs_print _, ?_⟩
  rw [UnixPath.location_print, hloc, List.dropLast_append_of_ne_nil (mt List.map_eq_nil_iff.mp hqne),
    List.map_dropLast]
  intro d hd
  exact UnixPath.location_isName _ d (List.mem_of_mem_dropLast hd)

/-! ### The calls of the methods -/

/-- Every path of the call is the mount root or below it. -/
def Confined (o : OsFS) (call : OsCall) : Prop := ∀ path ∈ call.paths, Within o.root path

theorem confined_of_paths_eq_nil {call : OsCall} (h : call.paths = []) : o.Confined call := by
  intro path hpath
  rw [h] at hpath
  cases hpath

theorem confined_of_paths_eq {call : OsCall} (h : call.paths = [path]) (hpath : Within o.root path) :
    o.Confined call := by
  intro path' hpath'
  rw [h] at hpath'
  rwa [List.mem_singleton.mp hpath']

theorem abs_within (hroot : isAbs o.root = true) (h : o.abs name = .ok path) : Within o.root path := by
  obtain ⟨q, -, haddr⟩ := abs_addresses hroot h
  exact haddr.within hroot

theorem dir_within (hroot : isAbs o.root = true) (h : o.abs name = .ok path)
    (hinner : Operator.abs name ≠ some []) : Within o.root (dir path) := by
  obtain ⟨q, haddr⟩ := dir_addresses hroot h hinner
  exact haddr.within hroot

theorem readFile_confined (hroot : isAbs o.root = true) (name : Bytes) :
    (o.readFile name).CallsOnly o.Confined := by
  unfold readFile
  cases h : o.abs name with
  | error e => trivial
  | ok path => exact .ask (confined_of_paths_eq rfl (abs_within hroot h))

theorem writeFile_confined (hroot : isAbs o.root = true) (hinner : Operator.abs name ≠ some [])
    (data : Bytes) : (o.writeFile name data).CallsOnly o.Confined := by
  unfold writeFile
  cases h : o.abs name with
  | error e => trivial
  | ok path =>
      apply Prog.CallsOnly.bind (.ask (confined_of_paths_eq rfl (dir_within hroot h hinner)))
      intro made
      cases made with
      | error e => trivial
      | ok u =>
          apply Prog.CallsOnly.bind (.ask (confined_of_paths_eq rfl (abs_within hroot h)))
          intro opened
          cases opened with
          | error e => trivial
          | ok f =>
              -- the remaining calls are on the open file
              have hfile {call : OsCall} (hcall : call.paths = []) :
                  (Prog.ask (S := OS) call).CallsOnly o.Confined := .ask (confined_of_paths_eq_nil hcall)
              apply Prog.CallsOnly.bind (hfile rfl)
              intro written
              cases written with
              | error e => exact (hfile rfl).bind fun _ => trivial
              | ok u =>
                  apply Prog.CallsOnly.bind (hfile rfl)
                  intro synced
                  cases synced with
                  | error e => exact (hfile rfl).bind fun _ => trivial
                  | ok u => exact hfile rfl

theorem syncDir_confined (h : Within o.root path) : (syncDir path).CallsOnly o.Confined := by
  apply Prog.CallsOnly.bind (.ask (confined_of_paths_eq rfl h))
  intro opened
  cases opened with
  | error e => trivial
  | ok d =>
      apply Prog.CallsOnly.bind (.ask (confined_of_paths_eq_nil rfl))
      intro err
      apply Prog.CallsOnly.bind (.ask (confined_of_paths_eq_nil rfl))
      intro cerr
      cases err with
      | error e => trivial
      | ok u => trivial

theorem rename_confined (hroot : isAbs o.root = true) (oldname : Bytes)
    (hinner : Operator.abs name ≠ some []) : (o.rename oldname name).CallsOnly o.Confined := by
  unfold rename
  cases hold : o.abs oldname with
  | error e => trivial
  | ok oldpath =>
      cases hnew : o.abs name with
      | error e => trivial
      | ok newpath =>
          have hpaths : o.Confined (.rename oldpath newpath) := by
            intro path hpath
            cases List.mem_cons.mp hpath with
            | inl hpath => exact hpath ▸ abs_within hroot hold
            | inr hpath => exact List.mem_singleton.mp hpath ▸ abs_within hroot hnew
          apply Prog.CallsOnly.bind (.ask hpaths)
          intro renamed
          cases renamed with
          | error e => trivial
          | ok u => exact syncDir_confined (dir_within hroot hnew hinner)

theorem remove_confined (hroot : isAbs o.root = true) (name : Bytes) :
    (o.remove name).CallsOnly o.Confined := by
  unfold remove
  cases h : o.abs name with
  | error e => trivial
  | ok path => exact .ask (confined_of_paths_eq rfl (abs_within hroot h))

theorem readDir_confined (hroot : isAbs o.root = true) (name : Bytes) :
    (o.readDir name).CallsOnly o.Confined := by
  unfold readDir
  cases h : o.abs name with
  | error e => trivial
  | ok path =>
      apply Prog.CallsOnly.bind (.ask (confined_of_paths_eq rfl (abs_within hroot h)))
      intro listed
      cases listed with
      | error e => cases e <;> trivial
      | ok entries => trivial

theorem perform_confined (hroot : isAbs o.root = true) (op : FsOp) (h : op.Inner) :
    (o.perform op).CallsOnly o.Confined := by
  cases op with
  | readFile name => exact readFile_confined hroot name
  | writeFile name data => exact writeFile_confined hroot h data
  | rename oldname newname => exact rename_confined hroot oldname h
  | remove name => exact remove_confined hroot name
  | readDir name => exact readDir_confined hroot name

end OsFS

/-! ### The calls of a commit -/

theorem abs_udf_ne_root (r : Bytes) : abs (udfDir ++ ascii "/" ++ r) ≠ some [] := by
  intro h
  obtain ⟨below, hbelow⟩ := abs_below_entry (g := udfName) h
  cases hbelow

theorem removeLoop_inner (sel : Bytes → Bool) (dir : Bytes) (record : Result → Bytes → Result)
    (err : Bytes → FsError → CommitError) : ∀ (names : List Bytes) (res : Result),
    (removeLoop sel dir record err names res).CallsOnly FsOp.Inner
  | [], _ => trivial
  | name :: names, res => by
      unfold removeLoop
      split_ifs
      · apply Prog.CallsOnly.bind (.ask trivial)
        intro removed
        cases removed with
        | error e => trivial
        | ok u => exact removeLoop_inner sel dir record err names _
      · exact removeLoop_inner sel dir record err names res

theorem andThen_inner {p : Prog FS Outcome} {f : Result → Prog FS Outcome} (hp : p.CallsOnly FsOp.Inner)
    (hf : ∀ res, (f res).CallsOnly FsOp.Inner) : (andThen p f).CallsOnly FsOp.Inner := by
  apply hp.bind
  intro out
  split_ifs
  · trivial
  · exact hf out.1

theorem sweepDirs_inner : ∀ (dirs : List Bytes) (res : Result), (sweepDirs dirs res).CallsOnly FsOp.Inner
  | [], _ => trivial
  | dir :: dirs, res => by
      apply Prog.CallsOnly.bind (.ask trivial)
      intro listed
      cases listed with
      | error e => trivial
      | ok names =>
          change Prog.CallsOnly _ (andThen (sweepNames dir (sortBy id names) res) (sweepDirs dirs))
          rw [sweepNames_eq]
          exact andThen_inner (removeLoop_inner _ _ _ _ _ res) (sweepDirs_inner dirs)

theorem stage_inner {path : Bytes} (htmp : abs (path ++ tmpSuffix) ≠ some []) (hpath : abs path ≠ some [])
    (data : Bytes) : (stage path data).CallsOnly FsOp.Inner := by
  apply Prog.CallsOnly.bind (.ask htmp)
  intro staged
  cases staged with
  | error e => trivial
  | ok u =>
      apply Prog.CallsOnly.bind (.ask hpath)
      intro renamed
      cases renamed with
      | error e => trivial
      | ok u => trivial

theorem writeIfChanged_inner {path : Bytes} (htmp : abs (path ++ tmpSuffix) ≠ some [])
    (hpath : abs path ≠ some []) (data : Bytes) : (writeIfChanged path data).CallsOnly FsOp.Inner := by
  apply Prog.CallsOnly.bind (.ask trivial)
  intro read
  cases read with
  | error e =>
      cases e with
      | notExist => exact stage_inner htmp hpath data
      | other => trivial
  | ok cur =>
      change Prog.CallsOnly _ (if cur = data then pure (.ok false) else stage path data)
      split_ifs
      · trivial
      · exact stage_inner htmp hpath data

theorem writeModules_inner (desired : ByteMap Bytes) : ∀ (paths : List Bytes) (res : Result),
    (writeModules desired paths res).CallsOnly FsOp.Inner
  | [], _ => trivial
  | path :: paths, res => by
      unfold writeModules
      split_ifs with hudf
      · obtain ⟨r, rfl⟩ := Bytes.hasPrefix_iff.mp hudf
        have htmp : abs (udfDir ++ ascii "/" ++ r ++ tmpSuffix) ≠ some [] := by
          rw [List.append_assoc]
          exact abs_udf_ne_root _
        apply Prog.CallsOnly.bind (writeIfChanged_inner htmp (abs_udf_ne_root r) _)
        intro changed
        cases changed with
        | error e => trivial
        | ok changed => exact writeModules_inner desired paths _
      · exact writeModules_inner desired paths res

theorem writeConfig_inner (desired : ByteMap Bytes) (res : Result) :
    (writeConfig desired res).CallsOnly FsOp.Inner := by
  apply Prog.CallsOnly.bind (writeIfChanged_inner (by decide) (by decide) _)
  intro changed
  cases changed with
  | error e => trivial
  | ok changed => trivial

theorem removeStale_inner (desired : ByteMap Bytes) (res : Result) :
    (removeStale desired res).CallsOnly FsOp.Inner := by
  apply Prog.CallsOnly.bind (.ask trivial)
  intro listed
  cases listed with
  | error e => trivial
  | ok names =>
      change Prog.CallsOnly _ (removeNames desired (sortBy id names) res)
      rw [removeNames_eq]
      exact removeLoop_inner _ _ _ _ _ res

theorem commit_inner (desired : ByteMap Bytes) : (commit desired).CallsOnly FsOp.Inner := by
  unfold commit
  dsimp only
  split_ifs
  · cases (sortedKeys desired).find? fun path => !recognized path with
    | some path => trivial
    | none =>
        have hmodules : (andThen (sweepTemp ⟨false, [], [], []⟩)
            (writeModules desired (sortedKeys desired))).CallsOnly FsOp.Inner :=
          andThen_inner (sweepDirs_inner _ _) (writeModules_inner desired _)
        exact andThen_inner (andThen_inner hmodules (writeConfig_inner desired)) (removeStale_inner desired)
  · trivial

/-- Under an absolute root: what `abs` returns is the root or below it, it refuses the absolute names
and those with a `..` segment and no others, and every path that a commit passes to the operating
system is the root or below it, whatever the tree and whatever the system answers. -/
theorem mount_root_confined (o : OsFS) (hroot : isAbs o.root = true) :
    (∀ name path, o.abs name = .ok path → Within o.root path) ∧
    (∀ name, (∃ path, o.abs name = .ok path) ↔ isAbs name = false ∧ ascii ".." ∉ split 47 name) ∧
    ∀ desired, ((commit desired).implement o.perform).CallsOnly
      fun call : OsCall => ∀ path ∈ call.paths, Within o.root path := by
  refine ⟨?_, ?_, ?_⟩
  · intro name path h
    exact OsFS.abs_within hroot h
  · intro name
    exact OsFS.abs_ok_iff
  · intro desired
    exact (commit_inner desired).implement (OsFS.perform_confined hroot)

theorem mount_root_confined_srv :
    isAbs (ascii "/mnt/../srv//gw/") = true ∧
    Within (ascii "/mnt/../srv//gw/") (ascii "/srv/gw/udf/a..b.wasm") ∧
    (∃ path, OsFS.abs ⟨ascii "/mnt/../srv//gw/"⟩ (ascii "udf/...") = .ok path) ∧
    ¬∃ path, OsFS.abs ⟨ascii "/mnt/../srv//gw/"⟩ (ascii "udf/../../evil") = .ok path := by
  obtain ⟨hwithin, haccepted, -⟩ := mount_root_confined ⟨ascii "/mnt/../srv//gw/"⟩ (by decide)
  refine ⟨by decide, ?_, ?_, ?_⟩
  · exact hwithin (ascii "udf/./a..b.wasm") _ (by decide)
  · exact (haccepted _).mpr (by decide)
  · exact fun h => absurd ((haccepted _).mp h) (by decide)

end McGateway.Operator
