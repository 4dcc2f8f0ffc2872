import McGateway.MountRoot
import McGateway.StableStorage

/-! # The operating system below `osFS`

`MountRoot` has `osFS` as a program over calls, to which any answer was possible.  Here the calls act on
a file system: the storage of `StableStorage` below the mount root, with the table of open files.  Every
call may fail; a call that makes several directories, and a write, may be cut short.

What is left out is what the committer never asks for: it renames and removes regular files only, and
opens only directories for reading.

A call fails without `disturbed`, except that the sync of a directory, and the opening for it, fail only
if `disturbed`, and that a rename which reports a failure has taken effect only if `disturbed`.

Each method of `osFS` has a specification here (`readFile_spec` and so on): what storage can be seen at
each of its calls, and when it returns. -/

open Bytes (ascii split)
open UnixPath (isAbs join dir location)

namespace McGateway.Operator

/-! ### The system -/

/-- What an open file is. -/
inductive Handle where
  | dir (g : Path)
  | file (ino : ℕ)
deriving DecidableEq, Repr

structure Kernel where
  storage : Storage Name Bytes
  files : ℕ → Option Handle

/-- The system follows the path to `q` below the mount root; it refuses a path with a NUL byte. -/
structure OsFS.Leads (o : OsFS) (path : Bytes) (q : Path) : Prop where
  addresses : o.Addresses path q
  nul : 0 ∉ path

/-- The answer that reports an error. -/
def OsCall.failure : (call : OsCall) → FsError → call.Answer
  | readFile _, e => .error e
  | mkdirAll _ _, e => .error e
  | openFile _ _, e => .error e
  | .open _, e => .error e
  | write _ _, e => .error e
  | sync _, e => .error e
  | close _, e => .error e
  | rename _ _, e => .error e
  | remove _, e => .error e
  | readDir _, e => .error e

/-- A path of the call leads nowhere, and not because of a file in the way. -/
def OsCall.Misses (o : OsFS) (call : OsCall) (s : Storage Name Bytes) : Prop :=
  ∃ path ∈ call.paths, ∃ q, o.Leads path q ∧ s.lookup q = none ∧ ∀ p, p <+: q → ∀ i, s.lookup p ≠ some (.file i)

/-- The call is made to sync a directory. -/
def OsCall.Flushes (call : OsCall) (files : ℕ → Option Handle) : Prop :=
  match call with
  | .open _ => True
  | sync h => ∃ g, files h = some (.dir g)
  | _ => False

/-- `os.ReadDir` lists a directory in the order of the names. -/
structure Lists (v : DirView Name) (entries : List DirEntry) : Prop where
  sorted : (entries.map fun e => e.name).Pairwise (· < ·)
  complete : ∀ e, e ∈ entries ↔ ∃ f : Name, ∃ b, v f = some b ∧ e = ⟨f.1, b ≠ .dir⟩

/-- A call to the system. -/
inductive KernelStep (o : OsFS) (disturbed : Prop) : (call : OsCall) → Kernel → call.Answer → Kernel → Prop where
  | fails (call : OsCall) (k : Kernel) (e : FsError) (habsent : e = .notExist → call.Misses o k.storage)
      (hflush : call.Flushes k.files → disturbed) : KernelStep o disturbed call k (call.failure e) k
  | readFile (k : Kernel) (path : Bytes) (q : Path) (i : ℕ) (hq : o.Leads path q)
      (hi : k.storage.lookup q = some (.file i)) :
      KernelStep o disturbed (.readFile path) k (.ok (k.storage.data i)) k
  | readDir (k : Kernel) (path : Bytes) (q : Path) (entries : List DirEntry) (hq : o.Leads path q)
      (hdir : k.storage.lookup q = some .dir) (hentries : Lists (k.storage.view q) entries) :
      KernelStep o disturbed (.readDir path) k (.ok entries) k
  | mkdirAll (k : Kernel) (path : Bytes) (perm : ℕ) (q : Path) (s : Storage Name Bytes) (hq : o.Leads path q)
      (hs : k.storage.Made q s) (hdir : s.lookup q = some .dir) :
      KernelStep o disturbed (.mkdirAll path perm) k (.ok ()) { k with storage := s }
  | mkdirAllFails (k : Kernel) (path : Bytes) (perm : ℕ) (q : Path) (s : Storage Name Bytes) (e : FsError)
      (hq : o.Leads path q) (hs : k.storage.Made q s) :
      KernelStep o disturbed (.mkdirAll path perm) k (.error e) { k with storage := s }
  | openFile (k : Kernel) (path : Bytes) (perm : ℕ) (g : Path) (f : Name) (i h : ℕ) (s : Storage Name Bytes)
      (hq : o.Leads path (g ++ [f])) (hdir : k.storage.lookup g = some .dir) (hs : k.storage.Opened g f i s)
      (hh : k.files h = none) :
      KernelStep o disturbed (.openFile path perm) k (.ok h)
        ⟨s.put i [], Function.update k.files h (some (.file i))⟩
  | open (k : Kernel) (path : Bytes) (g : Path) (h : ℕ) (hg : o.Leads path g)
      (hdir : k.storage.lookup g = some .dir) (hh : k.files h = none) :
      KernelStep o disturbed (.open path) k (.ok h)
        { k with files := Function.update k.files h (some (.dir g)) }
  | write (k : Kernel) (h i : ℕ) (bytes : Bytes) (hh : k.files h = some (.file i)) :
      KernelStep o disturbed (.write h bytes) k (.ok ())
        { k with storage := k.storage.put i (k.storage.data i ++ bytes) }
  | writeFails (k : Kernel) (h i : ℕ) (bytes part : Bytes) (e : FsError) (hh : k.files h = some (.file i))
      (hpart : part <+: bytes) :
      KernelStep o disturbed (.write h bytes) k (.error e)
        { k with storage := k.storage.put i (k.storage.data i ++ part) }
  | syncFile (k : Kernel) (h i : ℕ) (hh : k.files h = some (.file i)) :
      KernelStep o disturbed (.sync h) k (.ok ()) { k with storage := k.storage.settle i }
  | syncDir (k : Kernel) (h : ℕ) (g : Path) (hh : k.files h = some (.dir g)) :
      KernelStep o disturbed (.sync h) k (.ok ()) { k with storage := k.storage.flush g }
  | close (k : Kernel) (h : ℕ) :
      KernelStep o disturbed (.close h) k (.ok ()) { k with files := Function.update k.files h none }
  | closeFails (k : Kernel) (h : ℕ) (e : FsError) :
      KernelStep o disturbed (.close h) k (.error e) { k with files := Function.update k.files h none }
  | rename (k : Kernel) (oldpath newpath : Bytes) (g g' : Path) (f f' : Name) (i : ℕ)
      (hold : o.Leads oldpath (g ++ [f])) (hnew : o.Leads newpath (g' ++ [f']))
      (hi : k.storage.lookup (g ++ [f]) = some (.file i)) (hdir : k.storage.lookup g' = some .dir)
      (hfile : k.storage.lookup (g' ++ [f']) ≠ some .dir) :
      KernelStep o disturbed (.rename oldpath newpath) k (.ok ())
        { k with storage := k.storage.move g f g' f' i }
  | renameFails (k : Kernel) (oldpath newpath : Bytes) (g g' : Path) (f f' : Name) (i : ℕ) (e : FsError)
      (hold : o.Leads oldpath (g ++ [f])) (hnew : o.Leads newpath (g' ++ [f']))
      (hi : k.storage.lookup (g ++ [f]) = some (.file i)) (hdir : k.storage.lookup g' = some .dir)
      (hfile : k.storage.lookup (g' ++ [f']) ≠ some .dir) (hd : disturbed) :
      KernelStep o disturbed (.rename oldpath newpath) k (.error e)
        { k with storage := k.storage.move g f g' f' i }
  | remove (k : Kernel) (path : Bytes) (g : Path) (f : Name) (i : ℕ) (hq : o.Leads path (g ++ [f]))
      (hi : k.storage.lookup (g ++ [f]) = some (.file i)) :
      KernelStep o disturbed (.remove path) k (.ok ()) { k with storage := k.storage.bind g f none }
  | removeFails (k : Kernel) (path : Bytes) (g : Path) (f : Name) (i : ℕ) (e : FsError)
      (hq : o.Leads path (g ++ [f])) (hi : k.storage.lookup (g ++ [f]) = some (.file i)) :
      KernelStep o disturbed (.remove path) k (.error e) { k with storage := k.storage.bind g f none }

/-! ### Paths -/

section paths
variable {o : OsFS} {name path : Bytes} {q q' : Path}

theorem exists_mem_split {c : UInt8} (hc : c ≠ 47) : ∀ {b : Bytes}, c ∈ b → ∃ seg ∈ split 47 b, c ∈ seg
  | x :: b, h => by
      unfold split
      split_ifs with hx
      · have hmem : c ∈ b := by
          cases List.mem_cons.mp h with
          | inl heq => exact absurd (heq.trans hx) hc
          | inr hmem => exact hmem
        obtain ⟨seg, hseg, hin⟩ := exists_mem_split hc hmem
        exact ⟨seg, List.mem_cons_of_mem _ hseg, hin⟩
      · cases hb : split 47 b with
        | nil => exact absurd hb (Bytes.split_ne_nil 47 b)
        | cons first segs =>
            cases List.mem_cons.mp h with
            | inl heq => exact ⟨x :: first, List.mem_cons_self, heq ▸ List.mem_cons_self⟩
            | inr hmem =>
                obtain ⟨seg, hseg, hin⟩ := exists_mem_split hc hmem
                rw [hb] at hseg
                cases List.mem_cons.mp hseg with
                | inl heq => exact ⟨x :: first, List.mem_cons_self, List.mem_cons_of_mem _ (heq ▸ hin)⟩
                | inr hseg => exact ⟨seg, List.mem_cons_of_mem _ hseg, hin⟩

/-- A path leads to one place only. -/
theorem OsFS.Addresses.unique (h : o.Addresses path q) (h' : o.Addresses path q') : q = q' := by
  have heq := h.location_eq.symm.trans h'.location_eq
  exact List.map_injective_iff.mpr Subtype.val_injective (List.append_cancel_left heq)

theorem map_of_mapM_ofBytes : ∀ {names : List Bytes} {q : Path}, names.mapM Name.ofBytes = some q →
    q.map (fun f => f.1) = names
  | [], q, h => by
      obtain rfl := Option.some.inj h
      rfl
  | b :: names, q, h => by
      rw [List.mapM_cons] at h
      obtain ⟨f, hf, hrest⟩ := Option.bind_eq_some_iff.mp h
      obtain ⟨q', hq', heq⟩ := Option.bind_eq_some_iff.mp hrest
      obtain rfl := Option.some.inj heq
      unfold Name.ofBytes at hf
      split_ifs at hf
      obtain rfl := Option.some.inj hf
      rw [List.map_cons, map_of_mapM_ofBytes hq']

/-- A NUL byte of the name is one of the path. -/
theorem OsFS.nul_mem_abs (hroot : isAbs o.root = true) (h : o.abs name = .ok path) (h0 : 0 ∈ name) : 0 ∈ path := by
  have hne : name ≠ [] := List.ne_nil_of_mem h0
  obtain ⟨q, hq, haddr⟩ := abs_addresses hroot h
  obtain ⟨hpath, hslash, -⟩ := abs_eq_join hne h
  obtain ⟨seg, hseg, hin⟩ := exists_mem_split (by decide) h0
  -- the segment is a name of the path
  have hmem : seg ∈ location path := by
    rw [haddr.location_eq]
    apply List.mem_append_right
    have hslash' : Bytes.hasPrefix name (ascii "/") = false := hslash
    rw [Operator.abs, if_neg hne, hslash', if_neg Bool.false_ne_true] at hq
    rw [map_of_mapM_ofBytes hq, List.mem_filter, decide_eq_true_eq]
    refine ⟨hseg, List.ne_nil_of_mem hin, ?_⟩
    rintro rfl
    exact absurd hin (by decide)
  have habs : isAbs (o.root ++ 47 :: name) = true := UnixPath.isAbs_append hroot _
  have hprint : path = UnixPath.print (location path) := by
    rw [hpath, UnixPath.join_pair (UnixPath.ne_nil_of_isAbs hroot), UnixPath.location_clean habs,
      UnixPath.clean_eq_print habs]
  rw [hprint, UnixPath.print_of_ne_nil (List.ne_nil_of_mem hmem), List.mem_flatMap]
  exact ⟨seg, hmem, List.mem_cons_of_mem _ hin⟩

/-- Where the system is led is where the name resolves to. -/
theorem OsFS.Leads.resolve (hroot : isAbs o.root = true) (h : o.abs name = .ok path) (hq : o.Leads path q) :
    resolve name = some q := by
  obtain ⟨q', hq', haddr⟩ := abs_addresses hroot h
  obtain rfl := hq.addresses.unique haddr
  rw [Operator.resolve, if_neg fun h0 => hq.nul (nul_mem_abs hroot h h0), hq']

/-- The directory of the path is that of the name. -/
theorem OsFS.dir_leads (hroot : isAbs o.root = true) (h : o.abs name = .ok path) {g : Path} {f : Name}
    (hq : o.Addresses path (g ++ [f])) : o.Addresses (dir path) g := by
  have hne : name ≠ [] := by
    rintro rfl
    obtain rfl := Except.ok.inj h
    have hnil : ([] : Path) = g ++ [f] := OsFS.Addresses.unique ⟨hroot, by simp⟩ hq
    simp at hnil
  obtain ⟨hpath, -, -⟩ := abs_eq_join hne h
  have habs : isAbs (o.root ++ 47 :: name) = true := UnixPath.isAbs_append hroot _
  have hdir : dir path = UnixPath.print (location path).dropLast := by
    rw [hpath, UnixPath.join_pair (UnixPath.ne_nil_of_isAbs hroot), UnixPath.dir_clean habs,
      UnixPath.location_clean habs]
  rw [hdir]
  refine ⟨UnixPath.isAbs_print _, ?_⟩
  rw [UnixPath.location_print fun d hd => UnixPath.location_isName _ d (List.mem_of_mem_dropLast hd), hq.location_eq,
    List.map_append, List.map_singleton, ← List.append_assoc, List.dropLast_concat]

end paths

/-! ### The methods -/

section methods
variable {o : OsFS} {disturbed : Prop} {name oldname newname data : Bytes} {k : Kernel}

/-- What a read says about the storage. -/
def FileRead (s : Storage Name Bytes) (name : Bytes) : Except FsError Bytes → Prop
  | .ok b => ∃ q i, resolve name = some q ∧ s.lookup q = some (.file i) ∧ s.data i = b
  | .error .notExist => ∃ q, resolve name = some q ∧ s.lookup q = none
  | .error .other => True

theorem readFile_spec (hroot : isAbs o.root = true) (name : Bytes) (k : Kernel) :
    (o.readFile name).Guarantees (KernelStep o disturbed) (fun _ _ k' => k'.storage = k.storage)
      (fun a k' => k'.storage = k.storage ∧ FileRead k.storage name a) k := by
  unfold OsFS.readFile
  cases h : o.abs name with
  | error e => exact ⟨rfl, trivial⟩
  | ok path =>
      intro a k' hstep
      cases hstep with
      | fails _ _ e habsent _ =>
          refine ⟨rfl, rfl, ?_⟩
          cases e with
          | notExist =>
              obtain ⟨path', hpath, q, hq, hnone, -⟩ := habsent rfl
              obtain rfl := List.mem_singleton.mp hpath
              exact ⟨q, hq.resolve hroot h, hnone⟩
          | other => trivial
      | readFile _ _ q i hq hi => exact ⟨rfl, rfl, q, i, hq.resolve hroot h, hi, rfl⟩

/-- What a listing says about the storage. -/
def DirRead (s : Storage Name Bytes) (name : Bytes) : Except FsError (List Bytes) → Prop
  | .ok names => ∃ q, resolve name = some q ∧
      ((s.lookup q = some .dir ∧ names.Pairwise (· < ·) ∧
          ∀ n, n ∈ names ↔ ∃ f : Name, f.1 = n ∧ ∃ i, s.view q f = some (.file i)) ∨
        (names = [] ∧ s.lookup q = none ∧ ∀ p, p <+: q → ∀ i, s.lookup p ≠ some (.file i)))
  | .error _ => True

theorem Lists.regular {v : DirView Name} {entries : List DirEntry} (h : Lists v entries) :
    ((entries.filter fun e => e.regular).map fun e => e.name).Pairwise (· < ·) ∧
    ∀ n, n ∈ (entries.filter fun e => e.regular).map (fun e => e.name) ↔
      ∃ f : Name, f.1 = n ∧ ∃ i, v f = some (.file i) := by
  constructor
  · exact h.sorted.sublist (List.filter_sublist.map _)
  · intro n
    rw [List.mem_map]
    constructor
    · rintro ⟨e, he, rfl⟩
      obtain ⟨hmem, hreg⟩ := List.mem_filter.mp he
      obtain ⟨f, b, hb, rfl⟩ := (h.complete e).mp hmem
      cases b with
      | dir => simp at hreg
      | file i => exact ⟨f, rfl, i, hb⟩
    · rintro ⟨f, rfl, i, hi⟩
      refine ⟨⟨f.1, true⟩, List.mem_filter.mpr ⟨(h.complete _).mpr ⟨f, _, hi, ?_⟩, rfl⟩, rfl⟩
      simp

theorem readDir_spec (hroot : isAbs o.root = true) (name : Bytes) (k : Kernel) :
    (o.readDir name).Guarantees (KernelStep o disturbed) (fun _ _ k' => k'.storage = k.storage)
      (fun a k' => k'.storage = k.storage ∧ DirRead k.storage name a) k := by
  unfold OsFS.readDir
  cases h : o.abs name with
  | error e => exact ⟨rfl, trivial⟩
  | ok path =>
      intro a k' hstep
      cases hstep with
      | fails _ _ e habsent _ =>
          refine ⟨rfl, ?_⟩
          cases e with
          | notExist =>
              obtain ⟨path', hpath, q, hq, hnone, hfile⟩ := habsent rfl
              obtain rfl := List.mem_singleton.mp hpath
              exact ⟨rfl, q, hq.resolve hroot h, Or.inr ⟨rfl, hnone, hfile⟩⟩
          | other => exact ⟨rfl, trivial⟩
      | readDir _ _ q entries hq hdir hentries =>
          obtain ⟨hsorted, hmem⟩ := hentries.regular
          exact ⟨rfl, rfl, q, hq.resolve hroot h, Or.inl ⟨hdir, hsorted, hmem⟩⟩

/-- The file of the name is gone. -/
def Unlinked (s : Storage Name Bytes) (name : Bytes) (s' : Storage Name Bytes) : Prop :=
  ∃ (g : Path) (f : Name) (i : ℕ), resolve name = some (g ++ [f]) ∧ s.lookup (g ++ [f]) = some (.file i) ∧
    s' = s.bind g f none

theorem remove_spec (hroot : isAbs o.root = true) (name : Bytes) (k : Kernel) :
    (o.remove name).Guarantees (KernelStep o disturbed)
      (fun _ _ k' => k'.storage = k.storage ∨ Unlinked k.storage name k'.storage)
      (fun a k' => (k'.storage = k.storage ∧ a.isOk = false) ∨ Unlinked k.storage name k'.storage) k := by
  unfold OsFS.remove
  cases h : o.abs name with
  | error e => exact Or.inl ⟨rfl, rfl⟩
  | ok path =>
      intro a k' hstep
      cases hstep with
      | fails _ _ e _ _ => exact ⟨Or.inl rfl, Or.inl ⟨rfl, rfl⟩⟩
      | remove _ _ g f i hq hi =>
          have hunlinked : Unlinked k.storage name (k.storage.bind g f none) :=
            ⟨g, f, i, hq.resolve hroot h, hi, rfl⟩
          exact ⟨Or.inr hunlinked, Or.inr hunlinked⟩
      | removeFails _ _ g f i e hq hi =>
          have hunlinked : Unlinked k.storage name (k.storage.bind g f none) :=
            ⟨g, f, i, hq.resolve hroot h, hi, rfl⟩
          exact ⟨Or.inr hunlinked, Or.inr hunlinked⟩

/-- What can be seen while `g ++ [f]` is being written. -/
inductive Written (s : Storage Name Bytes) (g : Path) (f : Name) : Storage Name Bytes → Prop where
  | made (s₁ : Storage Name Bytes) (h : s.Made g s₁) : Written s g f s₁
  | torn (s₁ s₂ : Storage Name Bytes) (i : ℕ) (part : Bytes) (h : s.Made g s₁) (hdir : s₁.lookup g = some .dir)
      (hopen : s₁.Opened g f i s₂) : Written s g f (s₂.put i part)
  | whole (s₁ s₂ : Storage Name Bytes) (i : ℕ) (part : Bytes) (h : s.Made g s₁) (hdir : s₁.lookup g = some .dir)
      (hopen : s₁.Opened g f i s₂) : Written s g f ((s₂.put i part).settle i)

/-- The file has been written and synced. -/
def WrittenOut (s : Storage Name Bytes) (g : Path) (f : Name) (data : Bytes) (s' : Storage Name Bytes) : Prop :=
  ∃ s₁ s₂ i, s.Made g s₁ ∧ s₁.lookup g = some .dir ∧ s₁.Opened g f i s₂ ∧ s' = (s₂.put i data).settle i

/-- Closing a file does nothing to the storage. -/
theorem close_storage {k' : Kernel} {h : ℕ} {a : Except FsError Unit}
    (hstep : KernelStep o disturbed (.close h) k a k') : k'.storage = k.storage := by
  cases hstep with
  | fails => rfl
  | close => rfl
  | closeFails => rfl

/-- A file is closed, and what the close reports is ignored. -/
theorem closing {α : Type} {P : Storage Name Bytes → Prop} {fd : ℕ} (a : α) (h : P k.storage) :
    (Prog.ask (S := OS) (.close fd) >>= fun _ => (pure a : Prog OS α)).Guarantees (KernelStep o disturbed)
      (fun _ _ k' => P k'.storage) (fun a' k' => a' = a ∧ P k'.storage) k := by
  intro closed k' hclosed
  have hP : P k'.storage := by
    rw [close_storage hclosed]
    exact h
  exact ⟨hP, rfl, hP⟩

theorem eq_of_update {files : ℕ → Option Handle} {fd : ℕ} {h h' : Handle}
    (hfd : Function.update files fd (some h) fd = some h') : h = h' := by
  rw [Function.update_self] at hfd
  exact Option.some.inj hfd

theorem OsFS.addresses_of_resolve (hroot : isAbs o.root = true) {path : Bytes} {q : Path}
    (h : o.abs name = .ok path) (hname : resolve name = some q) : o.Addresses path q := by
  obtain ⟨q', hq', haddr⟩ := abs_addresses hroot h
  unfold Operator.resolve at hname
  split_ifs at hname
  obtain rfl := Option.some.inj (hq'.symm.trans hname)
  exact haddr

theorem writeFile_spec (hroot : isAbs o.root = true) {g : Path} {f : Name}
    (hname : resolve name = some (g ++ [f])) (data : Bytes) (k : Kernel) :
    (o.writeFile name data).Guarantees (KernelStep o disturbed)
      (fun _ _ k' => Written k.storage g f k'.storage)
      (fun a k' => Written k.storage g f k'.storage ∧ (a = .ok () → WrittenOut k.storage g f data k'.storage)) k := by
  unfold OsFS.writeFile
  cases h : o.abs name with
  | error e => exact ⟨.made _ .refl, fun ha => by cases ha⟩
  | ok path =>
      have haddr := o.addresses_of_resolve hroot h hname
      have hparent := o.dir_leads hroot h haddr
      intro made k₁ hmade
      cases hmade with
      | fails _ _ e _ _ => exact ⟨.made _ .refl, .made _ .refl, fun ha => by cases ha⟩
      | mkdirAllFails _ _ _ q s₁ e hq hs =>
          obtain rfl := hq.addresses.unique hparent
          exact ⟨.made _ hs, .made _ hs, fun ha => by cases ha⟩
      | mkdirAll _ _ _ q s₁ hq hs hdir =>
          obtain rfl := hq.addresses.unique hparent
          refine ⟨.made _ hs, ?_⟩
          intro opened k₂ hopened
          cases hopened with
          | fails _ _ e _ _ => exact ⟨.made _ hs, .made _ hs, fun ha => by cases ha⟩
          | openFile _ _ _ g' f' i fd s₂ hq' _ hopen _ =>
              obtain ⟨rfl, rfl⟩ := List.append_singleton_inj.mp (hq'.addresses.unique haddr)
              have htorn : ∀ part, Written k.storage g' f' (s₂.put i part) := fun part => .torn _ _ i part hs hdir hopen
              refine ⟨htorn [], ?_⟩
              intro written k₃ hwritten
              -- on an error the file is closed, as it is
              have hclose : ∀ k₄ : Kernel, Written k.storage g' f' k₄.storage → ∀ e : FsError,
                  (Prog.ask (S := OS) (.close fd) >>= fun _ => (pure (.error e) : Prog OS (Except FsError Unit))).Guarantees
                    (KernelStep o disturbed) (fun _ _ k' => Written k.storage g' f' k'.storage)
                    (fun a k' => Written k.storage g' f' k'.storage ∧
                      (a = .ok () → WrittenOut k.storage g' f' data k'.storage)) k₄ := by
                intro k₄ hw e
                apply (closing _ hw).mono
                rintro _ k₅ ⟨rfl, hw'⟩
                exact ⟨hw', fun ha => by cases ha⟩
              have hput : ∀ part, (s₂.put i []).put i ((s₂.put i []).data i ++ part) = s₂.put i part := by
                intro part
                rw [Storage.put_put, Storage.data_put, List.nil_append]
              cases hwritten with
              | fails _ _ e _ _ => exact ⟨htorn [], hclose _ (htorn []) e⟩
              | writeFails _ _ i' _ part e hfd _ =>
                  cases eq_of_update hfd
                  have hw := (hput part).symm ▸ htorn part
                  exact ⟨hw, hclose _ hw e⟩
              | write _ _ i' _ hfd =>
                  cases eq_of_update hfd
                  have hw := (hput data).symm ▸ htorn data
                  refine ⟨hw, ?_⟩
                  intro synced k₄ hsynced
                  cases hsynced with
                  | fails _ _ e _ _ => exact ⟨hw, hclose _ hw e⟩
                  | syncDir _ _ g'' hfd' => cases eq_of_update hfd'
                  | syncFile _ _ i' hfd' =>
                      cases eq_of_update hfd'
                      have hwhole : Written k.storage g' f' ((s₂.put i data).settle i) := .whole _ _ i data hs hdir hopen
                      rw [← hput data] at hwhole
                      refine ⟨hwhole, ?_⟩
                      intro closed k₅ hclosed
                      have hstorage := close_storage hclosed
                      have hw' : Written k.storage g' f' k₅.storage := by
                        rw [hstorage]
                        exact hwhole
                      refine ⟨hw', hw', fun _ => ⟨_, _, i, hs, hdir, hopen, ?_⟩⟩
                      rw [← hput data]
                      exact hstorage

/-- The file has been moved into place. -/
def Renamed (s : Storage Name Bytes) (g : Path) (f : Name) (g' : Path) (f' : Name) (s' : Storage Name Bytes) : Prop :=
  ∃ i, s.lookup (g ++ [f]) = some (.file i) ∧ s.lookup g' = some .dir ∧ s.lookup (g' ++ [f']) ≠ some .dir ∧
    s' = s.move g f g' f' i

/-- What a rename has done, and whether its directory has been synced. -/
inductive Renaming (disturbed : Prop) (s : Storage Name Bytes) (g : Path) (f : Name) (g' : Path) (f' : Name) :
    (ok : Bool) → Storage Name Bytes → Prop where
  | not : Renaming disturbed s g f g' f' false s
  | unsynced (s₁ : Storage Name Bytes) (h : Renamed s g f g' f' s₁) (hd : disturbed) :
      Renaming disturbed s g f g' f' false s₁
  | synced (s₁ : Storage Name Bytes) (ok : Bool) (h : Renamed s g f g' f' s₁) :
      Renaming disturbed s g f g' f' ok (s₁.flush g')

/-- Only the calls that sync the directory find the file renamed and the directory not synced, unless
`disturbed`. -/
theorem rename_spec (hroot : isAbs o.root = true) {g g' : Path} {f f' : Name}
    (hold : resolve oldname = some (g ++ [f])) (hnew : resolve newname = some (g' ++ [f'])) (k : Kernel) :
    (o.rename oldname newname).Guarantees (KernelStep o disturbed)
      (fun call k₁ k' => (Renamed k.storage g f g' f' k'.storage ∨
          Renaming disturbed k.storage g f g' f' false k'.storage) ∧
        (¬OsCall.Flushes call k₁.files → Renaming disturbed k.storage g f g' f' false k₁.storage))
      (fun a k' => Renaming disturbed k.storage g f g' f' a.isOk k'.storage) k := by
  unfold OsFS.rename
  cases h : o.abs oldname with
  | error e => exact .not
  | ok oldpath =>
      cases h' : o.abs newname with
      | error e => exact .not
      | ok newpath =>
          have haddr := o.addresses_of_resolve hroot h hold
          have haddr' := o.addresses_of_resolve hroot h' hnew
          have hparent := o.dir_leads hroot h' haddr'
          intro renamed k₁ hrenamed
          cases hrenamed with
          | fails _ _ e _ _ => exact ⟨⟨Or.inr .not, fun _ => .not⟩, .not⟩
          | renameFails _ _ _ h h' x x' i e hq hq' hi hdir hfile hd =>
              obtain ⟨rfl, rfl⟩ := List.append_singleton_inj.mp (hq.addresses.unique haddr)
              obtain ⟨rfl, rfl⟩ := List.append_singleton_inj.mp (hq'.addresses.unique haddr')
              have hren : Renamed k.storage h x h' x' _ := ⟨i, hi, hdir, hfile, rfl⟩
              exact ⟨⟨Or.inl hren, fun _ => .not⟩, .unsynced _ hren hd⟩
          | rename _ _ _ h h' x x' i hq hq' hi hdir hfile =>
              obtain ⟨rfl, rfl⟩ := List.append_singleton_inj.mp (hq.addresses.unique haddr)
              obtain ⟨rfl, rfl⟩ := List.append_singleton_inj.mp (hq'.addresses.unique haddr')
              have hren : Renamed k.storage h x h' x' (k.storage.move h x h' x' i) := ⟨i, hi, hdir, hfile, rfl⟩
              refine ⟨⟨Or.inl hren, fun _ => .not⟩, ?_⟩
              intro opened k₂ hopened
              cases hopened with
              | fails _ _ e _ hflush =>
                  have hd : disturbed := hflush trivial
                  exact ⟨⟨Or.inl hren, fun _ => .unsynced _ hren hd⟩, .unsynced _ hren hd⟩
              | «open» _ _ q fd hq _ _ =>
                  obtain rfl := hq.addresses.unique hparent
                  refine ⟨⟨Or.inl hren, fun hnot => absurd trivial hnot⟩, ?_⟩
                  intro synced k₃ hsynced
                  have hflushes : OsCall.Flushes (.sync fd) (Function.update k.files fd (some (.dir q))) :=
                    ⟨q, Function.update_self ..⟩
                  cases hsynced with
                  | fails _ _ e _ hflush =>
                      have hd : disturbed := hflush hflushes
                      refine ⟨⟨Or.inl hren, fun hnot => absurd hflushes hnot⟩, ?_⟩
                      intro closed k₄ hclosed
                      have hstorage : k₄.storage = k.storage.move h x q x' i := close_storage hclosed
                      have hren' : Renamed k.storage h x q x' k₄.storage := hstorage ▸ hren
                      exact ⟨⟨Or.inl hren', fun _ => .unsynced _ hren hd⟩, .unsynced _ hren' hd⟩
                  | syncFile _ _ i' hfd => cases eq_of_update hfd
                  | syncDir _ _ q' hfd =>
                      cases eq_of_update hfd
                      refine ⟨⟨Or.inr (.synced _ _ hren), fun hnot => absurd hflushes hnot⟩, ?_⟩
                      intro closed k₄ hclosed
                      have hstorage : k₄.storage = (k.storage.move h x q x' i).flush q := close_storage hclosed
                      have hsynced : ∀ ok, Renaming disturbed k.storage h x q x' ok k₄.storage := by
                        rw [hstorage]
                        exact fun ok => .synced _ ok hren
                      exact ⟨⟨Or.inr (hsynced false), fun _ => .synced _ _ hren⟩, hsynced _⟩

end methods

end McGateway.Operator
