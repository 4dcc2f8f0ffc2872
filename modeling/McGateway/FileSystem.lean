import McGateway.LexicalPaths
import McGateway.Programs

/-! # The mount (`FS`, `osFS` of `commit.go`)

The committer's view of the mount root: five operations on slash-separated names.  `exec` is the
behaviour of `osFS` on a disk where nothing fails; `FsStep` adds the failures: any operation may
report an error, a failed `WriteFile` may leave anything at its target, and a failed `Rename` or
`Remove` may have taken effect or not (the directory sync comes after the rename).

A disk maps paths, lists of `Name`s below the root, to files and directories; the root itself is
always a directory.  A `Name` carries the proof that it can be a directory entry. -/

open Bytes (ascii hasPrefix hasSuffix split sortBy)
open UnixPath (IsName)

namespace McGateway.Operator

/-! ### Names and paths -/

/-- The name of a directory entry. -/
abbrev Name := {b : Bytes // IsName b}

/-- A path below the mount root. -/
abbrev Path := List Name

def Name.ofBytes (b : Bytes) : Option Name := if h : IsName b then some ⟨b, h⟩ else none

/-- `osFS.abs`: the cleaned path below the root; an absolute name and a `..` segment are
errors. -/
def abs (name : Bytes) : Option Path :=
  if name = [] then some []
  else if hasPrefix name (ascii "/") then none
  else ((split 47 name).filter fun seg => seg ≠ [] ∧ seg ≠ ascii ".").mapM Name.ofBytes

/-- The path a system call acts on: names with a NUL byte are refused there. -/
def resolve (name : Bytes) : Option Path := if 0 ∈ name then none else abs name

/-! ### Disks -/

inductive Node where
  | dir
  | file (data : Bytes)
deriving DecidableEq, Repr

/-- The entries below the mount root. -/
abbrev Disk := AList fun _ : Path => Node

/-- What is at a path. -/
def Disk.node (d : Disk) (p : Path) : Option Node := if p = [] then some .dir else d.lookup p

/-- The bytes of the regular file of this name. -/
def Disk.contents (d : Disk) (name : Bytes) : Option Bytes :=
  match (resolve name).bind d.node with
  | some (.file data) => some data
  | _ => none

inductive FsError where
  | notExist
  | other
deriving DecidableEq, Repr

/-- The error for an absent path: a proper ancestor that is a regular file is not the same error
as a missing entry. -/
def Disk.missing (d : Disk) (p : Path) : FsError :=
  if p.inits.any (fun q => d.node q matches some (.file _)) then .other else .notExist

/-- `os.MkdirAll`, unless a regular file is in the way. -/
def Disk.mkdirAll (d : Disk) (p : Path) : Option Disk :=
  if p.inits.any (fun q => d.node q matches some (.file _)) then none
  else some (p.inits.foldl (fun d q => if (d.node q).isSome then d else d.insert q .dir) d)

/-- The entries directly in `p`. -/
def Disk.children (d : Disk) (p : Path) : List (Name × Node) :=
  d.entries.filterMap fun e =>
    match e.1.getLast? with
    | some f => if e.1.dropLast = p then some (f, e.2) else none
    | none => none

/-- Move a directory with everything below it. -/
def Disk.moveDir (d : Disk) (p q : Path) : Disk :=
  ((d.erase q).entries.map fun e =>
    (⟨if p <+: e.1 then q ++ e.1.drop p.length else e.1, e.2⟩ : Sigma fun _ : Path => Node)).toAList

/-! ### Operations -/

inductive FsOp where
  | readFile (name : Bytes)
  | writeFile (name data : Bytes)
  | rename (oldname newname : Bytes)
  | remove (name : Bytes)
  | readDir (name : Bytes)
deriving DecidableEq, Repr

@[reducible] def FsOp.Answer : FsOp → Type
  | readFile _ => Except FsError Bytes
  | writeFile _ _ => Except FsError Unit
  | rename _ _ => Except FsError Unit
  | remove _ => Except FsError Unit
  | readDir _ => Except FsError (List Bytes)

/-- The interface `FS`. -/
abbrev FS : Interface := ⟨FsOp, FsOp.Answer⟩

def readFile (name : Bytes) (d : Disk) : Except FsError Bytes :=
  match resolve name with
  | none => .error .other
  | some p =>
      match d.node p with
      | some (.file data) => .ok data
      | some .dir => .error .other
      | none => .error (d.missing p)

def writeFile (name data : Bytes) (d : Disk) : Except FsError Unit × Disk :=
  match resolve name with
  | none => (.error .other, d)
  | some p =>
      match d.mkdirAll p.dropLast with
      | none => (.error .other, d)
      | some d =>
          match d.node p with
          | some .dir => (.error .other, d)
          | _ => (.ok (), d.insert p (.file data))

/-- `os.Rename` on resolved paths. -/
def renamePath (p q : Path) (d : Disk) : Except FsError Unit × Disk :=
  match d.node p, d.node q.dropLast with
  | none, _ => (.error (d.missing p), d)
  | some _, none => (.error (d.missing q.dropLast), d)
  | some _, some (.file _) => (.error .other, d)
  | some (.file data), some .dir =>
      match d.node q with
      | some .dir => (.error .other, d)
      | _ => (.ok (), (d.erase p).insert q (.file data))
  | some .dir, some .dir =>
      if p = [] ∨ q = [] ∨ (p <+: q ∧ p ≠ q) then (.error .other, d)
      else if p = q then (.ok (), d)
      else match d.node q with
        | some (.file _) => (.error .other, d)
        | _ => if (d.children q).isEmpty then (.ok (), d.moveDir p q) else (.error .other, d)

def rename (oldname newname : Bytes) (d : Disk) : Except FsError Unit × Disk :=
  match resolve oldname, resolve newname with
  | some p, some q => renamePath p q d
  | _, _ => (.error .other, d)

def remove (name : Bytes) (d : Disk) : Except FsError Unit × Disk :=
  match resolve name with
  | none => (.error .other, d)
  | some p =>
      match d.node p with
      | none => (.error (d.missing p), d)
      | some (.file _) => (.ok (), d.erase p)
      | some .dir => if p ≠ [] ∧ (d.children p).isEmpty then (.ok (), d.erase p) else (.error .other, d)

/-- Regular files only, in the order of `os.ReadDir`. -/
def readDir (name : Bytes) (d : Disk) : Except FsError (List Bytes) :=
  match resolve name with
  | none => .error .other
  | some p =>
      match d.node p with
      | some .dir => .ok (sortBy id (((d.children p).filter fun e => e.2 matches .file _).map fun e => e.1.1))
      | some (.file _) => .error .other
      | none =>
          match d.missing p with
          | .notExist => .ok []
          | .other => .error .other

/-- `osFS` on a disk where nothing fails. -/
def exec : (op : FsOp) → Disk → op.Answer × Disk
  | .readFile name, d => (readFile name d, d)
  | .writeFile name data, d => writeFile name data d
  | .rename oldname newname, d => rename oldname newname d
  | .remove name, d => remove name d
  | .readDir name, d => (readDir name d, d)

/-! ### Failures -/

/-- Only `p` and missing directories above it may differ. -/
def ChangesAt (d d' : Disk) (p : Path) : Prop :=
  ∀ q, q ≠ p → d'.node q = d.node q ∨ (d.node q = none ∧ d'.node q = some .dir ∧ q <+: p)

/-- The effect of an operation on a disk where operations may fail. -/
inductive FsStep : (op : FsOp) → Disk → op.Answer → Disk → Prop where
  | ok (op : FsOp) (d : Disk) : FsStep op d (exec op d).1 (exec op d).2
  | readFile (name : Bytes) (d : Disk) (e : FsError) : FsStep (.readFile name) d (.error e) d
  | readDir (name : Bytes) (d : Disk) (e : FsError) : FsStep (.readDir name) d (.error e) d
  | writeFile (name data : Bytes) (d d' : Disk) (e : FsError) (p : Path)
      (hp : resolve name = some p) (h : ChangesAt d d' p)
      (hat : d'.node p = d.node p ∨ ∃ part, d'.node p = some (.file part)) :
      FsStep (.writeFile name data) d (.error e) d'
  | writeFileNot (name data : Bytes) (d : Disk) (e : FsError) :
      FsStep (.writeFile name data) d (.error e) d
  | rename (oldname newname : Bytes) (d d' : Disk) (e : FsError)
      (h : d' = d ∨ d' = (exec (.rename oldname newname) d).2) :
      FsStep (.rename oldname newname) d (.error e) d'
  | remove (name : Bytes) (d d' : Disk) (e : FsError)
      (h : d' = d ∨ d' = (exec (.remove name) d).2) : FsStep (.remove name) d (.error e) d'

/-! ### Resolution -/

theorem Name.ofBytes_val (f : Name) : Name.ofBytes f.1 = some f := by
  unfold Name.ofBytes
  rw [dif_pos f.2]

theorem hasPrefix_slash_eq_false {b : Bytes} (h : IsName b) (rest : Bytes) :
    hasPrefix (b ++ rest) (ascii "/") = false := by
  obtain ⟨hne, -, -, hslash⟩ := h
  cases b with
  | nil => exact absurd rfl hne
  | cons c cs =>
      rw [Bool.eq_false_iff, ne_eq, Bytes.hasPrefix_iff]
      rintro ⟨r, hr⟩
      have hc : c = 47 := by simpa [ascii] using congrArg List.head? hr
      exact hslash (hc ▸ List.mem_cons_self ..)

/-- A name that goes on after an entry of the root is one below that entry. -/
theorem abs_below_entry {g : Name} {r : Bytes} {q : Path} (h : abs (g.1 ++ ascii "/" ++ r) = some q) :
    ∃ below, q = g :: below := by
  have hcons : g.1 ++ ascii "/" ++ r = g.1 ++ 47 :: r := by simp [ascii]
  have hslash := hasPrefix_slash_eq_false g.2 (47 :: r)
  obtain ⟨hne, hdot, -, hsep⟩ := g.2
  rw [hcons, abs, if_neg (by simp), hslash, if_neg (by simp), Bytes.split_append_sep r hsep,
    List.filter_cons_of_pos (by simp [hne, hdot]), List.mapM_cons] at h
  obtain ⟨first, hfirst, hrest⟩ := Option.bind_eq_some_iff.mp h
  obtain ⟨below, -, hq⟩ := Option.bind_eq_some_iff.mp hrest
  obtain rfl : g = first := Option.some.inj ((Name.ofBytes_val g).symm.trans hfirst)
  exact ⟨below, (Option.some.inj hq).symm⟩

/-- An entry of the root resolves to itself. -/
theorem resolve_entry (f : Name) (h0 : 0 ∉ f.1) : resolve f.1 = some [f] := by
  have hns := hasPrefix_slash_eq_false f.2 []
  rw [List.append_nil] at hns
  obtain ⟨hne, hdot, -, hslash⟩ := f.2
  unfold resolve abs
  rw [if_neg h0, if_neg hne, hns, Bytes.split_of_not_mem hslash]
  simp [hne, hdot, Name.ofBytes_val]

/-- An entry of a directory resolves to the path of the directory with the name of the entry. -/
theorem resolve_append_entry {dir : Bytes} (hne : dir ≠ []) (hslash : hasPrefix dir (ascii "/") = false)
    (f : Name) :
    resolve (dir ++ ascii "/" ++ f.1) = if 0 ∈ f.1 then none else (resolve dir).map (· ++ [f]) := by
  have e : dir ++ ascii "/" ++ f.1 = dir ++ 47 :: f.1 := by simp [ascii]
  have hns : hasPrefix (dir ++ 47 :: f.1) (ascii "/") = false := by
    cases dir with
    | nil => exact absurd rfl hne
    | cons c cs => simpa [hasPrefix, ascii, List.isPrefixOf] using hslash
  unfold resolve
  by_cases hf : 0 ∈ f.1
  · rw [if_pos hf, if_pos (by simp [hf])]
  by_cases hdir : 0 ∈ dir
  · rw [if_neg hf, if_pos hdir, if_pos (by simp [hdir])]
    rfl
  have h0 : 0 ∉ dir ++ ascii "/" ++ f.1 := by simp [hf, hdir, ascii]
  rw [if_neg hf, if_neg hdir, if_neg h0, e, abs, abs, if_neg hne, if_neg (by simp), hns, hslash,
    Bytes.split_append, Bytes.split_of_not_mem f.2.2.2.2]
  simp only [Bool.false_eq_true, if_false, List.filter_append, List.mapM_append]
  generalize ((split 47 dir).filter fun seg => seg ≠ [] ∧ seg ≠ ascii ".").mapM Name.ofBytes = names
  cases names with
  | none => rfl
  | some names => simp [f.2.1, f.2.2.1, Name.ofBytes_val]

/-- An entry of a directory of the root resolves to the two names. -/
theorem resolve_join (g f : Name) (hg : 0 ∉ g.1) (hf : 0 ∉ f.1) :
    resolve (g.1 ++ ascii "/" ++ f.1) = some [g, f] := by
  have hslash := hasPrefix_slash_eq_false g.2 []
  rw [List.append_nil] at hslash
  rw [resolve_append_entry g.2.1 hslash, if_neg hf, resolve_entry g hg]
  rfl

/-! ### What an operation can change -/

namespace Disk

variable {d : Disk} {p q : Path} {n : Node}

@[simp] theorem node_nil : d.node [] = some .dir := rfl

theorem node_insert_self (hp : p ≠ []) : Disk.node (d.insert p n) p = some n := by
  simp [node, hp]

theorem node_insert_ne (h : q ≠ p) : Disk.node (d.insert p n) q = d.node q := by
  simp [node, AList.lookup_insert_ne h]

theorem node_erase_self (hp : p ≠ []) : Disk.node (d.erase p) p = none := by
  simp [node, hp]

theorem node_erase_ne (h : q ≠ p) : Disk.node (d.erase p) q = d.node q := by
  simp [node, AList.lookup_erase_ne h]

theorem foldl_mkdir (l : List Path) (d : Disk) (q : Path) :
    let d' := l.foldl (fun d q => if (d.node q).isSome then d else d.insert q .dir) d
    d'.node q = d.node q ∨ (d.node q = none ∧ d'.node q = some .dir ∧ q ∈ l) := by
  induction l generalizing d with
  | nil => exact Or.inl rfl
  | cons r l ih =>
      simp only [List.foldl_cons]
      by_cases hr : (d.node r).isSome
      · rw [if_pos hr]
        rcases ih d with h | ⟨h1, h2, h3⟩
        · exact Or.inl h
        · exact Or.inr ⟨h1, h2, List.mem_cons_of_mem _ h3⟩
      · rw [if_neg hr]
        have hnone : d.node r = none := by simpa using hr
        have hr0 : r ≠ [] := by
          rintro rfl
          simp at hnone
        by_cases hq : q = r
        · subst hq
          rcases ih (d.insert q .dir) with h | ⟨h1, -, -⟩
          · rw [node_insert_self hr0] at h
            exact Or.inr ⟨hnone, h, List.mem_cons_self ..⟩
          · rw [node_insert_self hr0] at h1
            cases h1
        · rcases ih (d.insert r .dir) with h | ⟨h1, h2, h3⟩
          · rw [node_insert_ne hq] at h
            exact Or.inl h
          · rw [node_insert_ne hq] at h1
            exact Or.inr ⟨h1, h2, List.mem_cons_of_mem _ h3⟩

theorem mkdirAll_node {d' : Disk} (h : d.mkdirAll p = some d') (q : Path) :
    d'.node q = d.node q ∨ (d.node q = none ∧ d'.node q = some .dir ∧ q <+: p) := by
  unfold mkdirAll at h
  split_ifs at h
  rw [Option.some.injEq] at h
  subst h
  simpa using foldl_mkdir p.inits d q

theorem isSome_foldl_mkdir (l : List Path) (d : Disk) {q : Path} (hq : q ∈ l ∨ (d.node q).isSome = true) :
    ((l.foldl (fun d q => if (d.node q).isSome then d else d.insert q .dir) d).node q).isSome = true := by
  induction l generalizing d with
  | nil => exact hq.resolve_left List.not_mem_nil
  | cons r l ih =>
      rw [List.foldl_cons]
      apply ih
      by_cases hqr : q = r
      · right
        subst hqr
        split_ifs with hsome
        · exact hsome
        · have hq0 : q ≠ [] := by
            intro h0
            subst h0
            exact hsome rfl
          rw [node_insert_self hq0]
          rfl
      · cases hq with
        | inl hmem => exact Or.inl ((List.mem_cons.mp hmem).resolve_left hqr)
        | inr hsome =>
            right
            split_ifs
            · exact hsome
            · rwa [node_insert_ne hqr]

/-- After `os.MkdirAll` the path and everything above it are directories. -/
theorem mkdirAll_dir {d' : Disk} (h : d.mkdirAll p = some d') (hq : q <+: p) : d'.node q = some .dir := by
  unfold mkdirAll at h
  split_ifs at h with hfile
  rw [Option.some.injEq] at h
  subst h
  have hmem : q ∈ p.inits := (List.mem_inits q p).mpr hq
  have hsome := isSome_foldl_mkdir p.inits d (Or.inl hmem)
  have hcases := foldl_mkdir p.inits d q
  simp only at hcases
  cases hcases with
  | inr hnew => exact hnew.2.1
  | inl hold =>
      rw [hold] at hsome ⊢
      cases hn : d.node q with
      | none => simp [hn] at hsome
      | some n =>
          cases n with
          | dir => rfl
          | file b =>
              refine absurd (List.any_eq_true.mpr ⟨q, hmem, ?_⟩) hfile
              rw [hn]

end Disk

section operations
variable {d d' : Disk} {name oldname newname data : Bytes} {p q : Path}

theorem contents_eq_some : d.contents name = some data ↔
    ∃ p, resolve name = some p ∧ d.node p = some (.file data) := by
  unfold Disk.contents
  cases resolve name with
  | none => simp
  | some p =>
      rw [Option.bind_some]
      cases hn : d.node p with
      | none => simp [hn]
      | some n => cases n <;> simp [hn]

theorem readFile_eq_ok (h : readFile name d = .ok data) : d.contents name = some data := by
  unfold readFile at h
  cases hr : resolve name with
  | none => simp [hr] at h
  | some p =>
      rw [hr] at h
      cases hn : d.node p with
      | none => simp [hn] at h
      | some n =>
          cases n with
          | dir => simp [hn] at h
          | file b =>
              simp only [hn, Except.ok.injEq] at h
              exact contents_eq_some.mpr ⟨p, hr, h ▸ hn⟩

theorem mkdirAll_changesAt (h : d.mkdirAll p.dropLast = some d') : ChangesAt d d' p := by
  intro q _
  rcases Disk.mkdirAll_node h q with h | ⟨h1, h2, h3⟩
  · exact Or.inl h
  · exact Or.inr ⟨h1, h2, h3.trans (List.dropLast_prefix p)⟩

theorem writeFile_cases {a : Except FsError Unit} (h : writeFile name data d = (a, d')) :
    (d' = d ∧ ∃ e, a = .error e) ∨
    ∃ p, resolve name = some p ∧ ChangesAt d d' p ∧ (a = .ok () → d'.node p = some (.file data)) := by
  unfold writeFile at h
  cases hr : resolve name with
  | none =>
      simp only [hr, Prod.mk.injEq] at h
      exact Or.inl ⟨h.2.symm, _, h.1.symm⟩
  | some p =>
      rw [hr] at h
      cases hm : d.mkdirAll p.dropLast with
      | none =>
          simp only [hm, Prod.mk.injEq] at h
          exact Or.inl ⟨h.2.symm, _, h.1.symm⟩
      | some d1 =>
          right
          refine ⟨p, rfl, ?_⟩
          have hc := mkdirAll_changesAt hm
          by_cases hdir : d1.node p = some .dir
          · simp only [hm, hdir, Prod.mk.injEq] at h
            obtain ⟨rfl, rfl⟩ := h
            exact ⟨hc, by simp⟩
          · have hp0 : p ≠ [] := by
              rintro rfl
              exact hdir rfl
            have e : (Except.ok (), d1.insert p (.file data)) = (a, d') := by
              rw [← h]
              cases hn : d1.node p with
              | none => simp [hm, hn]
              | some n =>
                  cases n with
                  | dir => exact absurd hn hdir
                  | file b => simp [hm, hn]
            rw [Prod.mk.injEq] at e
            obtain ⟨rfl, rfl⟩ := e
            refine ⟨?_, fun _ => Disk.node_insert_self hp0⟩
            intro q hq
            rw [Disk.node_insert_ne hq]
            exact hc q hq

/-- A file has been moved from `p` to `q`. -/
structure Moved (d d' : Disk) (p q : Path) (data : Bytes) : Prop where
  target : d'.node q = some (.file data)
  source : p ≠ q → d'.node p = none
  frame : ∀ r, r ≠ p → r ≠ q → d'.node r = d.node r

theorem rename_cases {a : Except FsError Unit} (h : rename oldname newname d = (a, d'))
    (hp : resolve oldname = some p) (hq : resolve newname = some q)
    (hfile : d.node p = some (.file data)) :
    (d' = d ∧ ∃ e, a = .error e) ∨ Moved d d' p q data := by
  have hp0 : p ≠ [] := by
    rintro rfl
    simp at hfile
  simp only [rename, hp, hq, renamePath, hfile] at h
  cases hparent : d.node q.dropLast with
  | none =>
      simp only [hparent, Prod.mk.injEq] at h
      exact Or.inl ⟨h.2.symm, _, h.1.symm⟩
  | some n =>
      cases n with
      | file b =>
          simp only [hparent, Prod.mk.injEq] at h
          exact Or.inl ⟨h.2.symm, _, h.1.symm⟩
      | dir =>
          by_cases hdir : d.node q = some .dir
          · simp only [hparent, hdir, Prod.mk.injEq] at h
            exact Or.inl ⟨h.2.symm, _, h.1.symm⟩
          · right
            have hq0 : q ≠ [] := by
              rintro rfl
              exact hdir rfl
            have e : (Except.ok (), (d.erase p).insert q (.file data)) = (a, d') := by
              rw [← h]
              cases hn : d.node q with
              | none => simp [hparent]
              | some n =>
                  cases n with
                  | dir => exact absurd hn hdir
                  | file b => simp [hparent]
            rw [Prod.mk.injEq] at e
            obtain ⟨rfl, rfl⟩ := e
            refine ⟨Disk.node_insert_self hq0, ?_, ?_⟩
            · intro hpq
              rw [Disk.node_insert_ne hpq, Disk.node_erase_self hp0]
            · intro r hrp hrq
              rw [Disk.node_insert_ne hrq, Disk.node_erase_ne hrp]

theorem remove_cases {a : Except FsError Unit} (h : remove name d = (a, d')) :
    (d' = d ∧ ∃ e, a = .error e) ∨
    ∃ p, resolve name = some p ∧ d'.node p = none ∧ ∀ q, q ≠ p → d'.node q = d.node q := by
  unfold remove at h
  cases hr : resolve name with
  | none =>
      simp only [hr, Prod.mk.injEq] at h
      exact Or.inl ⟨h.2.symm, _, h.1.symm⟩
  | some p =>
      rw [hr] at h
      cases hn : d.node p with
      | none =>
          simp only [hn, Prod.mk.injEq] at h
          exact Or.inl ⟨h.2.symm, _, h.1.symm⟩
      | some n =>
          cases n with
          | file b =>
              have hp0 : p ≠ [] := by
                rintro rfl
                simp at hn
              simp only [hn, Prod.mk.injEq] at h
              obtain ⟨rfl, rfl⟩ := h
              exact Or.inr ⟨p, rfl, Disk.node_erase_self hp0, fun q hq => Disk.node_erase_ne hq⟩
          | dir =>
              simp only [hn] at h
              split_ifs at h with hc
              · rw [Prod.mk.injEq] at h
                obtain ⟨rfl, rfl⟩ := h
                exact Or.inr ⟨p, rfl, Disk.node_erase_self hc.1, fun q hq => Disk.node_erase_ne hq⟩
              · rw [Prod.mk.injEq] at h
                exact Or.inl ⟨h.2.symm, _, h.1.symm⟩

theorem mem_children {f : Name} {n : Node} :
    (f, n) ∈ d.children p ↔ d.lookup (p ++ [f]) = some n := by
  unfold Disk.children
  rw [List.mem_filterMap, ← Option.mem_def, AList.mem_lookup_iff]
  constructor
  · rintro ⟨⟨q, m⟩, he, h⟩
    cases hl : q.getLast? with
    | none => simp [hl] at h
    | some g =>
        simp only [hl, Option.ite_none_right_eq_some, Option.some.injEq, Prod.mk.injEq] at h
        obtain ⟨rfl, rfl, rfl⟩ := h
        rwa [List.dropLast_append_getLast? g hl]
  · intro h
    exact ⟨⟨p ++ [f], n⟩, h, by simp⟩

/-- A listing holds only regular files of the directory. -/
theorem readDir_eq_ok {names : List Bytes} (h : readDir name d = .ok names) :
    ∃ p, resolve name = some p ∧
      ∀ n ∈ names, ∃ f : Name, f.1 = n ∧ ∃ data, d.node (p ++ [f]) = some (.file data) := by
  unfold readDir at h
  cases hr : resolve name with
  | none => simp [hr] at h
  | some p =>
      refine ⟨p, rfl, ?_⟩
      rw [hr] at h
      cases hn : d.node p with
      | none =>
          cases hm : d.missing p with
          | other => simp [hn, hm] at h
          | notExist =>
              simp only [hn, hm, Except.ok.injEq] at h
              subst h
              simp
      | some m =>
          cases m with
          | file b => simp [hn] at h
          | dir =>
              simp only [hn, Except.ok.injEq] at h
              subst h
              intro n hmem
              rw [Bytes.mem_sortBy, List.mem_map] at hmem
              obtain ⟨⟨f, m⟩, he, rfl⟩ := hmem
              obtain ⟨hchild, hfile⟩ := List.mem_filter.mp he
              cases m with
              | dir => simp at hfile
              | file data =>
                  refine ⟨f, rfl, data, ?_⟩
                  rw [Disk.node, if_neg (by simp)]
                  exact mem_children.mp hchild

end operations

/-! ### What a step can change -/

namespace FsStep
variable {d d' : Disk} {name oldname newname data : Bytes} {p q : Path}

theorem readFile_cases {a : Except FsError Bytes} (h : FsStep (.readFile name) d a d') :
    d' = d ∧ ∀ cur, a = .ok cur → d.contents name = some cur := by
  cases h with
  | readFile _ _ e => exact ⟨rfl, by simp⟩
  | ok => exact ⟨rfl, fun cur hcur => readFile_eq_ok hcur⟩

theorem writeFile_cases {a : Except FsError Unit} (h : FsStep (.writeFile name data) d a d') :
    (d' = d ∧ ∃ e, a = .error e) ∨
    ∃ p, resolve name = some p ∧ ChangesAt d d' p ∧ (a = .ok () → d'.node p = some (.file data)) := by
  cases h with
  | writeFileNot _ _ _ e => exact Or.inl ⟨rfl, e, rfl⟩
  | writeFile _ _ _ _ e p hp hc hat => exact Or.inr ⟨p, hp, hc, by simp⟩
  | ok => exact Operator.writeFile_cases rfl

theorem rename_cases {a : Except FsError Unit} (h : FsStep (.rename oldname newname) d a d')
    (hp : resolve oldname = some p) (hq : resolve newname = some q)
    (hfile : d.node p = some (.file data)) :
    (d' = d ∧ ∃ e, a = .error e) ∨ Moved d d' p q data := by
  cases h with
  | ok => exact Operator.rename_cases rfl hp hq hfile
  | rename _ _ _ _ e hd =>
      rcases hd with rfl | rfl
      · exact Or.inl ⟨rfl, e, rfl⟩
      · have hex : Operator.rename oldname newname d = (_, (exec (.rename oldname newname) d).2) := rfl
        rcases Operator.rename_cases hex hp hq hfile with ⟨hd, -⟩ | hm
        · exact Or.inl ⟨hd, e, rfl⟩
        · exact Or.inr hm

theorem remove_cases {a : Except FsError Unit} (h : FsStep (.remove name) d a d') :
    (d' = d ∧ ∃ e, a = .error e) ∨
    ∃ p, resolve name = some p ∧ d'.node p = none ∧ ∀ q, q ≠ p → d'.node q = d.node q := by
  cases h with
  | ok => exact Operator.remove_cases rfl
  | remove _ _ _ e hd =>
      rcases hd with rfl | rfl
      · exact Or.inl ⟨rfl, e, rfl⟩
      · have hex : Operator.remove name d = (_, (exec (.remove name) d).2) := rfl
        rcases Operator.remove_cases hex with ⟨hd, -⟩ | hm
        · exact Or.inl ⟨hd, e, rfl⟩
        · exact Or.inr hm

theorem readDir_cases {a : Except FsError (List Bytes)} (h : FsStep (.readDir name) d a d') :
    d' = d ∧ ∀ names, a = .ok names → ∃ p, resolve name = some p ∧
      ∀ n ∈ names, ∃ f : Name, f.1 = n ∧ ∃ data, d.node (p ++ [f]) = some (.file data) := by
  cases h with
  | readDir _ _ e => exact ⟨rfl, by simp⟩
  | ok => exact ⟨rfl, fun names hn => readDir_eq_ok hn⟩

end FsStep

end McGateway.Operator
