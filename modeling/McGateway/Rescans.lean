import McGateway.Registry

/-! # Histories of rescans (`rescan_into`)

Every rescan builds a new table from the directory as it is at that time.  A scan may find files
that cannot be read, and the loader may refuse or accept the same bytes at different times, so each
`Scan` brings its own loader; when the directory cannot be listed at all the previous table stays.

`retains_iff` says when a history keeps the modules it has registered: exactly when no file that
loaded at one scan is still there at the next one and does not load. -/

namespace McGateway.Core

open Bytes (ascii validUtf8)

/-! ### Scans -/

/-- The directory as a rescan finds it: the entries, each with its bytes unless it cannot be read,
and what the loader makes of them at that time. -/
structure Scan where
  dir : ByteMap (Option Bytes)
  load : Bytes → Bytes → Option Merge

/-- The file of the module `n`. -/
def moduleFile (n : Bytes) : Bytes := n ++ ascii ".wasm"

theorem Registries.lookup_foldl_scanStep (r : Registries) (load : Bytes → Bytes → Option Merge)
    (content : Bytes → Option Bytes) (n : Bytes) : ∀ (files : List Bytes) (out : WasmTable),
    (files.foldl (fun out file => r.scanStep load out file (content file)) out).lookup n =
      if (n ≠ [] ∧ validUtf8 n = true ∧ r.builtins.lookup n = none) ∧ moduleFile n ∈ files then
        ((content (moduleFile n)).bind (load n)).or (out.lookup n)
      else out.lookup n
  | [], out => by simp
  | file :: files, out => by
      rw [List.foldl_cons, Registries.lookup_foldl_scanStep r load content n files, Registries.lookup_scanStep]
      by_cases hname : n ≠ [] ∧ validUtf8 n = true ∧ r.builtins.lookup n = none
      · have hstem : (wasmStem file = some n ∧ validUtf8 n = true ∧ r.builtins.lookup n = none) ↔
            moduleFile n = file := by
          rw [wasmStem_eq_some]
          constructor
          · intro h
            exact h.1.2.symm
          · intro h
            exact ⟨⟨hname.1, h.symm⟩, hname.2⟩
        by_cases hf : moduleFile n = file
        · subst hf
          have hmem : moduleFile n ∈ moduleFile n :: files := List.mem_cons_self
          rw [if_pos (hstem.mpr rfl), if_pos (And.intro hname hmem)]
          -- a file visited twice would register the same merge
          cases (content (moduleFile n)).bind (load n) <;> simp
        · rw [if_neg fun h => hf (hstem.mp h)]
          simp only [List.mem_cons, hf, false_or]
      · have hstem : ¬(wasmStem file = some n ∧ validUtf8 n = true ∧ r.builtins.lookup n = none) := by
          rw [wasmStem_eq_some]
          intro h
          exact hname ⟨h.1.1, h.2⟩
        simp only [hname, hstem, false_and, if_false]

/-- `scan_dir`. -/
def Registries.scanDir (r : Registries) (s : Scan) : WasmTable :=
  s.dir.keys.foldl (fun out file => r.scanStep s.load out file (s.dir.lookup file).join) ∅

/-- What the file of the module `n` registers. -/
def Registries.register (r : Registries) (s : Scan) (n : Bytes) : Option Merge :=
  if n ≠ [] ∧ validUtf8 n = true ∧ r.builtins.lookup n = none then
    (s.dir.lookup (moduleFile n)).join.bind (s.load n)
  else none

theorem Registries.lookup_scanDir (r : Registries) (s : Scan) (n : Bytes) :
    (r.scanDir s).lookup n = r.register s n := by
  unfold Registries.scanDir Registries.register
  rw [Registries.lookup_foldl_scanStep]
  by_cases hname : n ≠ [] ∧ validUtf8 n = true ∧ r.builtins.lookup n = none
  · by_cases hmem : moduleFile n ∈ s.dir.keys
    · rw [if_pos ⟨hname, hmem⟩, if_pos hname]
      simp
    · have hnone : s.dir.lookup (moduleFile n) = none :=
        AList.lookup_eq_none.mpr fun h => hmem (AList.mem_keys.mp h)
      rw [if_neg fun h => hmem h.2, if_pos hname, hnone]
      rfl
  · rw [if_neg fun h => hname h.1, if_neg hname]
    rfl

/-- `rescan_into`; `none` is a directory that cannot be listed. -/
def Registries.rescanInto (r : Registries) : Option Scan → Registries
  | none => r
  | some s => r.swapWasm (r.scanDir s)

/-! ### The scans of the gateway -/

def Scan.table (s : Scan) : WasmTable := shipped.scanDir s

def Scan.register (s : Scan) (n : Bytes) : Option Merge := shipped.register s n

/-- The table after a rescan. -/
def rescanInto (table : WasmTable) (pass : Option Scan) : WasmTable := ((shippedWith table).rescanInto pass).wasm

@[simp] theorem rescanInto_none (table : WasmTable) : rescanInto table none = table := rfl

theorem Scan.lookup_table (s : Scan) (n : Bytes) : s.table.lookup n = s.register n := shipped.lookup_scanDir s n

/-! ### Histories -/

/-- A rescan keeps the modules: one whose file is there but does not load stays as it was, and one
that leaves the table has no file any more. -/
structure Kept (table : WasmTable) (s : Scan) : Prop where
  broken : ∀ n m, table.lookup n = some m → moduleFile n ∈ s.dir → s.register n = none →
    (rescanInto table (some s)).lookup n = some m
  gone : ∀ n m, table.lookup n = some m → (rescanInto table (some s)).lookup n = none →
    moduleFile n ∉ s.dir

/-- Every rescan of the history keeps the modules. -/
def RetainsFrom (table : WasmTable) : List (Option Scan) → Prop
  | [] => True
  | pass :: rest => (∀ s, pass = some s → Kept table s) ∧ RetainsFrom (rescanInto table pass) rest

def Retains (history : List (Option Scan)) : Prop := RetainsFrom ∅ history

/-- No file that loaded at the last scan is there and does not load at the next one. -/
def NeverBreaks (last : Option Scan) : List (Option Scan) → Prop
  | [] => True
  | none :: rest => NeverBreaks last rest
  | some s :: rest =>
      (∀ n, (last.bind fun l => l.register n).isSome → moduleFile n ∈ s.dir → (s.register n).isSome) ∧
        NeverBreaks (some s) rest

theorem kept_iff {table : WasmTable} {s : Scan} :
    Kept table s ↔ ∀ n, (table.lookup n).isSome → moduleFile n ∈ s.dir → (s.register n).isSome := by
  constructor
  · intro h n hn hfile
    obtain ⟨m, hm⟩ := Option.isSome_iff_exists.mp hn
    cases hr : s.register n with
    | some m' => rfl
    | none =>
        have hkeep : s.table.lookup n = some m := h.broken n m hm hfile hr
        rw [s.lookup_table, hr] at hkeep
        cases hkeep
  · intro h
    constructor
    · intro n m hm hfile hr
      have hsome := h n (by rw [hm]; rfl) hfile
      rw [hr] at hsome
      cases hsome
    · intro n m hm hnone hfile
      have hsome := h n (by rw [hm]; rfl) hfile
      rw [← s.lookup_table] at hsome
      rw [show s.table.lookup n = none from hnone] at hsome
      cases hsome

theorem retainsFrom_iff : ∀ (history : List (Option Scan)) {table : WasmTable} {last : Option Scan},
    (∀ n, table.lookup n = last.bind fun l => l.register n) →
    (RetainsFrom table history ↔ NeverBreaks last history)
  | [], _, _, _ => Iff.rfl
  | none :: rest, table, last, h => by
      have hrest := retainsFrom_iff rest h
      unfold RetainsFrom NeverBreaks
      rw [← hrest]
      simp
  | some s :: rest, table, last, h => by
      have hrest := @retainsFrom_iff rest s.table (some s) s.lookup_table
      unfold RetainsFrom NeverBreaks
      rw [← hrest]
      simp only [Option.some.injEq, forall_eq', kept_iff, h]
      rfl

/-- A history of rescans keeps the modules it has registered exactly when no file that loaded at
one scan is still there at the next and does not load. -/
theorem retains_iff (history : List (Option Scan)) : Retains history ↔ NeverBreaks none history :=
  retainsFrom_iff history fun _ => rfl

/-! ### A broken update -/

/-- A loader that refuses the empty file. -/
def refusesEmpty (_ w : Bytes) : Option Merge := if w = [] then none else some firstHit

/-- The directory with one readable file. -/
def oneModule (w : Bytes) : Scan := ⟨AList.singleton (ascii "m.wasm") (some w), refusesEmpty⟩

/-- The module `m` loads, and then its file is replaced by an empty one. -/
theorem not_retains_broken_update : ¬Retains [some (oneModule [1]), some (oneModule [])] := by
  unfold Retains
  rw [@retainsFrom_iff _ ∅ none fun _ => rfl]
  intro h
  have := h.2.1 (ascii "m") (by decide +kernel) (by decide +kernel)
  revert this
  decide +kernel

end McGateway.Core
