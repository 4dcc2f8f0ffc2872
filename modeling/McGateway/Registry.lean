import McGateway.Merges
import McGateway.Render

/-! # The merge registry (`registries.rs`, `udf_loader.rs`)

Merges are looked up by name: the built-ins first, then the table of modules loaded from the UDF
directory.  A scan of the directory builds a new table, one file at a time; `load` stands for
`load_module` (compile, check the interface, instantiate) and may refuse any bytes.

`Registries` has any built-ins, as in the source.  The lookups and the scan of the gateway are those
of `shipped`, the registry with the three built-ins that `register` puts there. -/

namespace McGateway.Core

open Bytes (ascii hasSuffix validUtf8)

abbrev WasmTable := ByteMap Merge

/-- `Registries`: the built-ins, and the table that is swapped. -/
structure Registries where
  builtins : ByteMap Merge
  wasm : WasmTable

/-! ### Lookup -/

namespace Registries

def swapWasm (r : Registries) (table : WasmTable) : Registries := { r with wasm := table }

def has (r : Registries) (name : Bytes) : Bool :=
  if (r.builtins.lookup name).isSome then true else (r.wasm.lookup name).isSome

def apply (r : Registries) (name : Bytes) (entries : List Entry) : Option MergeResult :=
  match r.builtins.lookup name with
  | some m => some (m.apply entries)
  | none => (r.wasm.lookup name).map fun m => m.apply entries

def requiredFlags (r : Registries) (name : Bytes) : Option Bytes :=
  match r.builtins.lookup name with
  | some m => some m.requiredFlags
  | none => (r.wasm.lookup name).map Merge.requiredFlags

section
variable (r : Registries) (n : Bytes)

theorem has_eq_true : r.has n = true ↔ (r.builtins.lookup n).isSome ∨ (r.wasm.lookup n).isSome := by
  unfold has
  split_ifs with h
  · simp [h]
  · simp [h]

theorem isSome_apply (entries : List Entry) : (r.apply n entries).isSome = r.has n := by
  unfold apply has
  cases r.builtins.lookup n with
  | some m => rfl
  | none => simp

theorem isSome_requiredFlags : (r.requiredFlags n).isSome = r.has n := by
  unfold requiredFlags has
  cases r.builtins.lookup n with
  | some m => rfl
  | none => simp

end

end Registries

/-! ### Scanning -/

/-- The file stem of a name with extension `wasm`.  A name that consists of the extension alone
has none. -/
def wasmStem (file : Bytes) : Option Bytes :=
  if hasSuffix file (ascii ".wasm") && file != ascii ".wasm" then some (file.take (file.length - 5))
  else none

inductive UdfProblem where
  | invalidName
  | builtinCollision
  | loadFailed
deriving DecidableEq, Repr

section scan
variable (load : Bytes → Bytes → Option Merge)

namespace Registries

/-- One round of the loop of `scan_dir`: the entry for a directory entry with this content
(`none`: it cannot be read). -/
def scanEntry (r : Registries) (file : Bytes) (content : Option Bytes) :
    Option (Bytes × Except UdfProblem Merge) :=
  match wasmStem file with
  | none => none
  | some name =>
      if !validUtf8 name then some (name, .error .invalidName)
      else if (r.builtins.lookup name).isSome then some (name, .error .builtinCollision)
      else match content.bind (load name) with
        | some m => some (name, .ok m)
        | none => some (name, .error .loadFailed)

/-- The table after a directory entry has been visited. -/
def scanStep (r : Registries) (out : WasmTable) (file : Bytes) (content : Option Bytes) : WasmTable :=
  match r.scanEntry load file content with
  | some (name, .ok m) => out.insert name m
  | _ => out

end Registries

/-! ### The registry of the gateway -/

def builtin (name : Bytes) : Option Merge := builtins.lookup name

/-- The registry that the gateway starts with, after `register`. -/
def shipped : Registries where
  builtins := (((∅ : ByteMap Merge).insert (ascii "first-hit") firstHit).insert (ascii "pool-preferred")
    poolPreferred).insert (ascii "last-write-wins") lastWriteWins
  wasm := ∅

/-- The registry of the gateway with the given table. -/
def shippedWith (table : WasmTable) : Registries := shipped.swapWasm table

/-- `Registries::apply`. -/
def applyMerge (table : WasmTable) (name : Bytes) (entries : List Entry) : Option MergeResult :=
  (shippedWith table).apply name entries

/-- `Registries::required_flags`. -/
def requiredFlags (table : WasmTable) (name : Bytes) : Option Bytes := (shippedWith table).requiredFlags name

/-- The export `required_flags`: a name that is not UTF-8 is refused. -/
def nativeRequiredFlags (table : WasmTable) (name : Bytes) : Option Bytes :=
  if validUtf8 name then requiredFlags table name else none

def scanStep (out : WasmTable) (file : Bytes) (content : Option Bytes) : WasmTable :=
  shipped.scanStep load out file content

/-- `scan_dir` on a directory that does not change meanwhile. -/
def scanDir (dir : ByteMap Bytes) : WasmTable :=
  dir.keys.foldl (fun out file => scanStep load out file (dir.lookup file)) ∅

/-- What a scan should register under a name. -/
def scanned (dir : ByteMap Bytes) (name : Bytes) : Option Merge :=
  if name ≠ [] ∧ validUtf8 name = true ∧ builtin name = none then
    (dir.lookup (name ++ ascii ".wasm")).bind (load name)
  else none

theorem lookup_shipped (n : Bytes) : shipped.builtins.lookup n = builtin n := by
  unfold shipped builtin builtins
  by_cases h₁ : n = ascii "first-hit"
  · subst h₁
    rfl
  by_cases h₂ : n = ascii "pool-preferred"
  · subst h₂
    rfl
  by_cases h₃ : n = ascii "last-write-wins"
  · subst h₃
    rfl
  rw [AList.lookup_insert_ne h₃, AList.lookup_insert_ne h₂, AList.lookup_insert_ne h₁]
  simp [List.lookup, beq_false_of_ne h₁, beq_false_of_ne h₂, beq_false_of_ne h₃]

theorem lookup_shippedWith (table : WasmTable) (n : Bytes) :
    (shippedWith table).builtins.lookup n = builtin n := lookup_shipped n

theorem shippedWith_has (table : WasmTable) (n : Bytes) :
    (shippedWith table).has n = true ↔ (builtin n).isSome ∨ n ∈ table := by
  rw [Registries.has_eq_true, lookup_shippedWith, ← AList.lookup_isSome]
  rfl

theorem isSome_applyMerge (table : WasmTable) (n : Bytes) (es : List Entry) :
    (applyMerge table n es).isSome ↔ (builtin n).isSome ∨ n ∈ table := by
  rw [applyMerge, Registries.isSome_apply, shippedWith_has]

theorem isSome_nativeRequiredFlags (table : WasmTable) (n : Bytes) :
    (nativeRequiredFlags table n).isSome ↔ validUtf8 n = true ∧ ((builtin n).isSome ∨ n ∈ table) := by
  unfold nativeRequiredFlags requiredFlags
  split_ifs with h
  · rw [Registries.isSome_requiredFlags, shippedWith_has]
    exact ⟨fun hn => ⟨h, hn⟩, fun hn => hn.2⟩
  · simp [h]

theorem nativeRequiredFlags_congr {t t' : WasmTable} (h : ∀ n, t.lookup n = t'.lookup n) :
    nativeRequiredFlags t = nativeRequiredFlags t' := by
  funext n
  simp only [nativeRequiredFlags, requiredFlags, Registries.requiredFlags, lookup_shippedWith]
  rw [show (shippedWith t).wasm.lookup n = (shippedWith t').wasm.lookup n from h n]

/-! ### What a scan registers -/

theorem wasmStem_eq_some {file name : Bytes} :
    wasmStem file = some name ↔ name ≠ [] ∧ file = name ++ ascii ".wasm" := by
  unfold wasmStem
  constructor
  · intro h
    split_ifs at h with hc
    simp only [Bool.and_eq_true, bne_iff_ne, ne_eq] at hc
    obtain ⟨r, hr⟩ := Bytes.hasSuffix_iff.mp hc.1
    have htake : file.take (file.length - 5) = r := by
      rw [hr]
      simp [ascii]
    rw [Option.some.injEq, htake] at h
    subst h
    refine ⟨?_, hr⟩
    rintro rfl
    exact hc.2 hr
  · rintro ⟨hne, rfl⟩
    have hc : (name ++ ascii ".wasm").hasSuffix (ascii ".wasm") && (name ++ ascii ".wasm" != ascii ".wasm") := by
      simp [hne]
    rw [if_pos hc]
    simp [ascii]

/-- A visited file registers under its stem, and only there. -/
theorem Registries.lookup_scanStep (r : Registries) (out : WasmTable) (file : Bytes)
    (content : Option Bytes) (n : Bytes) :
    (r.scanStep load out file content).lookup n =
      if wasmStem file = some n ∧ validUtf8 n = true ∧ r.builtins.lookup n = none then
        (content.bind (load n)).or (out.lookup n)
      else out.lookup n := by
  unfold Registries.scanStep Registries.scanEntry
  cases hs : wasmStem file with
  | none => simp
  | some name =>
      by_cases hn : name = n
      · subst hn
        by_cases hu : validUtf8 name = true
        · cases hb : r.builtins.lookup name with
          | some m => simp [hu, hb]
          | none =>
              cases hl : content.bind (load name) with
              | none => simp [hu, hb, hl]
              | some m => simp [hu, hb, hl]
        · simp [hu]
      · have hne : ¬ (some name = some n ∧ validUtf8 n = true ∧ r.builtins.lookup n = none) := by
          simp [hn]
        rw [if_neg hne]
        by_cases hu : validUtf8 name = true
        · cases hb : r.builtins.lookup name with
          | some m => simp [hu, hb]
          | none =>
              cases hl : content.bind (load name) with
              | none => simp [hu, hb, hl]
              | some m => simp [hu, hb, hl, AList.lookup_insert_ne (Ne.symm hn)]
        · simp [hu]

theorem lookup_scanStep (out : WasmTable) (file : Bytes) (content : Option Bytes) (n : Bytes) :
    (scanStep load out file content).lookup n =
      if wasmStem file = some n ∧ validUtf8 n = true ∧ builtin n = none then
        (content.bind (load n)).or (out.lookup n)
      else out.lookup n := by
  rw [scanStep, Registries.lookup_scanStep, lookup_shipped]

/-- The state of a scan of `dir` with the files `todo` left to visit. -/
def ScanInv (dir : ByteMap Bytes) (todo : List Bytes) (out : WasmTable) : Prop :=
  ∀ n, out.lookup n = scanned load dir n ∨ (n ++ ascii ".wasm" ∈ todo ∧ out.lookup n = none)

variable {load}

theorem ScanInv.init {dir : ByteMap Bytes} {todo : List Bytes} (h : ∀ file ∈ dir, file ∈ todo) :
    ScanInv load dir todo ∅ := by
  intro n
  cases hl : dir.lookup (n ++ ascii ".wasm") with
  | none =>
      left
      simp [scanned, hl]
  | some b => exact Or.inr ⟨h _ (AList.lookup_isSome.mp (by rw [hl]; rfl)), rfl⟩

theorem ScanInv.step {dir : ByteMap Bytes} {file : Bytes} {todo : List Bytes} {out : WasmTable}
    (h : ScanInv load dir (file :: todo) out) :
    ScanInv load dir todo (scanStep load out file (dir.lookup file)) := by
  intro n
  rw [lookup_scanStep]
  split_ifs with hc
  · obtain ⟨hs, hu, hb⟩ := hc
    obtain ⟨hne, rfl⟩ := wasmStem_eq_some.mp hs
    have hscan : scanned load dir n = (dir.lookup (n ++ ascii ".wasm")).bind (load n) :=
      if_pos ⟨hne, hu, hb⟩
    left
    rcases h n with hn | ⟨-, hn⟩
    · rw [hn, ← hscan, Option.or_self]
    · rw [hn, ← hscan, Option.or_none]
  · rcases h n with hn | ⟨hmem, hn⟩
    · exact Or.inl hn
    · rcases List.mem_cons.mp hmem with hfile | hmem
      · left
        rw [hn]
        symm
        apply if_neg
        rintro ⟨hne, hu, hb⟩
        exact hc ⟨wasmStem_eq_some.mpr ⟨hne, hfile.symm⟩, hu, hb⟩
      · exact Or.inr ⟨hmem, hn⟩

theorem ScanInv.done {dir : ByteMap Bytes} {out : WasmTable} (h : ScanInv load dir [] out) (n : Bytes) :
    out.lookup n = scanned load dir n := by
  rcases h n with hn | ⟨hmem, -⟩
  · exact hn
  · cases hmem

theorem ScanInv.foldl {dir : ByteMap Bytes} : ∀ (todo : List Bytes) (out : WasmTable),
    ScanInv load dir todo out →
    ScanInv load dir [] (todo.foldl (fun out file => scanStep load out file (dir.lookup file)) out)
  | [], _, h => h
  | _ :: todo, _, h => ScanInv.foldl todo _ h.step

theorem lookup_scanDir (dir : ByteMap Bytes) (n : Bytes) :
    (scanDir load dir).lookup n = scanned load dir n :=
  (ScanInv.foldl dir.keys ∅ (ScanInv.init fun _ h => AList.mem_keys.mp h)).done n

end scan

end McGateway.Core
