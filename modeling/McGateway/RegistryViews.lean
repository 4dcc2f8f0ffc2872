import McGateway.Rescans

/-! # The four views of the registry (`Registries`)

Configuration checks ask `has`, dispatch asks `apply`, the read path asks `required_flags`, and the
diagnostic listing asks `names`; each walks the built-ins and the table of modules on its own.  Over
any built-ins and any history of rescans the four agree, and a built-in is never shadowed
(`registry_views_agree`). -/

namespace McGateway.Core

open Bytes (ascii validUtf8 sortBy)

namespace Registries

/-! ### The views -/

def new (builtins : ByteMap Merge) : Registries := ⟨builtins, ∅⟩

/-- One round of the loop of `names`. -/
def pushName (out : List Bytes) (k : Bytes) : List Bytes := if out.any (· == k) then out else out ++ [k]

/-- The keys of a map come in their order, here and in the source. -/
def names (r : Registries) : List Bytes :=
  sortBy id ((sortBy id r.wasm.keys).foldl pushName (sortBy id r.builtins.keys))

def rescans (builtins : ByteMap Merge) (history : List (Option Scan)) : Registries :=
  history.foldl rescanInto (new builtins)

/-! ### Names -/

theorem foldl_pushName : ∀ (ks out : List Bytes), out.Nodup →
    (ks.foldl pushName out).Nodup ∧ ∀ n, n ∈ ks.foldl pushName out ↔ n ∈ out ∨ n ∈ ks
  | [], out, hout => ⟨hout, fun n => by simp⟩
  | k :: ks, out, hout => by
      have hpush : (pushName out k).Nodup ∧ ∀ n, n ∈ pushName out k ↔ n ∈ out ∨ n = k := by
        unfold pushName
        split_ifs with hany
        · have hmem : k ∈ out := by simpa using hany
          refine ⟨hout, fun n => ⟨Or.inl, ?_⟩⟩
          intro h
          obtain h | rfl := h
          · exact h
          · exact hmem
        · have hmem : k ∉ out := by simpa using hany
          refine ⟨?_, by simp⟩
          rw [List.nodup_append]
          refine ⟨hout, List.nodup_singleton k, ?_⟩
          intro a ha c hc
          rw [List.mem_singleton.mp hc]
          rintro rfl
          exact hmem ha
      obtain ⟨hnodup, hmem⟩ := foldl_pushName ks (pushName out k) hpush.1
      refine ⟨hnodup, ?_⟩
      intro n
      rw [List.foldl_cons, hmem, hpush.2, List.mem_cons, or_assoc]

theorem nodup_sortBy_keys (m : ByteMap Merge) : (sortBy id m.keys).Nodup :=
  ((Bytes.sortBy_perm id m.keys).nodup_iff).mpr m.nodupKeys

theorem mem_names (r : Registries) (n : Bytes) :
    n ∈ r.names ↔ (r.builtins.lookup n).isSome ∨ (r.wasm.lookup n).isSome := by
  unfold names
  rw [Bytes.mem_sortBy, (foldl_pushName _ _ (nodup_sortBy_keys _)).2, Bytes.mem_sortBy, Bytes.mem_sortBy,
    ← AList.mem_keys, ← AList.mem_keys, AList.lookup_isSome, AList.lookup_isSome]

theorem names_pairwise_lt (r : Registries) : r.names.Pairwise (· < ·) := by
  refine @Bytes.sortBy_pairwise_lt _ id _ ?_
  rw [List.map_id]
  exact (foldl_pushName _ _ (nodup_sortBy_keys _)).1

/-! ### Histories -/

/-- The last scan of a history that could list the directory. -/
def lastScan (history : List (Option Scan)) : Option Scan := (history.filterMap id).getLast?

theorem foldl_rescanInto : ∀ (history : List (Option Scan)) (r : Registries),
    (history.foldl rescanInto r).builtins = r.builtins ∧
      (history.foldl rescanInto r).wasm = ((lastScan history).map r.scanDir).getD r.wasm
  | [], r => ⟨rfl, rfl⟩
  | none :: history, r => foldl_rescanInto history r
  | some s :: history, r => by
      obtain ⟨hbuiltins, hwasm⟩ := foldl_rescanInto history (r.swapWasm (r.scanDir s))
      refine ⟨hbuiltins, hwasm.trans ?_⟩
      have hlast : lastScan (some s :: history) = some ((lastScan history).getD s) :=
        List.getLast?_cons
      rw [hlast]
      cases lastScan history with
      | none => rfl
      | some s' => rfl

/-- What the history has registered beside the built-ins. -/
theorem lookup_rescans (builtins : ByteMap Merge) (history : List (Option Scan)) (n : Bytes) :
    (rescans builtins history).wasm.lookup n = (lastScan history).bind fun s => (new builtins).register s n := by
  unfold rescans
  rw [(foldl_rescanInto history (new builtins)).2]
  cases lastScan history with
  | none => rfl
  | some s => exact lookup_scanDir (new builtins) s n

/-- A scan registers a name that is not a built-in from a readable file of that name that loads. -/
theorem isSome_register {r : Registries} {s : Scan} {n : Bytes} (hn : r.builtins.lookup n = none) :
    (r.register s n).isSome ↔ ∃ file w, s.dir.lookup file = some (some w) ∧ wasmStem file = some n ∧
      validUtf8 n = true ∧ (s.load n w).isSome := by
  unfold register
  constructor
  · intro h
    split_ifs at h with hname
    · obtain ⟨m, hm⟩ := Option.isSome_iff_exists.mp h
      obtain ⟨w, hw, hload⟩ := Option.bind_eq_some_iff.mp hm
      have hstem : wasmStem (moduleFile n) = some n := wasmStem_eq_some.mpr ⟨hname.1, rfl⟩
      exact ⟨moduleFile n, w, Option.join_eq_some_iff.mp hw, hstem, hname.2.1, by rw [hload]; rfl⟩
    · exact absurd h (by simp)
  · intro h
    obtain ⟨file, w, hfile, hstem, hutf8, hload⟩ := h
    obtain ⟨hne, rfl⟩ := wasmStem_eq_some.mp hstem
    have hdir : s.dir.lookup (moduleFile n) = some (some w) := hfile
    rw [if_pos ⟨hne, hutf8, hn⟩, hdir]
    exact hload

/-- After any rescans over any built-ins: the four views agree, the listing is strictly increasing,
a built-in is never shadowed, and any other name is registered exactly if the last scan that could
list the directory saw a file of that name that loaded. -/
theorem registry_views_agree (builtins : ByteMap Merge) (history : List (Option Scan)) (n : Bytes) :
    (∀ entries, ((rescans builtins history).apply n entries).isSome ↔ (rescans builtins history).has n = true) ∧
    (((rescans builtins history).requiredFlags n).isSome ↔ (rescans builtins history).has n = true) ∧
    (n ∈ (rescans builtins history).names ↔ (rescans builtins history).has n = true) ∧
    (rescans builtins history).names.Pairwise (· < ·) ∧
    (∀ m, builtins.lookup n = some m →
      (∀ entries, (rescans builtins history).apply n entries = some (m.apply entries)) ∧
      (rescans builtins history).requiredFlags n = some m.requiredFlags) ∧
    (builtins.lookup n = none →
      ((rescans builtins history).has n = true ↔
        ∃ s, lastScan history = some s ∧ ∃ file w, s.dir.lookup file = some (some w) ∧
          wasmStem file = some n ∧ validUtf8 n = true ∧ (s.load n w).isSome)) := by
  have hbuiltins : (rescans builtins history).builtins = builtins := (foldl_rescanInto history (new builtins)).1
  refine ⟨?_, ?_, ?_, names_pairwise_lt _, ?_, ?_⟩
  · intro entries
    rw [isSome_apply]
  · rw [isSome_requiredFlags]
  · rw [mem_names, has_eq_true]
  · intro m hm
    unfold apply requiredFlags
    rw [hbuiltins, hm]
    exact ⟨fun _ => rfl, rfl⟩
  · intro hn
    rw [has_eq_true, hbuiltins, hn, lookup_rescans]
    cases lastScan history with
    | none => simp
    | some s => simp [isSome_register (r := new builtins) hn]

end Registries

end McGateway.Core
