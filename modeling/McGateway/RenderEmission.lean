import McGateway.RenderValidation
import McGateway.Selections

/-! # Every healthy resource is emitted

Which resources reach the tree, without the loops: the pools that pass their own checks; for every
inlined module the bytes of the first keyspace by name; for every prefix the admissible keyspace of
least name.  A resource that is skipped does not shadow another one: taking it out of the snapshot
leaves every file as it is (`render_keeps_healthy`). -/

namespace McGateway.Operator

open Bytes (ascii sortBy)

/-! ### Resources of unique name -/

section unique
variable {α : Type} {name : α → Bytes} {xs : List α}

/-- `x` is in the list, and nothing else there bears its name. -/
def UniqueName (name : α → Bytes) (xs : List α) (x : α) : Prop :=
  x ∈ xs ∧ (xs.map name).count (name x) = 1

theorem count_erase_name [DecidableEq α] (name : α → Bytes) {x : α} (hx : x ∈ xs) (n : Bytes) :
    (xs.map name).count n = ((xs.erase x).map name).count n + if name x = n then 1 else 0 := by
  have h := ((List.perm_cons_erase hx).map name).count_eq n
  rw [List.map_cons, List.count_cons] at h
  simpa using h

/-- Taking out a resource of unique name leaves the others as they are. -/
theorem uniqueName_erase [DecidableEq α] {x y : α} (hx : UniqueName name xs x) :
    UniqueName name (xs.erase x) y ↔ UniqueName name xs y ∧ y ≠ x := by
  have hzero : name x ∉ (xs.erase x).map name := by
    have h := count_erase_name name hx.1 (name x)
    rw [hx.2, if_pos rfl] at h
    exact List.count_eq_zero.mp (by omega)
  have hother : ∀ n ∈ (xs.erase x).map name, (xs.map name).count n = ((xs.erase x).map name).count n := by
    intro n hn
    have hne : name x ≠ n := by
      rintro rfl
      exact hzero hn
    rw [count_erase_name name hx.1 n, if_neg hne, Nat.add_zero]
  constructor
  · intro hy
    have hmem : name y ∈ (xs.erase x).map name := List.mem_map_of_mem hy.1
    refine ⟨⟨List.mem_of_mem_erase hy.1, (hother _ hmem).trans hy.2⟩, ?_⟩
    rintro rfl
    exact hzero hmem
  · intro hy
    have hmem : y ∈ xs.erase x := (List.mem_erase_of_ne hy.2).mpr hy.1.1
    exact ⟨hmem, (hother _ (List.mem_map_of_mem hmem)).symm.trans hy.1.2⟩

end unique

theorem mem_uniqueKeyspaces {s : Snapshot} {ks : Keyspace} :
    ks ∈ (uniqueKeyspaces s).1 ↔ UniqueName Keyspace.name s.keyspaces ks :=
  mem_dedupByName ..

theorem eq_of_name_eq {s : Snapshot} {ks ks' : Keyspace} (h : ks ∈ (uniqueKeyspaces s).1)
    (h' : ks' ∈ (uniqueKeyspaces s).1) (hn : ks.name = ks'.name) : ks = ks' :=
  List.inj_on_of_nodup_map (dedupByName_nodup ..) h h' hn

/-! ### Pools -/

theorem emittedPools_sorted (s : Snapshot) :
    (emittedPools s).1.Pairwise fun p q => p.name < q.name := by
  simp only [emittedPools, renderablePools, foldl_poolStep, List.nil_append]
  exact (Bytes.sortBy_pairwise_lt Pool.name (dedupByName_nodup ..)).filter _

/-! ### Modules -/

/-- The keyspace inlines the bytes `w` under the name `n`, and may do so. -/
structure Inlines (ks : Keyspace) (n w : Bytes) : Prop where
  merge : ks.spec.merge = some ⟨n, w⟩
  bytes : w ≠ []
  safe : safeModuleName n = true
  not_builtin : n ∉ builtinMerges

theorem offers_eq_some_iff {ks : Keyspace} {n w : Bytes} : offers n ks = some w ↔ Inlines ks n w := by
  constructor
  · intro h
    obtain ⟨hm, hw, hs, hb⟩ := offers_eq_some h
    exact ⟨hm, hw, hs, hb⟩
  · intro h
    unfold offers
    rw [h.merge]
    exact if_pos ⟨rfl, h.bytes, h.safe, h.not_builtin⟩

/-- Among the keyspaces that inline the module `n`, the first by name, with its bytes. -/
structure FirstInliner (s : Snapshot) (n w : Bytes) (ks : Keyspace) : Prop where
  unique : UniqueName Keyspace.name s.keyspaces ks
  inlines : Inlines ks n w
  least : ∀ ks' w', UniqueName Keyspace.name s.keyspaces ks' → Inlines ks' n w' → ks.name ≤ ks'.name

theorem lookup_emittedModules_iff {s : Snapshot} {n w : Bytes} :
    (emittedModules s).1.lookup n = some w ↔ ∃ ks, FirstInliner s n w ks := by
  have hsorted := Bytes.sortBy_pairwise_lt Keyspace.name
    (dedupByName_nodup .keyspace Keyspace.name s.keyspaces (emittedPools s).2)
  rw [lookup_emittedModules]
  refine (Selections.findSome?_eq_some_iff_of_sorted hsorted).trans ?_
  constructor
  · intro h
    obtain ⟨ks, hks, hw, hle⟩ := h
    rw [Bytes.mem_sortBy] at hks
    refine ⟨ks, mem_uniqueKeyspaces.mp hks, offers_eq_some_iff.mp hw, ?_⟩
    intro ks' w' hks' hw'
    apply hle ks' ((Bytes.mem_sortBy _).mpr (mem_uniqueKeyspaces.mpr hks'))
    rw [offers_eq_some_iff.mpr hw']
    rfl
  · intro h
    obtain ⟨ks, hks⟩ := h
    refine ⟨ks, (Bytes.mem_sortBy _).mpr (mem_uniqueKeyspaces.mpr hks.unique),
      offers_eq_some_iff.mpr hks.inlines, ?_⟩
    intro ks' hks' hsome
    rw [Bytes.mem_sortBy] at hks'
    obtain ⟨w', hw'⟩ := Option.isSome_iff_exists.mp hsome
    exact hks.least ks' w' (mem_uniqueKeyspaces.mp hks') (offers_eq_some_iff.mp hw')

theorem lookup_emittedModules_isSome {s : Snapshot} {ks : Keyspace} {n w : Bytes}
    (hu : UniqueName Keyspace.name s.keyspaces ks) (hin : Inlines ks n w) :
    ((emittedModules s).1.lookup n).isSome := by
  rw [lookup_emittedModules, List.findSome?_isSome_iff]
  refine ⟨ks, (Bytes.mem_sortBy _).mpr (mem_uniqueKeyspaces.mpr hu), ?_⟩
  rw [offers_eq_some_iff.mpr hin]
  rfl

/-! ### Keyspaces -/

theorem emittedKeyspaces_sorted (s : Snapshot) :
    (emittedKeyspaces s).1.Pairwise fun a b => a.spec.keyPrefix < b.spec.keyPrefix := by
  have hn := (emittedKeyspaces_spec s).nodup
  simp only [emittedKeyspaces, renderableKeyspaces] at hn ⊢
  apply Bytes.sortBy_pairwise_lt
  exact (((Bytes.sortBy_perm (fun ks : Keyspace => ks.spec.keyPrefix) _).map _).nodup_iff).mp hn

/-- Among the admissible keyspaces of its prefix, the one of least name. -/
structure LeastAdmissible (s : Snapshot) (ks : Keyspace) : Prop where
  unique : UniqueName Keyspace.name s.keyspaces ks
  admissible : Admissible s ks
  least : ∀ ks', UniqueName Keyspace.name s.keyspaces ks' → Admissible s ks' →
    ks'.spec.keyPrefix = ks.spec.keyPrefix → ks.name ≤ ks'.name

theorem mem_emittedKeyspaces {s : Snapshot} {ks : Keyspace} :
    ks ∈ (emittedKeyspaces s).1 ↔ LeastAdmissible s ks := by
  have h := emittedKeyspaces_spec s
  constructor
  · intro hks
    refine ⟨mem_uniqueKeyspaces.mp (h.sub ks hks), h.admissible ks hks, ?_⟩
    intro ks' hu hadm hprefix
    obtain ⟨k, hk, hkp, hle⟩ := h.first ks' (mem_uniqueKeyspaces.mpr hu) hadm
    rwa [List.inj_on_of_nodup_map h.nodup hk hks (hkp.trans hprefix)] at hle
  · intro hks
    have hmem := mem_uniqueKeyspaces.mpr hks.unique
    obtain ⟨k, hk, hkp, hle⟩ := h.first ks hmem hks.admissible
    have hge := hks.least k (mem_uniqueKeyspaces.mp (h.sub k hk)) (h.admissible k hk) hkp
    rwa [← eq_of_name_eq (h.sub k hk) hmem (le_antisymm hle hge)]

/-! ### Taking a resource out -/

/-- The two snapshots render to the same files. -/
def SameFiles (t s : Snapshot) : Prop := ∀ path, (render t).1.lookup path = (render s).1.lookup path

theorem sameFiles_of_emitted {s t : Snapshot} (hp : (emittedPools t).1 = (emittedPools s).1)
    (hm : ∀ n, (emittedModules t).1.lookup n = (emittedModules s).1.lookup n)
    (hk : (emittedKeyspaces t).1 = (emittedKeyspaces s).1) : SameFiles t s := by
  intro path
  by_cases hc : path = configFile
  · rw [hc, lookup_render_config, lookup_render_config]
    unfold configBytes
    rw [hp, hk]
  by_cases hn : ∃ n, path = modulePath n
  · obtain ⟨n, rfl⟩ := hn
    rw [lookup_render_module, lookup_render_module, hm]
  · have hne : ∀ n, modulePath n ≠ path := fun n he => hn ⟨n, he.symm⟩
    rw [lookup_render_of_ne t hc fun n _ => hne n, lookup_render_of_ne s hc fun n _ => hne n]

theorem mem_modules_congr {s t : Snapshot}
    (hm : ∀ n, (emittedModules t).1.lookup n = (emittedModules s).1.lookup n) (n : Bytes) :
    n ∈ (emittedModules t).1 ↔ n ∈ (emittedModules s).1 := by
  rw [← AList.lookup_isSome, ← AList.lookup_isSome, hm]

theorem admissible_congr {s t : Snapshot} (hp : (emittedPools t).1 = (emittedPools s).1)
    (hm : ∀ n, (emittedModules t).1.lookup n = (emittedModules s).1.lookup n) (ks : Keyspace) :
    Admissible t ks ↔ Admissible s ks := by
  unfold Admissible
  simp only [hp, mem_modules_congr hm]

theorem emittedKeyspaces_congr {s t : Snapshot}
    (h : ∀ ks, LeastAdmissible t ks ↔ LeastAdmissible s ks) :
    (emittedKeyspaces t).1 = (emittedKeyspaces s).1 := by
  apply Bytes.eq_of_mem_iff_of_pairwise_lt (fun ks : Keyspace => ks.spec.keyPrefix)
    (emittedKeyspaces_sorted t) (emittedKeyspaces_sorted s)
  intro ks
  rw [mem_emittedKeyspaces, mem_emittedKeyspaces, h]

/-- A pool that is skipped can be taken out. -/
theorem sameFiles_erase_pool {s : Snapshot} {p : Pool} (hu : UniqueName Pool.name s.pools p)
    (hskip : p ∉ (emittedPools s).1) : SameFiles ⟨s.pools.erase p, s.keyspaces⟩ s := by
  have hp : (emittedPools ⟨s.pools.erase p, s.keyspaces⟩).1 = (emittedPools s).1 := by
    apply Bytes.eq_of_mem_iff_of_pairwise_lt Pool.name (emittedPools_sorted _) (emittedPools_sorted _)
    intro q
    have hq := uniqueName_erase (y := q) hu
    unfold UniqueName at hq
    rw [mem_emittedPools] at hskip ⊢
    rw [mem_emittedPools, ← and_assoc, ← and_assoc, hq]
    constructor
    · intro h
      exact ⟨h.1.1, h.2⟩
    · intro h
      refine ⟨⟨h.1, ?_⟩, h.2⟩
      rintro rfl
      exact hskip ⟨hu.1, hu.2, h.2⟩
  have hm : ∀ n, (emittedModules ⟨s.pools.erase p, s.keyspaces⟩).1.lookup n =
      (emittedModules s).1.lookup n := by
    intro n
    rw [lookup_emittedModules, lookup_emittedModules]
    rfl
  refine sameFiles_of_emitted hp hm (emittedKeyspaces_congr fun ks => ?_)
  constructor
  · intro h
    exact ⟨h.unique, (admissible_congr hp hm ks).mp h.admissible,
      fun ks' hu' ha => h.least ks' hu' ((admissible_congr hp hm ks').mpr ha)⟩
  · intro h
    exact ⟨h.unique, (admissible_congr hp hm ks).mpr h.admissible,
      fun ks' hu' ha => h.least ks' hu' ((admissible_congr hp hm ks').mp ha)⟩

section keyspace
variable {s : Snapshot} {ks : Keyspace}

/-- A keyspace that is not the first to inline any module can be taken out of the modules. -/
theorem lookup_emittedModules_erase (hu : UniqueName Keyspace.name s.keyspaces ks)
    (hfirst : ∀ n w, ¬FirstInliner s n w ks) (n : Bytes) :
    (emittedModules ⟨s.pools, s.keyspaces.erase ks⟩).1.lookup n = (emittedModules s).1.lookup n := by
  apply Option.ext
  intro w
  rw [lookup_emittedModules_iff, lookup_emittedModules_iff]
  constructor
  · intro h
    obtain ⟨k, hk⟩ := h
    have hku := (uniqueName_erase hu).mp hk.unique
    refine ⟨k, hku.1, hk.inlines, ?_⟩
    intro k' w' hu' hin'
    by_cases he : k' = ks
    · subst he
      -- the first inliner of `n` is another keyspace, and `k` is not after it
      obtain ⟨w₀, hw₀⟩ := Option.isSome_iff_exists.mp (lookup_emittedModules_isSome hu' hin')
      obtain ⟨k₀, hk₀⟩ := lookup_emittedModules_iff.mp hw₀
      have hne : k₀ ≠ k' := by
        rintro rfl
        exact hfirst n w₀ hk₀
      have hle := hk.least k₀ w₀ ((uniqueName_erase hu).mpr ⟨hk₀.unique, hne⟩) hk₀.inlines
      exact hle.trans (hk₀.least k' w' hu' hin')
    · exact hk.least k' w' ((uniqueName_erase hu).mpr ⟨hu', he⟩) hin'
  · intro h
    obtain ⟨k, hk⟩ := h
    have hne : k ≠ ks := by
      rintro rfl
      exact hfirst n w hk
    refine ⟨k, (uniqueName_erase hu).mpr ⟨hk.unique, hne⟩, hk.inlines, ?_⟩
    intro k' w' hu' hin'
    exact hk.least k' w' ((uniqueName_erase hu).mp hu').1 hin'

/-- A keyspace that is skipped and provides no module can be taken out. -/
theorem sameFiles_erase_keyspace (hu : UniqueName Keyspace.name s.keyspaces ks)
    (hskip : ks ∉ (emittedKeyspaces s).1) (hfirst : ∀ n w, ¬FirstInliner s n w ks) :
    SameFiles ⟨s.pools, s.keyspaces.erase ks⟩ s := by
  have hp : (emittedPools ⟨s.pools, s.keyspaces.erase ks⟩).1 = (emittedPools s).1 := rfl
  have hm := lookup_emittedModules_erase hu hfirst
  refine sameFiles_of_emitted hp hm (emittedKeyspaces_congr fun k => ?_)
  constructor
  · intro h
    have hku := (uniqueName_erase hu).mp h.unique
    refine ⟨hku.1, (admissible_congr hp hm k).mp h.admissible, ?_⟩
    intro k' hu' ha hprefix
    by_cases he : k' = ks
    · subst he
      -- the emitted keyspace of this prefix is another one, and `k` is not after it
      obtain ⟨k₀, hk₀, hkp, hle⟩ := (emittedKeyspaces_spec s).first k' (mem_uniqueKeyspaces.mpr hu') ha
      have hk₀' := mem_emittedKeyspaces.mp hk₀
      have hne : k₀ ≠ k' := by
        rintro rfl
        exact hskip hk₀
      have hk₀u := (uniqueName_erase hu).mpr ⟨hk₀'.unique, hne⟩
      exact (h.least k₀ hk₀u ((admissible_congr hp hm k₀).mpr hk₀'.admissible) (hkp.trans hprefix)).trans hle
    · exact h.least k' ((uniqueName_erase hu).mpr ⟨hu', he⟩) ((admissible_congr hp hm k').mpr ha) hprefix
  · intro h
    have hne : k ≠ ks := by
      rintro rfl
      exact hskip (mem_emittedKeyspaces.mpr h)
    refine ⟨(uniqueName_erase hu).mpr ⟨h.unique, hne⟩, (admissible_congr hp hm k).mpr h.admissible, ?_⟩
    intro k' hu' ha hprefix
    exact h.least k' ((uniqueName_erase hu).mp hu').1 ((admissible_congr hp hm k').mp ha) hprefix

end keyspace

/-! ### The tree -/

/-- The keyspace has a unique name and passes its own checks against the pools and modules. -/
def Passes (s : Snapshot) (pools : List Pool) (ks : Keyspace) : Prop :=
  UniqueName Keyspace.name s.keyspaces ks ∧
    KeyspaceShape (pools.map Pool.name) (fun n => n ∈ builtinMerges ∨ modulePath n ∈ (render s).1) ks.spec

/-- The tree of a snapshot, in terms of the snapshot. -/
structure Emission (s : Snapshot) (pools : List Pool) (keyspaces : List Keyspace) : Prop where
  config : (render s).1.lookup configFile = some (renderConfig pools keyspaces)
  files : ∀ path ∈ (render s).1, path = configFile ∨ ∃ n, path = modulePath n
  pools_sorted : pools.Pairwise fun p q => p.name < q.name
  mem_pools : ∀ p, p ∈ pools ↔ UniqueName Pool.name s.pools p ∧ PoolShape p
  inlined : ∀ ks n w, UniqueName Keyspace.name s.keyspaces ks → Inlines ks n w → modulePath n ∈ (render s).1
  modules : ∀ n w, (render s).1.lookup (modulePath n) = some w ↔ ∃ ks, FirstInliner s n w ks
  keyspaces_sorted : keyspaces.Pairwise fun a b => a.spec.keyPrefix < b.spec.keyPrefix
  served : ∀ ks, Passes s pools ks → ∃ k ∈ keyspaces, k.spec.keyPrefix = ks.spec.keyPrefix
  mem_keyspaces : ∀ ks, ks ∈ keyspaces ↔ Passes s pools ks ∧
    ∀ k, Passes s pools k → k.spec.keyPrefix = ks.spec.keyPrefix → ks.name ≤ k.name

theorem passes_iff {s : Snapshot} {ks : Keyspace} :
    Passes s (emittedPools s).1 ks ↔ UniqueName Keyspace.name s.keyspaces ks ∧ Admissible s ks := by
  unfold Passes Admissible
  simp only [modulePath_mem_render]

theorem emission (s : Snapshot) : Emission s (emittedPools s).1 (emittedKeyspaces s).1 where
  config := lookup_render_config s
  files := by
    intro path hpath
    rcases mem_render.mp hpath with h | ⟨n, -, hn⟩
    · exact Or.inl h
    · exact Or.inr ⟨n, hn⟩
  pools_sorted := emittedPools_sorted s
  mem_pools := by
    intro p
    rw [mem_emittedPools, ← and_assoc]
    rfl
  inlined := by
    intro ks n w hu hin
    rw [modulePath_mem_render, ← AList.lookup_isSome]
    exact lookup_emittedModules_isSome hu hin
  modules := by
    intro n w
    rw [lookup_render_module]
    exact lookup_emittedModules_iff
  keyspaces_sorted := emittedKeyspaces_sorted s
  served := by
    intro ks hks
    obtain ⟨hu, ha⟩ := passes_iff.mp hks
    obtain ⟨k, hk, hkp, -⟩ := (emittedKeyspaces_spec s).first ks (mem_uniqueKeyspaces.mpr hu) ha
    exact ⟨k, hk, hkp⟩
  mem_keyspaces := by
    intro ks
    simp only [passes_iff]
    rw [mem_emittedKeyspaces]
    constructor
    · intro h
      exact ⟨⟨h.unique, h.admissible⟩, fun k hk => h.least k hk.1 hk.2⟩
    · intro h
      exact ⟨h.1.1, h.1.2, fun k hu ha => h.2 k ⟨hu, ha⟩⟩

/-- A list sorted strictly is determined by its elements. -/
theorem eq_of_sorted {α : Type} {key : α → Bytes} {l l' : List α}
    (hl : l.Pairwise fun a b => key a < key b) (hl' : l'.Pairwise fun a b => key a < key b)
    (hmem : ∀ a, a ∈ l ↔ a ∈ l') : l = l' := by
  have hnodup : ∀ {m : List α}, (m.Pairwise fun a b => key a < key b) → m.Nodup :=
    fun hm => hm.imp fun hlt heq => absurd (heq ▸ hlt) (lt_irrefl _)
  refine List.Perm.eq_of_pairwise ?_ hl hl' ((List.perm_ext_iff_of_nodup (hnodup hl) (hnodup hl')).mpr hmem)
  intro a b _ _ hab hba
  exact absurd (hab.trans hba) (lt_irrefl _)

/-- These facts determine what is emitted. -/
theorem Emission.eq {s : Snapshot} {pools : List Pool} {keyspaces : List Keyspace}
    (h : Emission s pools keyspaces) : pools = (emittedPools s).1 ∧ keyspaces = (emittedKeyspaces s).1 := by
  have he := emission s
  obtain rfl : pools = (emittedPools s).1 :=
    eq_of_sorted h.pools_sorted he.pools_sorted fun p => (h.mem_pools p).trans (he.mem_pools p).symm
  exact ⟨rfl, eq_of_sorted h.keyspaces_sorted he.keyspaces_sorted
    fun ks => (h.mem_keyspaces ks).trans (he.mem_keyspaces ks).symm⟩

/-- Every healthy resource is emitted, conflicts are resolved by name, and a resource of unique
name that is skipped and provides no module leaves no trace in the files. -/
theorem render_keeps_healthy (s : Snapshot) : ∃ pools keyspaces, Emission s pools keyspaces ∧
    (∀ p, UniqueName Pool.name s.pools p → p ∉ pools → SameFiles ⟨s.pools.erase p, s.keyspaces⟩ s) ∧
    (∀ ks, UniqueName Keyspace.name s.keyspaces ks → ks ∉ keyspaces → (∀ n w, ¬FirstInliner s n w ks) →
      SameFiles ⟨s.pools, s.keyspaces.erase ks⟩ s) := by
  refine ⟨_, _, emission s, ?_, ?_⟩
  · intro p hu hskip
    exact sameFiles_erase_pool hu hskip
  · intro ks hu hskip hfirst
    exact sameFiles_erase_keyspace hu hskip hfirst

end McGateway.Operator
