import McGateway.Render

/-! # What the renderer emits

The loops of `render.go` mutate what later rounds depend on (the prefixes taken, the modules
collected).  This module says what comes out of them: the emitted pools and keyspaces are those
that satisfy conditions on the resource itself (`PoolShape`, `KeyspaceShape`), with conflicts on
a prefix or a module name resolved in favour of the least `metadata.name`. -/

namespace McGateway.Operator

open Bytes (ascii sortBy)

/-! ### Checks -/

/-- The conditions on a pool that do not involve other pools. -/
structure PoolShape (p : Pool) : Prop where
  name_ne : p.name ≠ []
  addrs_ne : p.spec.addrs ≠ []
  addr_ne : ∀ a ∈ p.spec.addrs, a ≠ []
  hash_ok : p.spec.hash = [] ∨ p.spec.hash ∈ validHash
  dist_ok : p.spec.dist = [] ∨ p.spec.dist ∈ validDist

theorem firstBad_eq_none {items : List Bytes} : firstBad items = none ↔ ∀ a ∈ items, a ≠ [] := by
  simp [firstBad, List.findIdx?_eq_none_iff]

/-- The renderer keeps exactly the pools of this shape. -/
theorem poolProblem_eq_none {p : Pool} : poolProblem p = none ↔ PoolShape p := by
  constructor
  · intro h
    unfold poolProblem at h
    cases hbad : firstBad p.spec.addrs with
    | some i =>
        rw [hbad] at h
        split_ifs at h
    | none =>
        rw [hbad] at h
        split_ifs at h with h1 h2 h3 h4
        exact ⟨h1, h2, firstBad_eq_none.mp hbad, by tauto, by tauto⟩
  · rintro ⟨h1, h2, h3, h4, h5⟩
    unfold poolProblem
    rw [if_neg h1, if_neg h2, firstBad_eq_none.mpr h3]
    simp only
    rw [if_neg (by tauto), if_neg (by tauto)]

/-- The conditions on a pool list, given the pools of the configuration. -/
structure PoolListShape (poolNames list : List Bytes) : Prop where
  ne : list ≠ []
  name_ne : ∀ n ∈ list, n ≠ []
  known : ∀ n ∈ list, n ∈ poolNames
  nodup : list.Nodup

theorem checkPoolItems_eq_none (field : ListField) (poolNames : List Bytes) :
    ∀ (i : ℕ) (seen list : List Bytes), checkPoolItems field poolNames i seen list = none ↔
      (∀ n ∈ list, n ≠ []) ∧ (∀ n ∈ list, n ∈ poolNames) ∧ list.Nodup ∧ ∀ n ∈ list, n ∉ seen
  | _, _, [] => by simp [checkPoolItems]
  | i, seen, n :: list => by
      unfold checkPoolItems
      by_cases h1 : n = []
      · simp [h1]
      by_cases h2 : n ∉ poolNames
      · simp [h1, h2]
      by_cases h3 : n ∈ seen
      · simp [h1, h2, h3]
      rw [if_neg h1, if_neg h2, if_neg h3, checkPoolItems_eq_none field poolNames (i + 1)]
      simp only [List.forall_mem_cons, List.nodup_cons]
      constructor
      · rintro ⟨h4, h5, h6, h7⟩
        exact ⟨⟨h1, h4⟩, ⟨not_not.mp h2, h5⟩, ⟨fun hm => h7 n hm (List.mem_cons_self ..), h6⟩, h3,
          fun m hm hms => h7 m hm (List.mem_cons_of_mem _ hms)⟩
      · rintro ⟨⟨_, h4⟩, ⟨_, h5⟩, ⟨h6, h7⟩, _, h8⟩
        refine ⟨h4, h5, h7, fun m hm hms => ?_⟩
        rcases List.mem_cons.mp hms with rfl | hms
        · exact h6 hm
        · exact h8 m hm hms

/-- The renderer accepts exactly the pool lists of this shape. -/
theorem checkPoolList_eq_none {field : ListField} {list poolNames : List Bytes} :
    checkPoolList field list poolNames = none ↔ PoolListShape poolNames list := by
  unfold checkPoolList
  split_ifs with h
  · exact iff_of_false (by simp) fun hs => hs.ne h
  · rw [checkPoolItems_eq_none]
    constructor
    · rintro ⟨h1, h2, h3, _⟩
      exact ⟨h, h1, h2, h3⟩
    · rintro ⟨_, h1, h2, h3⟩
      exact ⟨h1, h2, h3, by simp⟩

/-- The conditions on a keyspace that do not involve other keyspaces; `resolves` tells which
merge names are known. -/
structure KeyspaceShape (poolNames : List Bytes) (resolves : Bytes → Prop) (spec : KeyspaceSpec) :
    Prop where
  prefix_ne : spec.keyPrefix ≠ []
  no_colon : 58 ∉ spec.keyPrefix
  not_reserved : spec.keyPrefix ∉ reservedPrefixes
  read_ok : PoolListShape poolNames spec.read
  write_ok : PoolListShape poolNames spec.write
  policy_ok : spec.writePolicy = [] ∨ spec.writePolicy ∈ validWritePolicy
  merge_ok : ∀ m, spec.merge = some m → resolves m.name

/-- The renderer keeps exactly the keyspaces of this shape whose prefix is not taken. -/
theorem keyspaceProblem_eq_none {poolNames : List Bytes} {modules : ByteMap Bytes}
    {seenPrefix : List Bytes} {spec : KeyspaceSpec} :
    keyspaceProblem poolNames modules seenPrefix spec = none ↔
      KeyspaceShape poolNames (fun n => n ∈ builtinMerges ∨ n ∈ modules) spec ∧
        spec.keyPrefix ∉ seenPrefix := by
  unfold keyspaceProblem
  by_cases h1 : spec.keyPrefix = []
  · rw [if_pos h1]
    exact iff_of_false (by simp) fun h => h.1.prefix_ne h1
  by_cases h2 : 58 ∈ spec.keyPrefix
  · rw [if_neg h1, if_pos h2]
    exact iff_of_false (by simp) fun h => h.1.no_colon h2
  by_cases h3 : spec.keyPrefix ∈ reservedPrefixes
  · rw [if_neg h1, if_neg h2, if_pos h3]
    exact iff_of_false (by simp) fun h => h.1.not_reserved h3
  by_cases h4 : spec.keyPrefix ∈ seenPrefix
  · rw [if_neg h1, if_neg h2, if_neg h3, if_pos h4]
    exact iff_of_false (by simp) fun h => h.2 h4
  rw [if_neg h1, if_neg h2, if_neg h3, if_neg h4]
  cases hr : checkPoolList .read spec.read poolNames with
  | some e =>
      exact iff_of_false (by simp) fun h => by simp [checkPoolList_eq_none.mpr h.1.read_ok] at hr
  | none =>
  cases hw : checkPoolList .write spec.write poolNames with
  | some e =>
      exact iff_of_false (by simp) fun h => by simp [checkPoolList_eq_none.mpr h.1.write_ok] at hw
  | none =>
  have hr' := checkPoolList_eq_none.mp hr
  have hw' := checkPoolList_eq_none.mp hw
  by_cases h5 : spec.writePolicy ≠ [] ∧ spec.writePolicy ∉ validWritePolicy
  · simp only [if_pos h5]
    exact iff_of_false (by simp) fun h => by have := h.1.policy_ok; tauto
  have h5' : spec.writePolicy = [] ∨ spec.writePolicy ∈ validWritePolicy := by tauto
  simp only [if_neg h5]
  cases hm : spec.merge with
  | none => exact iff_of_true rfl ⟨⟨h1, h2, h3, hr', hw', h5', by simp [hm]⟩, h4⟩
  | some m =>
      by_cases h6 : m.name ∉ builtinMerges ∧ m.name ∉ modules
      · simp only [if_pos h6]
        exact iff_of_false (by simp) fun h => by have := h.1.merge_ok m hm; tauto
      · simp only [if_neg h6]
        refine iff_of_true trivial ⟨⟨h1, h2, h3, hr', hw', h5', ?_⟩, h4⟩
        intro m' hm'
        rw [hm, Option.some.injEq] at hm'
        subst hm'
        tauto

/-! ### Duplicate names -/

section dedup
variable {α : Type} (kind : Kind) (name : α → Bytes) (xs : List α) (warns : List Warning)

theorem mem_dedupByName {x : α} :
    x ∈ (dedupByName kind name xs warns).1 ↔ x ∈ xs ∧ (xs.map name).count (name x) = 1 := by
  simp [dedupByName]

/-- The survivors have distinct names. -/
theorem dedupByName_nodup : ((dedupByName kind name xs warns).1.map name).Nodup := by
  rw [List.nodup_iff_count_le_one]
  intro n
  by_cases hn : n ∈ (dedupByName kind name xs warns).1.map name
  · obtain ⟨x, hx, rfl⟩ := List.mem_map.mp hn
    have hsub : (dedupByName kind name xs warns).1.map name |>.Sublist (xs.map name) :=
      List.Sublist.map name List.filter_sublist
    have h1 := (mem_dedupByName kind name xs warns).mp hx
    exact (hsub.count_le (name x)).trans h1.2.le
  · rw [List.count_eq_zero_of_not_mem hn]
    omega

theorem dedupByName_of_nodup (h : (xs.map name).Nodup) : (dedupByName kind name xs warns).1 = xs := by
  simp only [dedupByName]
  rw [List.filter_eq_self]
  intro x hx
  simp [List.count_eq_one_of_mem h (List.mem_map_of_mem hx)]

end dedup

/-! ### Pools -/

theorem foldl_poolStep (l : List Pool) (acc : List Pool × List Warning) :
    (l.foldl poolStep acc).1 = acc.1 ++ l.filter fun p => (poolProblem p).isNone := by
  induction l generalizing acc with
  | nil => simp
  | cons p l ih =>
      rw [List.foldl_cons, ih]
      cases h : poolProblem p with
      | none => simp [poolStep, h]
      | some msg => simp [poolStep, h]

theorem mem_emittedPools {s : Snapshot} {p : Pool} :
    p ∈ (emittedPools s).1 ↔
      p ∈ s.pools ∧ (s.pools.map Pool.name).count p.name = 1 ∧ PoolShape p := by
  simp only [emittedPools, renderablePools, foldl_poolStep, List.nil_append, List.mem_filter,
    Bytes.mem_sortBy, mem_dedupByName, Option.isNone_iff_eq_none, poolProblem_eq_none, and_assoc]

theorem emittedPools_names_nodup (s : Snapshot) : ((emittedPools s).1.map Pool.name).Nodup := by
  simp only [emittedPools, renderablePools, foldl_poolStep, List.nil_append]
  have h := Bytes.sortBy_keys_nodup Pool.name (dedupByName_nodup .pool Pool.name s.pools [])
  exact h.sublist (List.Sublist.map Pool.name List.filter_sublist)

/-! ### Modules -/

/-- The bytes a keyspace offers for the module `n`. -/
def offers (n : Bytes) (ks : Keyspace) : Option Bytes :=
  match ks.spec.merge with
  | none => none
  | some m =>
      if m.name = n ∧ m.wasm ≠ [] ∧ safeModuleName n = true ∧ n ∉ builtinMerges then some m.wasm
      else none

theorem lookup_moduleStep (acc : ByteMap Bytes × List Warning) (ks : Keyspace) (n : Bytes) :
    (moduleStep acc ks).1.lookup n = (acc.1.lookup n).or (offers n ks) := by
  unfold moduleStep offers
  cases ks.spec.merge with
  | none => simp
  | some m =>
      dsimp only
      by_cases hw : m.wasm = []
      · simp [hw]
      by_cases hs : safeModuleName m.name = true
      · by_cases hb : m.name ∈ builtinMerges
        · have hne : ¬ (m.name = n ∧ m.wasm ≠ [] ∧ safeModuleName n = true ∧ n ∉ builtinMerges) := by
            rintro ⟨rfl, -, -, h⟩
            exact h hb
          rw [if_neg hne]
          simp [hw, hs, hb]
        · by_cases hn : m.name = n
          · subst hn
            cases hl : acc.1.lookup m.name with
            | some prev => by_cases hp : prev = m.wasm <;> simp [hw, hs, hb, hl, hp]
            | none => simp [hw, hs, hb]
          · cases acc.1.lookup m.name with
            | some prev => by_cases hp : prev = m.wasm <;> simp [hw, hs, hb, hp, hn]
            | none => simp [hw, hs, hb, hn, AList.lookup_insert_ne (Ne.symm hn)]
      · have hne : ¬ (m.name = n ∧ m.wasm ≠ [] ∧ safeModuleName n = true ∧ n ∉ builtinMerges) := by
          rintro ⟨rfl, -, h, -⟩
          exact hs h
        rw [if_neg hne]
        simp [hw, hs]

theorem lookup_foldl_moduleStep (l : List Keyspace) (acc : ByteMap Bytes × List Warning) (n : Bytes) :
    (l.foldl moduleStep acc).1.lookup n = (acc.1.lookup n).or (l.findSome? (offers n)) := by
  induction l generalizing acc with
  | nil => simp
  | cons ks l ih =>
      rw [List.foldl_cons, ih, lookup_moduleStep, List.findSome?_cons]
      cases acc.1.lookup n <;> cases offers n ks <;> rfl

/-- The bytes of a module are those offered by the first keyspace by name. -/
theorem lookup_emittedModules (s : Snapshot) (n : Bytes) :
    (emittedModules s).1.lookup n =
      (sortBy Keyspace.name (uniqueKeyspaces s).1).findSome? (offers n) := by
  simp only [emittedModules, collectModules, lookup_foldl_moduleStep]
  rfl

theorem offers_eq_some {n w : Bytes} {ks : Keyspace} (h : offers n ks = some w) :
    ks.spec.merge = some ⟨n, w⟩ ∧ w ≠ [] ∧ safeModuleName n = true ∧ n ∉ builtinMerges := by
  unfold offers at h
  cases hm : ks.spec.merge with
  | none => simp [hm] at h
  | some m =>
      simp only [hm] at h
      split_ifs at h with hc
      obtain ⟨rfl, hw, hs, hb⟩ := hc
      rw [Option.some.injEq] at h
      subst h
      exact ⟨rfl, hw, hs, hb⟩

/-- A module of the tree has a safe name that is not a built-in. -/
theorem mem_emittedModules {s : Snapshot} {n : Bytes} (h : n ∈ (emittedModules s).1) :
    safeModuleName n = true ∧ n ∉ builtinMerges := by
  obtain ⟨w, hw⟩ := Option.isSome_iff_exists.mp (AList.lookup_isSome.mpr h)
  rw [lookup_emittedModules] at hw
  obtain ⟨ks, -, hks⟩ := List.exists_of_findSome?_eq_some hw
  exact (offers_eq_some hks).2.2

/-! ### Keyspaces -/

section keyspaces
variable {poolNames : List Bytes} {modules : ByteMap Bytes}

/-- The invariant of the loop of `renderableKeyspaces` after the keyspaces `done`. -/
structure KeyspaceInv (poolNames : List Bytes) (modules : ByteMap Bytes) (done : List Keyspace)
    (acc : KeyspaceAcc) : Prop where
  seen : ∀ p, p ∈ acc.seenPrefix ↔ ∃ ks ∈ acc.out, ks.spec.keyPrefix = p
  sub : ∀ ks ∈ acc.out, ks ∈ done
  shape : ∀ ks ∈ acc.out,
    KeyspaceShape poolNames (fun n => n ∈ builtinMerges ∨ n ∈ modules) ks.spec
  nodup : (acc.out.map fun ks => ks.spec.keyPrefix).Nodup
  first : ∀ ks ∈ done, KeyspaceShape poolNames (fun n => n ∈ builtinMerges ∨ n ∈ modules) ks.spec →
    ∃ ks' ∈ acc.out, ks'.spec.keyPrefix = ks.spec.keyPrefix ∧ ks'.name ≤ ks.name

/-- A keyspace with a problem is passed over. -/
theorem KeyspaceInv.skip {done : List Keyspace} {acc : KeyspaceAcc} {ks : Keyspace} {warns : List Warning}
    (h : KeyspaceInv poolNames modules done acc) (hle : ∀ k ∈ done, k.name ≤ ks.name)
    (hp : keyspaceProblem poolNames modules acc.seenPrefix ks.spec ≠ none) :
    KeyspaceInv poolNames modules (done ++ [ks]) ⟨acc.out, acc.seenPrefix, warns⟩ := by
  refine ⟨h.seen, fun k hk => List.mem_append_left _ (h.sub k hk), h.shape, h.nodup, ?_⟩
  intro k hk hshape
  rcases List.mem_append.mp hk with hk | hk
  · exact h.first k hk hshape
  · rw [List.mem_singleton] at hk
    subst hk
    by_cases hseen : k.spec.keyPrefix ∈ acc.seenPrefix
    · obtain ⟨k', hk', he⟩ := (h.seen _).mp hseen
      exact ⟨k', hk', he, hle k' (h.sub k' hk')⟩
    · exact absurd (keyspaceProblem_eq_none.mpr ⟨hshape, hseen⟩) hp

/-- A keyspace without a problem is kept. -/
theorem KeyspaceInv.keep {done : List Keyspace} {acc : KeyspaceAcc} {ks : Keyspace} {warns : List Warning}
    (h : KeyspaceInv poolNames modules done acc)
    (hshape : KeyspaceShape poolNames (fun n => n ∈ builtinMerges ∨ n ∈ modules) ks.spec)
    (hseen : ks.spec.keyPrefix ∉ acc.seenPrefix) :
    KeyspaceInv poolNames modules (done ++ [ks])
      ⟨acc.out ++ [ks], ks.spec.keyPrefix :: acc.seenPrefix, warns⟩ := by
  refine ⟨?_, ?_, ?_, ?_, ?_⟩
  · intro p
    simp only [List.mem_cons, List.mem_append, List.not_mem_nil, or_false, h.seen p]
    constructor
    · rintro (rfl | ⟨k, hk, he⟩)
      · exact ⟨ks, Or.inr rfl, rfl⟩
      · exact ⟨k, Or.inl hk, he⟩
    · rintro ⟨k, hk | rfl, he⟩
      · exact Or.inr ⟨k, hk, he⟩
      · exact Or.inl he.symm
  · intro k hk
    rcases List.mem_append.mp hk with hk | hk
    · exact List.mem_append_left _ (h.sub k hk)
    · exact List.mem_append_right _ hk
  · intro k hk
    rcases List.mem_append.mp hk with hk | hk
    · exact h.shape k hk
    · rw [List.mem_singleton.mp hk]
      exact hshape
  · rw [List.map_append, List.nodup_append]
    refine ⟨h.nodup, by simp, ?_⟩
    intro p hp q hq hpq
    obtain ⟨k, hk, he⟩ := List.mem_map.mp hp
    simp only [List.map_cons, List.map_nil, List.mem_singleton] at hq
    exact hseen ((h.seen _).mpr ⟨k, hk, by rw [he, hpq, hq]⟩)
  · intro k hk hk'
    rcases List.mem_append.mp hk with hk | hk
    · obtain ⟨k', hmem, he⟩ := h.first k hk hk'
      exact ⟨k', List.mem_append_left _ hmem, he⟩
    · rw [List.mem_singleton.mp hk]
      exact ⟨ks, List.mem_append_right _ (List.mem_singleton_self _), rfl, le_refl _⟩

theorem keyspaceStep_inv {done : List Keyspace} {acc : KeyspaceAcc} {ks : Keyspace}
    (h : KeyspaceInv poolNames modules done acc) (hle : ∀ k ∈ done, k.name ≤ ks.name) :
    KeyspaceInv poolNames modules (done ++ [ks]) (keyspaceStep poolNames modules acc ks) := by
  unfold keyspaceStep
  cases hp : keyspaceProblem poolNames modules acc.seenPrefix ks.spec with
  | some msg => exact h.skip hle (by rw [hp]; simp)
  | none =>
      obtain ⟨hshape, hseen⟩ := keyspaceProblem_eq_none.mp hp
      exact h.keep hshape hseen

theorem foldl_keyspaceStep_inv : ∀ (l done : List Keyspace) (acc : KeyspaceAcc),
    KeyspaceInv poolNames modules done acc →
    (done ++ l).Pairwise (fun a b : Keyspace => a.name ≤ b.name) →
    KeyspaceInv poolNames modules (done ++ l) (l.foldl (keyspaceStep poolNames modules) acc)
  | [], done, acc, h, _ => by simpa using h
  | ks :: l, done, acc, h, hs => by
      have hle : ∀ k ∈ done, k.name ≤ ks.name := by
        intro k hk
        exact (List.pairwise_append.mp hs).2.2 k hk ks (List.mem_cons_self ..)
      have e : done ++ ks :: l = (done ++ [ks]) ++ l := by simp
      rw [e] at hs ⊢
      exact foldl_keyspaceStep_inv l (done ++ [ks]) _ (keyspaceStep_inv h hle) hs

end keyspaces

theorem keyspaceInv_init (poolNames : List Bytes) (modules : ByteMap Bytes) (warns : List Warning) :
    KeyspaceInv poolNames modules [] ⟨[], [], warns⟩ :=
  ⟨by simp, by simp, by simp, by simp, by simp⟩

/-- A keyspace passes its own checks against the emitted pools and modules. -/
def Admissible (s : Snapshot) (ks : Keyspace) : Prop :=
  KeyspaceShape ((emittedPools s).1.map Pool.name)
    (fun n => n ∈ builtinMerges ∨ n ∈ (emittedModules s).1) ks.spec

/-- The emitted keyspaces: admissible, with distinct prefixes, and holding for every admissible
keyspace one of the same prefix and no greater name. -/
structure EmittedKeyspaces (s : Snapshot) (out : List Keyspace) : Prop where
  sub : ∀ ks ∈ out, ks ∈ (uniqueKeyspaces s).1
  admissible : ∀ ks ∈ out, Admissible s ks
  nodup : (out.map fun ks => ks.spec.keyPrefix).Nodup
  first : ∀ ks ∈ (uniqueKeyspaces s).1, Admissible s ks →
    ∃ ks' ∈ out, ks'.spec.keyPrefix = ks.spec.keyPrefix ∧ ks'.name ≤ ks.name

theorem emittedKeyspaces_spec (s : Snapshot) : EmittedKeyspaces s (emittedKeyspaces s).1 := by
  have hsort : ([] ++ sortBy Keyspace.name (uniqueKeyspaces s).1).Pairwise
      (fun a b : Keyspace => a.name ≤ b.name) := Bytes.sortBy_pairwise Keyspace.name _
  have h := foldl_keyspaceStep_inv (sortBy Keyspace.name (uniqueKeyspaces s).1) []
    ⟨[], [], (emittedModules s).2⟩
    (keyspaceInv_init ((emittedPools s).1.map Pool.name) (emittedModules s).1 _) hsort
  refine ⟨?_, ?_, ?_, ?_⟩
  · intro ks hks
    have := h.sub ks (by simpa [emittedKeyspaces, renderableKeyspaces] using hks)
    simpa using this
  · intro ks hks
    exact h.shape ks (by simpa [emittedKeyspaces, renderableKeyspaces] using hks)
  · exact Bytes.sortBy_keys_nodup _ h.nodup
  · intro ks hks hadm
    obtain ⟨ks', hk', he⟩ := h.first ks (by simpa using hks) hadm
    exact ⟨ks', by simpa [emittedKeyspaces, renderableKeyspaces] using hk', he⟩

/-! ### The tree -/

theorem modulePath_injective : Function.Injective modulePath := by
  intro m n h
  simpa [modulePath] using h

theorem modulePath_ne_configFile (n : Bytes) : modulePath n ≠ configFile := by
  simp [modulePath, configFile, udfDir, ascii]

/-- Writing the modules into a tree leaves the other files alone. -/
theorem lookup_writeModules_of_ne (l : List (Sigma fun _ : Bytes => Bytes)) (files : ByteMap Bytes)
    (p : Bytes) (hp : ∀ e ∈ l, modulePath e.1 ≠ p) :
    (l.foldl (fun files e => files.insert (modulePath e.1) e.2) files).lookup p = files.lookup p := by
  induction l generalizing files with
  | nil => rfl
  | cons e l ih =>
      obtain ⟨he, hl⟩ := List.forall_mem_cons.mp hp
      rw [List.foldl_cons, ih _ hl, AList.lookup_insert_ne he.symm]

/-- Writing the modules into a tree puts each of them at its path. -/
theorem lookup_writeModules_of_mem (l : List (Sigma fun _ : Bytes => Bytes)) (files : ByteMap Bytes)
    (hl : l.NodupKeys) {e : Sigma fun _ : Bytes => Bytes} (he : e ∈ l) :
    (l.foldl (fun files e => files.insert (modulePath e.1) e.2) files).lookup (modulePath e.1) =
      some e.2 := by
  induction l generalizing files with
  | nil => simp at he
  | cons d l ih =>
      rw [List.nodupKeys_cons] at hl
      rw [List.foldl_cons]
      rcases List.mem_cons.mp he with rfl | he
      · rw [lookup_writeModules_of_ne, AList.lookup_insert]
        intro d hd hdn
        apply hl.1
        rw [← modulePath_injective hdn]
        exact List.mem_keys_of_mem hd
      · exact ih _ hl.2 he

theorem lookup_render_config (s : Snapshot) :
    (render s).1.lookup configFile = some (configBytes s) := by
  unfold render
  rw [lookup_writeModules_of_ne]
  · rw [← AList.insert_empty, AList.lookup_insert]
  · intro e _
    exact modulePath_ne_configFile e.1

theorem lookup_render_of_ne (s : Snapshot) {p : Bytes} (hc : p ≠ configFile)
    (hm : ∀ n ∈ (emittedModules s).1, modulePath n ≠ p) : (render s).1.lookup p = none := by
  unfold render
  rw [lookup_writeModules_of_ne]
  · rw [AList.lookup_eq_none, AList.mem_keys, AList.keys_singleton, List.mem_singleton]
    exact hc
  · intro e he
    exact hm e.1 (List.mem_keys_of_mem he)

theorem lookup_render_module (s : Snapshot) (n : Bytes) :
    (render s).1.lookup (modulePath n) = (emittedModules s).1.lookup n := by
  cases h : (emittedModules s).1.lookup n with
  | some w =>
      have he := AList.mem_lookup_iff.mp (Option.mem_def.mpr h)
      exact lookup_writeModules_of_mem _ _ (emittedModules s).1.nodupKeys he
  | none =>
      apply lookup_render_of_ne s (modulePath_ne_configFile n)
      intro m hm hmn
      rw [modulePath_injective hmn, ← AList.lookup_isSome, h] at hm
      simp at hm

theorem modulePath_mem_render {s : Snapshot} {n : Bytes} :
    modulePath n ∈ (render s).1 ↔ n ∈ (emittedModules s).1 := by
  rw [← AList.lookup_isSome, ← AList.lookup_isSome, lookup_render_module]

/-- The files of the tree. -/
theorem mem_render {s : Snapshot} {p : Bytes} :
    p ∈ (render s).1 ↔ p = configFile ∨ ∃ n ∈ (emittedModules s).1, p = modulePath n := by
  constructor
  · intro h
    by_contra hne
    rw [not_or] at hne
    have hnone := lookup_render_of_ne s hne.1 fun n hn hp => hne.2 ⟨n, hn, hp.symm⟩
    rw [← AList.lookup_isSome, hnone] at h
    simp at h
  · rintro (rfl | ⟨n, hn, rfl⟩)
    · rw [← AList.lookup_isSome, lookup_render_config]
      rfl
    · exact modulePath_mem_render.mpr hn

end McGateway.Operator
