import McGateway.RenderValidation

/-! # Rendering does not depend on the input order

The loops of `render.go` pick winners and report skips in the order in which they meet the
resources.  Every loop runs over a list that was sorted by name after the contested names had been
dropped, and such a list is determined by the set of its elements; so the files and the warnings,
in their order, are the same for every order of the pools and of the keyspaces. -/

namespace McGateway.Operator

open Bytes (ascii sortBy)

/-! ### Duplicate names -/

section dedup
variable {α : Type} {name : α → Bytes} {xs ys : List α}

theorem count_name_eq (h : xs.Perm ys) (n : Bytes) : (xs.map name).count n = (ys.map name).count n :=
  (h.map name).count_eq n

theorem contestedNames_eq_of_perm (h : xs.Perm ys) : contestedNames name xs = contestedNames name ys := by
  unfold contestedNames
  simp only [count_name_eq h]
  apply Bytes.sortBy_eq_of_perm id
  · exact ((h.map name).dedup).filter _
  · rw [List.map_id]
    exact (List.nodup_dedup _).filter _

/-- The survivors are the same up to their order, and the warnings are the same. -/
theorem dedupByName_perm (name : α → Bytes) (kind : Kind) (warns : List Warning) (h : xs.Perm ys) :
    (dedupByName kind name xs warns).1.Perm (dedupByName kind name ys warns).1 ∧
      (dedupByName kind name xs warns).2 = (dedupByName kind name ys warns).2 := by
  simp only [dedupByName, contestedNames_eq_of_perm h, count_name_eq h]
  exact ⟨h.filter _, trivial⟩

end dedup

/-! ### The loops -/

theorem renderablePools_eq_of_perm {ps qs : List Pool} (h : ps.Perm qs) (hn : (ps.map Pool.name).Nodup)
    (warns : List Warning) : renderablePools ps warns = renderablePools qs warns := by
  unfold renderablePools
  rw [Bytes.sortBy_eq_of_perm Pool.name h hn]

theorem collectModules_eq_of_perm {ks ks' : List Keyspace} (h : ks.Perm ks')
    (hn : (ks.map Keyspace.name).Nodup) (warns : List Warning) :
    collectModules ks warns = collectModules ks' warns := by
  unfold collectModules
  rw [Bytes.sortBy_eq_of_perm Keyspace.name h hn]

theorem renderableKeyspaces_eq_of_perm {ks ks' : List Keyspace} (h : ks.Perm ks')
    (hn : (ks.map Keyspace.name).Nodup) (poolNames : List Bytes) (modules : ByteMap Bytes)
    (warns : List Warning) :
    renderableKeyspaces ks poolNames modules warns = renderableKeyspaces ks' poolNames modules warns := by
  unfold renderableKeyspaces
  rw [Bytes.sortBy_eq_of_perm Keyspace.name h hn]

/-! ### Rendering -/

section render
variable {s s' : Snapshot}

theorem emittedPools_eq_of_perm (hp : s.pools.Perm s'.pools) : emittedPools s = emittedPools s' := by
  obtain ⟨hperm, hwarns⟩ := dedupByName_perm Pool.name .pool [] hp
  unfold emittedPools
  simp only
  rw [← hwarns]
  exact renderablePools_eq_of_perm hperm (dedupByName_nodup ..) _

theorem uniqueKeyspaces_perm (hp : s.pools.Perm s'.pools) (hk : s.keyspaces.Perm s'.keyspaces) :
    (uniqueKeyspaces s).1.Perm (uniqueKeyspaces s').1 ∧ (uniqueKeyspaces s).2 = (uniqueKeyspaces s').2 := by
  unfold uniqueKeyspaces
  rw [emittedPools_eq_of_perm hp]
  exact dedupByName_perm Keyspace.name .keyspace _ hk

theorem emittedModules_eq_of_perm (hp : s.pools.Perm s'.pools) (hk : s.keyspaces.Perm s'.keyspaces) :
    emittedModules s = emittedModules s' := by
  obtain ⟨hperm, hwarns⟩ := uniqueKeyspaces_perm hp hk
  unfold emittedModules
  rw [← hwarns]
  exact collectModules_eq_of_perm hperm (dedupByName_nodup ..) _

theorem emittedKeyspaces_eq_of_perm (hp : s.pools.Perm s'.pools) (hk : s.keyspaces.Perm s'.keyspaces) :
    emittedKeyspaces s = emittedKeyspaces s' := by
  obtain ⟨hperm, -⟩ := uniqueKeyspaces_perm hp hk
  unfold emittedKeyspaces
  rw [emittedPools_eq_of_perm hp, emittedModules_eq_of_perm hp hk]
  exact renderableKeyspaces_eq_of_perm hperm (dedupByName_nodup ..) _ _ _

theorem render_eq_of_perm (hp : s.pools.Perm s'.pools) (hk : s.keyspaces.Perm s'.keyspaces) :
    render s = render s' := by
  unfold render configBytes
  rw [emittedPools_eq_of_perm hp, emittedModules_eq_of_perm hp hk, emittedKeyspaces_eq_of_perm hp hk]

end render

/-- The files and the list of warnings do not depend on the order of the pools and keyspaces. -/
theorem render_order_independent (s : Snapshot) {pools : List Pool} {keyspaces : List Keyspace}
    (hp : pools.Perm s.pools) (hk : keyspaces.Perm s.keyspaces) :
    (∀ path, (render ⟨pools, keyspaces⟩).1.lookup path = (render s).1.lookup path) ∧
      (render ⟨pools, keyspaces⟩).2 = (render s).2 := by
  have h : render ⟨pools, keyspaces⟩ = render s := render_eq_of_perm hp hk
  rw [h]
  exact ⟨fun _ => rfl, rfl⟩

theorem render_order_independent_contested :
    (render ⟨contestedSnapshot.pools.reverse, contestedSnapshot.keyspaces.reverse⟩).1.lookup configFile =
        (render contestedSnapshot).1.lookup configFile ∧
      (render ⟨contestedSnapshot.pools.reverse, contestedSnapshot.keyspaces.reverse⟩).2 =
        (render contestedSnapshot).2 := by
  obtain ⟨hfiles, hwarns⟩ := render_order_independent contestedSnapshot
    (List.reverse_perm _) (List.reverse_perm _)
  exact ⟨hfiles _, hwarns⟩

end McGateway.Operator
