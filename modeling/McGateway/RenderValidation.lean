import McGateway.ConfigValidation
import McGateway.RenderLiteral
import McGateway.RenderSpec

/-! # The renderer and the validator agree

The renderer checks resources before it prints them; the gateway checks the printed table again,
in another language and all or nothing.  Both checks are reduced to the same conditions on the
resources (`PoolShape`, `KeyspaceShape`, and distinctness of names and prefixes), from which
`render_agrees_with_validate` follows: what is emitted is accepted, and nothing that was left
out could have been added. -/

namespace McGateway.Operator

open Lua Config
open Bytes (ascii sortBy)

/-! ### Lists of strings -/

theorem ipairs_strings (items : List Bytes) :
    ipairs (ofList (items.map Value.str)) = items.map Value.str := by
  apply ipairs_ofList
  intro v hv
  obtain ⟨s, _, rfl⟩ := List.mem_map.mp hv
  simp

theorem len_strings (L : LengthOp) (items : List Bytes) :
    L.len (ofList (items.map Value.str)) = items.length := by
  rw [L.len_ofList, List.length_map]
  intro v hv
  obtain ⟨s, _, rfl⟩ := List.mem_map.mp hv
  simp

theorem nonemptyString_str (s : Bytes) (h : s ≠ []) : nonemptyString (.str s) = some s :=
  nonemptyString_eq_some.mpr ⟨rfl, h⟩

/-! ### Pools -/

theorem memberOf_optional {allowed : List Bytes} {s : Bytes} :
    (optionalValue (nonempty s) = .nil ∨ memberOf allowed (optionalValue (nonempty s)) = true) ↔
      (s = [] ∨ s ∈ allowed) := by
  unfold nonempty
  split_ifs with h
  · simp [optionalValue, memberOf, h]
  · simp only [ne_eq, not_not] at h
    simp [optionalValue, h]

theorem poolOk_iff {L : LengthOp} {p : Pool} {name : Bytes} {addrs : Table} :
    PoolOk L (poolFields p) name addrs ↔
      PoolShape p ∧ name = p.name ∧ addrs = ofList (p.spec.addrs.map Value.str) := by
  constructor
  · intro h
    have hn := h.name_eq
    rw [poolFields_name, nonemptyString_eq_some] at hn
    have ha := h.addrs_eq
    rw [poolFields_addrs, stringList, Value.table.injEq] at ha
    subst ha
    have hlen := h.addrs_len
    rw [len_strings] at hlen
    have haddr := h.addrs_ok
    rw [ipairs_strings] at haddr
    have hhash := h.hash_ok
    have hdist := h.dist_ok
    rw [poolFields_hash, memberOf_optional] at hhash
    rw [poolFields_dist, memberOf_optional] at hdist
    have hname : name = p.name := by simpa using hn.1.symm
    refine ⟨⟨by rw [← hname]; exact hn.2, fun h0 => hlen (by rw [h0]; rfl), ?_, hhash, hdist⟩, hname, rfl⟩
    intro a ha
    obtain ⟨s, hs⟩ := haddr (.str a) (List.mem_map_of_mem ha)
    have := nonemptyString_eq_some.mp hs
    simp only [Value.str.injEq] at this
    exact this.1 ▸ this.2
  · rintro ⟨hs, rfl, rfl⟩
    refine ⟨?_, poolFields_addrs p, ?_, ?_, ?_, ?_⟩
    · rw [poolFields_name]
      exact nonemptyString_str _ hs.name_ne
    · rw [len_strings]
      exact fun h => hs.addrs_ne (List.length_eq_zero_iff.mp h)
    · rw [ipairs_strings]
      intro a ha
      obtain ⟨s, hmem, rfl⟩ := List.mem_map.mp ha
      exact ⟨s, nonemptyString_str s (hs.addr_ne s hmem)⟩
    · rw [poolFields_hash, memberOf_optional]
      exact hs.hash_ok
    · rw [poolFields_dist, memberOf_optional]
      exact hs.dist_ok

theorem validatePool_poolValue {L : LengthOp} {p : Pool} {seen r : List Bytes} :
    validatePool L (poolValue p) seen = .ok r ↔
      PoolShape p ∧ p.name ∉ seen ∧ r = p.name :: seen := by
  rw [validatePool_ok]
  constructor
  · rintro ⟨t, name, addrs, ht, hok, hseen, rfl⟩
    obtain rfl : poolFields p = t := by simpa [poolValue] using ht
    obtain ⟨hs, rfl, -⟩ := poolOk_iff.mp hok
    exact ⟨hs, hseen, rfl⟩
  · rintro ⟨hs, hseen, rfl⟩
    exact ⟨_, _, _, rfl, poolOk_iff.mpr ⟨hs, rfl, rfl⟩, hseen, rfl⟩

/-- The validator accepts a list of pools when each has the right shape and the names are
distinct. -/
theorem validatePools_poolValue {L : LengthOp} : ∀ {ps : List Pool} {seen r : List Bytes},
    validatePools L (ps.map poolValue) seen = .ok r ↔
      (∀ p ∈ ps, PoolShape p) ∧ (ps.map Pool.name).Nodup ∧ (∀ p ∈ ps, p.name ∉ seen) ∧
        r = (ps.map Pool.name).reverse ++ seen
  | [], seen, r => by
      simp [validatePools, eq_comm]
  | p :: ps, seen, r => by
      simp only [List.map_cons, validatePools, bind_eq_ok, validatePool_poolValue,
        validatePools_poolValue]
      constructor
      · rintro ⟨_, ⟨hs, hseen, rfl⟩, hshape, hnd, hdisj, rfl⟩
        refine ⟨List.forall_mem_cons.mpr ⟨hs, hshape⟩, List.nodup_cons.mpr ⟨?_, hnd⟩, ?_, by simp⟩
        · intro hmem
          obtain ⟨q, hq, hqn⟩ := List.mem_map.mp hmem
          exact hdisj q hq (by rw [hqn]; exact List.mem_cons_self ..)
        · exact List.forall_mem_cons.mpr
            ⟨hseen, fun q hq hqs => hdisj q hq (List.mem_cons_of_mem _ hqs)⟩
      · rintro ⟨hshape, hnd, hdisj, rfl⟩
        obtain ⟨hs, hss⟩ := List.forall_mem_cons.mp hshape
        obtain ⟨hn, hns⟩ := List.nodup_cons.mp hnd
        obtain ⟨hd, hds⟩ := List.forall_mem_cons.mp hdisj
        refine ⟨_, ⟨hs, hd, rfl⟩, hss, hns, ?_, by simp⟩
        intro q hq hqs
        rcases List.mem_cons.mp hqs with heq | hqs
        · exact hn (heq ▸ List.mem_map_of_mem hq)
        · exact hds q hq hqs

/-! ### Keyspaces -/

/-- The validator accepts a printed pool list under the same conditions as the renderer. -/
theorem poolListOk_stringList {L : LengthOp} {list poolNames : List Bytes} :
    PoolListOk L (stringList list) poolNames ↔ PoolListShape poolNames list := by
  unfold PoolListOk stringList
  constructor
  · rintro ⟨t, names, ht, hlen, hok⟩
    obtain rfl : ofList (list.map Value.str) = t := by simpa using ht
    rw [len_strings] at hlen
    have hs := hok.strings
    rw [ipairs_strings, List.map_map] at hs
    have hall : ∀ n ∈ list, n ≠ [] := by
      intro n hn h0
      have hmem : (nonemptyString ∘ Value.str) n ∈ names.map some := by
        rw [← hs]
        exact List.mem_map_of_mem hn
      subst h0
      simp [nonemptyString] at hmem
    have hlist : list = names := by
      have e : list.map (nonemptyString ∘ Value.str) = list.map some := by
        apply List.map_congr_left
        intro n hn
        exact nonemptyString_str n (hall n hn)
      rw [e] at hs
      exact List.map_injective_iff.mpr (Option.some_injective _) hs
    subst hlist
    exact ⟨fun h0 => hlen (by rw [h0]; rfl), hall, hok.known, hok.nodup⟩
  · rintro ⟨h1, h2, h3, h4⟩
    refine ⟨_, list, rfl, ?_, ?_, h3, h4⟩
    · rw [len_strings]
      exact fun h => h1 (List.length_eq_zero_iff.mp h)
    · rw [ipairs_strings, List.map_map]
      apply List.map_congr_left
      intro n hn
      exact nonemptyString_str n (h2 n hn)

/-- The merge a keyspace dispatches through. -/
def mergeName (spec : KeyspaceSpec) : Bytes := (spec.merge.map MergeSpec.name).getD defaultMerge

theorem memberOf_policy (s : Bytes) :
    memberOf Config.validWritePolicy (orDefault defaultWritePolicy (optionalValue (nonempty s))) = true ↔
      s = [] ∨ s ∈ Operator.validWritePolicy := by
  unfold nonempty
  split_ifs with h
  · simp [optionalValue, orDefault, memberOf, h, Config.validWritePolicy, Operator.validWritePolicy]
  · simp only [ne_eq, not_not] at h
    simp [optionalValue, orDefault, memberOf, h, Config.validWritePolicy, defaultWritePolicy]

theorem orDefault_merge (spec : KeyspaceSpec) :
    orDefault defaultMerge (optionalValue (spec.merge.map MergeSpec.name)) = .str (mergeName spec) := by
  unfold mergeName
  cases spec.merge <;> rfl

/-- The validator's conditions on a printed keyspace. -/
theorem keyspaceOk_iff {L : LengthOp} {reg : Bytes → Option Bytes} {poolNames : List Bytes}
    {ks : Keyspace} {p : Bytes} : (∃ c, KeyspaceOk L reg poolNames (keyspaceFields ks) p c) ↔
      KeyspaceShape poolNames (fun n => (reg n).isSome) ks.spec ∧
        (reg (mergeName ks.spec)).isSome ∧ p = ks.spec.keyPrefix := by
  constructor
  · rintro ⟨c, h⟩
    obtain ⟨hp, hp0⟩ := nonemptyString_eq_some.mp h.prefix_eq
    rw [keyspaceFields_keyPrefix, Value.str.injEq] at hp
    subst hp
    have hread := h.read_ok
    have hwrite := h.write_ok
    have hpol := h.policy_ok
    rw [h.read_eq, keyspaceFields_read] at hread
    rw [h.write_eq, keyspaceFields_write] at hwrite
    rw [h.policy_eq, keyspaceFields_writePolicy, memberOf_policy] at hpol
    have hmerge := h.merge_eq
    rw [keyspaceFields_merge, orDefault_merge, Value.str.injEq] at hmerge
    have hreg : (reg (mergeName ks.spec)).isSome := by rw [hmerge, h.flags_eq]; rfl
    refine ⟨⟨hp0, h.no_colon, ?_, poolListOk_stringList.mp hread, poolListOk_stringList.mp hwrite,
      hpol, ?_⟩, hreg, rfl⟩
    · have := h.not_reserved
      simpa [reservedPrefixes, not_or] using this
    · intro m hm
      rw [mergeName, hm] at hreg
      exact hreg
  · rintro ⟨h, hreg, rfl⟩
    obtain ⟨flags, hflags⟩ := Option.isSome_iff_exists.mp hreg
    refine ⟨⟨stringList ks.spec.read, stringList ks.spec.write,
      orDefault defaultWritePolicy (rawget (keyspaceFields ks) (.str (ascii "write_policy"))),
      mergeName ks.spec, flags⟩, ?_, h.no_colon, ?_, ?_, ?_,
      poolListOk_stringList.mpr h.read_ok, poolListOk_stringList.mpr h.write_ok, rfl, ?_, ?_, hflags⟩
    · rw [keyspaceFields_keyPrefix]
      exact nonemptyString_str _ h.prefix_ne
    · simpa [reservedPrefixes, not_or] using h.not_reserved
    · rw [keyspaceFields_read]; rfl
    · rw [keyspaceFields_write]; rfl
    · rw [keyspaceFields_writePolicy, memberOf_policy]
      exact h.policy_ok
    · rw [keyspaceFields_merge, orDefault_merge]

theorem validateKeyspaces_keyspaceValue {L : LengthOp} {reg : Bytes → Option Bytes}
    {poolNames : List Bytes} : ∀ {kss : List Keyspace} {seen : List Bytes},
    (∃ cs, validateKeyspaces L reg poolNames (kss.map keyspaceValue) seen = .ok cs) ↔
      (∀ ks ∈ kss, KeyspaceShape poolNames (fun n => (reg n).isSome) ks.spec ∧
        (reg (mergeName ks.spec)).isSome) ∧
      (kss.map fun ks => ks.spec.keyPrefix).Nodup ∧ ∀ ks ∈ kss, ks.spec.keyPrefix ∉ seen
  | [], seen => by simp [validateKeyspaces]
  | ks :: kss, seen => by
      simp only [List.map_cons, validateKeyspaces, bind_eq_ok, pure_eq_ok]
      constructor
      · rintro ⟨cs, ⟨p, c⟩, hks, cs', hcs', rfl⟩
        obtain ⟨t, ht, hok, hseen⟩ := validateKeyspace_ok.mp hks
        obtain rfl : keyspaceFields ks = t := by simpa [keyspaceValue] using ht
        obtain ⟨hshape, hreg, rfl⟩ := keyspaceOk_iff.mp ⟨c, hok⟩
        obtain ⟨hall, hnd, hdisj⟩ := validateKeyspaces_keyspaceValue.mp ⟨cs', hcs'⟩
        refine ⟨List.forall_mem_cons.mpr ⟨⟨hshape, hreg⟩, hall⟩, List.nodup_cons.mpr ⟨?_, hnd⟩, ?_⟩
        · intro hmem
          obtain ⟨q, hq, hqp⟩ := List.mem_map.mp hmem
          exact hdisj q hq (by rw [hqp]; exact List.mem_cons_self ..)
        · exact List.forall_mem_cons.mpr
            ⟨hseen, fun q hq hqs => hdisj q hq (List.mem_cons_of_mem _ hqs)⟩
      · rintro ⟨hall, hnd, hdisj⟩
        obtain ⟨⟨hshape, hreg⟩, hall'⟩ := List.forall_mem_cons.mp hall
        obtain ⟨hn, hnd'⟩ := List.nodup_cons.mp hnd
        obtain ⟨hd, hdisj'⟩ := List.forall_mem_cons.mp hdisj
        obtain ⟨c, hc⟩ := keyspaceOk_iff.mpr ⟨hshape, hreg, rfl⟩
        have hks := validateKeyspace_ok.mpr ⟨_, rfl, hc, hd⟩
        have hdisj'' : ∀ q ∈ kss, q.spec.keyPrefix ∉ ks.spec.keyPrefix :: seen := by
          intro q hq hqs
          rcases List.mem_cons.mp hqs with heq | hqs
          · exact hn (List.mem_map.mpr ⟨q, hq, heq⟩)
          · exact hdisj' q hq hqs
        obtain ⟨cs, hcs⟩ := validateKeyspaces_keyspaceValue.mpr ⟨hall', hnd', hdisj''⟩
        exact ⟨c :: cs, (_, c), hks, cs, hcs, rfl⟩

/-- Only membership in the pool names matters. -/
theorem KeyspaceShape.mono {poolNames poolNames' : List Bytes} {resolves resolves' : Bytes → Prop}
    {spec : KeyspaceSpec} (h : KeyspaceShape poolNames resolves spec)
    (hp : ∀ n ∈ poolNames, n ∈ poolNames') (hr : ∀ n, resolves n → resolves' n) :
    KeyspaceShape poolNames' resolves' spec := by
  have widen : ∀ {list : List Bytes}, PoolListShape poolNames list → PoolListShape poolNames' list :=
    fun hl => ⟨hl.ne, hl.name_ne, fun n hn => hp n (hl.known n hn), hl.nodup⟩
  exact ⟨h.prefix_ne, h.no_colon, h.not_reserved, widen h.read_ok, widen h.write_ok, h.policy_ok,
    fun m hm => hr _ (h.merge_ok m hm)⟩

theorem ipairs_poolValues (ps : List Pool) :
    ipairs (ofList (ps.map poolValue)) = ps.map poolValue := by
  apply ipairs_ofList
  intro v hv
  obtain ⟨p, _, rfl⟩ := List.mem_map.mp hv
  simp [poolValue]

theorem ipairs_keyspaceValues (kss : List Keyspace) :
    ipairs (ofList (kss.map keyspaceValue)) = kss.map keyspaceValue := by
  apply ipairs_ofList
  intro v hv
  obtain ⟨ks, _, rfl⟩ := List.mem_map.mp hv
  simp [keyspaceValue]

/-- The conditions under which the validator accepts a printed configuration. -/
structure ConfigShape (resolves : Bytes → Prop) (ps : List Pool) (kss : List Keyspace) : Prop where
  pools : ∀ p ∈ ps, PoolShape p
  pools_nodup : (ps.map Pool.name).Nodup
  keyspaces : ∀ ks ∈ kss, KeyspaceShape (ps.map Pool.name) resolves ks.spec
  merges : ∀ ks ∈ kss, resolves (mergeName ks.spec)
  keyspaces_nodup : (kss.map fun ks => ks.spec.keyPrefix).Nodup

/-- The validator's verdict on a printed configuration, in terms of the resources. -/
theorem accepts_configValue {L : LengthOp} {reg : Bytes → Option Bytes} {ps : List Pool}
    {kss : List Keyspace} :
    Accepts L reg (configValue ps kss) ↔ ConfigShape (fun n => (reg n).isSome) ps kss := by
  have hps : rawget (configFields ps kss) (.str (ascii "pools")) = .table (ofList (ps.map poolValue)) := by
    rfl
  have hks : rawget (configFields ps kss) (.str (ascii "keyspaces")) =
      .table (ofList (kss.map keyspaceValue)) := by
    rfl
  have hnames : ∀ n, n ∈ (ps.map Pool.name).reverse ++ [] ↔ n ∈ ps.map Pool.name := by simp
  constructor
  · rintro ⟨cfg', h⟩
    obtain ⟨c, pools, keyspaces, poolNames, cs, hc, hp, hk, hvp, hvk, -⟩ := validate_ok.mp h
    obtain rfl : configFields ps kss = c := by simpa [configValue] using hc
    rw [hps, Value.table.injEq] at hp
    rw [hks, Value.table.injEq] at hk
    subst hp hk
    rw [ipairs_poolValues, validatePools_poolValue] at hvp
    obtain ⟨hshape, hnd, -, rfl⟩ := hvp
    rw [ipairs_keyspaceValues] at hvk
    obtain ⟨hall, hnd', -⟩ := validateKeyspaces_keyspaceValue.mp ⟨cs, hvk⟩
    exact ⟨hshape, hnd, fun ks hmem => (hall ks hmem).1.mono (fun n => (hnames n).mp) fun _ => id,
      fun ks hmem => (hall ks hmem).2, hnd'⟩
  · intro h
    have hvp : validatePools L (ps.map poolValue) [] = .ok ((ps.map Pool.name).reverse ++ []) :=
      validatePools_poolValue.mpr ⟨h.pools, h.pools_nodup, by simp, rfl⟩
    have hvk : ∃ cs, validateKeyspaces L reg ((ps.map Pool.name).reverse ++ [])
        (kss.map keyspaceValue) [] = .ok cs :=
      validateKeyspaces_keyspaceValue.mpr
        ⟨fun ks hmem => ⟨(h.keyspaces ks hmem).mono (fun n => (hnames n).mpr) fun _ => id,
          h.merges ks hmem⟩, h.keyspaces_nodup, by simp⟩
    obtain ⟨cs, hvk⟩ := hvk
    exact ⟨_, validate_ok.mpr ⟨_, _, _, _, cs, rfl, hps, hks, by rw [ipairs_poolValues]; exact hvp,
      by rw [ipairs_keyspaceValues]; exact hvk, rfl⟩⟩

/-- The merge names a printed configuration refers to. -/
theorem mergeNames_configValue (ps : List Pool) (kss : List Keyspace) :
    mergeNames (configValue ps kss) = kss.map fun ks => mergeName ks.spec := by
  have hks : rawget (configFields ps kss) (.str (ascii "keyspaces")) =
      .table (ofList (kss.map keyspaceValue)) := by
    rfl
  have hentry : ∀ ks, entryMerge (keyspaceValue ks) = some (mergeName ks.spec) := by
    intro ks
    simp only [entryMerge, keyspaceValue, keyspaceFields_merge, orDefault_merge, asString]
  unfold mergeNames configValue
  simp only [hks, ipairs_keyspaceValues, List.filterMap_map]
  rw [← List.filterMap_eq_map]
  exact List.filterMap_congr fun ks _ => hentry ks

/-! ### Agreement -/

/-- The bytes are a Lua literal that the validator accepts. -/
def AcceptsBytes (L : LengthOp) (reg : Bytes → Option Bytes) (bytes : Bytes) : Prop :=
  ∃ cfg, loadLiteral bytes = some cfg ∧ Accepts L reg cfg

theorem acceptsBytes_renderConfig {L : LengthOp} {reg : Bytes → Option Bytes} {ps : List Pool}
    {kss : List Keyspace} :
    AcceptsBytes L reg (renderConfig ps kss) ↔ ConfigShape (fun n => (reg n).isSome) ps kss := by
  unfold AcceptsBytes
  simp only [loadLiteral_renderConfig, Option.some.injEq, exists_eq_left', accepts_configValue]

/-- The emitted configuration has the required shape under any registry that resolves the merge
names its keyspaces use. -/
theorem configShape_emitted {resolves : Bytes → Prop} {s : Snapshot}
    (hres : ∀ ks ∈ (emittedKeyspaces s).1, resolves (mergeName ks.spec)) :
    ConfigShape resolves (emittedPools s).1 (emittedKeyspaces s).1 := by
  have hspec := emittedKeyspaces_spec s
  refine ⟨fun p hp => (mem_emittedPools.mp hp).2.2, emittedPools_names_nodup s, ?_, hres, hspec.nodup⟩
  intro ks hks
  have h := hspec.admissible ks hks
  refine ⟨h.prefix_ne, h.no_colon, h.not_reserved, h.read_ok, h.write_ok, h.policy_ok, ?_⟩
  intro m hm
  have := hres ks hks
  rwa [mergeName, hm] at this

theorem mergeName_emitted {s : Snapshot} {ks : Keyspace} (h : Admissible s ks) :
    mergeName ks.spec ∈ builtinMerges ∨ mergeName ks.spec ∈ (emittedModules s).1 := by
  cases hm : ks.spec.merge with
  | none =>
      left
      rw [mergeName, hm]
      decide
  | some m =>
      rw [mergeName, hm]
      exact h.merge_ok m hm

/-- The renderer and the validator agree: the emitted configuration is accepted, and adding any
pool or keyspace that was skipped makes the validator refuse the whole file. -/
theorem render_agrees_with_validate (L : LengthOp) (reg : Bytes → Option Bytes) (s : Snapshot)
    (hp : (s.pools.map Pool.name).Nodup) (hk : (s.keyspaces.map Keyspace.name).Nodup)
    (hreg : ∀ n, (reg n).isSome ↔ n ∈ builtinMerges ∨ modulePath n ∈ (render s).1) :
    (∃ bytes, (render s).1.lookup configFile = some bytes ∧ AcceptsBytes L reg bytes) ∧
    (∀ p ∈ s.pools, p ∉ (emittedPools s).1 →
      ¬ AcceptsBytes L reg (renderConfig ((emittedPools s).1 ++ [p]) (emittedKeyspaces s).1)) ∧
    ∀ ks ∈ s.keyspaces, ks ∉ (emittedKeyspaces s).1 →
      ¬ AcceptsBytes L reg (renderConfig (emittedPools s).1 ((emittedKeyspaces s).1 ++ [ks])) := by
  have hspec := emittedKeyspaces_spec s
  refine ⟨⟨configBytes s, lookup_render_config s, ?_⟩, ?_, ?_⟩
  · apply acceptsBytes_renderConfig.mpr
    apply configShape_emitted
    intro ks hks
    rw [hreg, modulePath_mem_render]
    exact mergeName_emitted (hspec.admissible ks hks)
  · intro p hps hskip hacc
    have h := acceptsBytes_renderConfig.mp hacc
    have hshape := h.pools p (by simp)
    have hcount := List.count_eq_one_of_mem hp (List.mem_map_of_mem hps)
    exact hskip (mem_emittedPools.mpr ⟨hps, hcount, hshape⟩)
  · intro ks hks hskip hacc
    have h := acceptsBytes_renderConfig.mp hacc
    have hshape : Admissible s ks := by
      refine (h.keyspaces ks (by simp)).mono (fun _ => id) fun n hn => ?_
      rwa [hreg, modulePath_mem_render] at hn
    have huniq : ks ∈ (uniqueKeyspaces s).1 := by
      rw [uniqueKeyspaces, dedupByName_of_nodup _ _ _ _ hk]
      exact hks
    obtain ⟨ks', hks', hprefix, -⟩ := hspec.first ks huniq hshape
    have hnd := h.keyspaces_nodup
    rw [List.map_append, List.nodup_append] at hnd
    exact hnd.2.2 _ (List.mem_map_of_mem hks') _ (by simp) hprefix

/-- A pool without addresses. -/
def emptyPool : Pool := ⟨ascii "b", ⟨[], [], []⟩⟩

/-- A keyspace on the prefix `x`, under a given resource name. -/
def inlineKeyspace (name : Bytes) : Keyspace :=
  ⟨name, ⟨ascii "x", [ascii "a"], [ascii "a"], [], some ⟨ascii "udf1", [0, 97]⟩⟩⟩

/-- One good and one bad pool; two keyspaces competing for a prefix. -/
def contestedSnapshot : Snapshot :=
  ⟨[emptyPool, ⟨ascii "a", ⟨[ascii "h:1"], ascii "md5", []⟩⟩],
    [inlineKeyspace (ascii "k2"), inlineKeyspace (ascii "k1")]⟩

/-- The registry of exactly the built-ins and the emitted modules. -/
def registryOf (s : Snapshot) (n : Bytes) : Option Bytes :=
  if n ∈ builtinMerges ∨ modulePath n ∈ (render s).1 then some [] else none

theorem render_agrees_with_validate_contested :
    AcceptsBytes .least (registryOf contestedSnapshot) (configBytes contestedSnapshot) ∧
    ¬ AcceptsBytes .least (registryOf contestedSnapshot)
      (renderConfig ((emittedPools contestedSnapshot).1 ++ [emptyPool])
        (emittedKeyspaces contestedSnapshot).1) ∧
    ¬ AcceptsBytes .least (registryOf contestedSnapshot)
      (renderConfig (emittedPools contestedSnapshot).1
        ((emittedKeyspaces contestedSnapshot).1 ++ [inlineKeyspace (ascii "k2")])) := by
  obtain ⟨⟨bytes, hfile, hacc⟩, hpools, hkeyspaces⟩ :=
    render_agrees_with_validate .least (registryOf contestedSnapshot) contestedSnapshot
      (by decide) (by decide) (by intro n; unfold registryOf; split_ifs <;> simp_all)
  rw [lookup_render_config, Option.some.injEq] at hfile
  subst hfile
  exact ⟨hacc, hpools _ (by decide) (by decide), hkeyspaces _ (by decide) (by decide)⟩

end McGateway.Operator
