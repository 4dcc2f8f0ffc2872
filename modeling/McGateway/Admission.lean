import McGateway.RenderEmission

/-! # Warnings, and what the API server admits (`render.go`, `types.go`)

A resource that the renderer does not honour is reported, and nothing else is.  `render_warns_exactly`
says for which names there is a warning, and that each warning is true (`Grounds`).  It holds for every
snapshot, also one that no API server has seen.

Behind an API server the resources have passed the schemas of `types.go` (`PoolAdmitted`,
`KeyspaceAdmitted`).  The renderer checks again what the schemas check, and more.  `admitted_render` says
that the first part is never at fault there: every pool is rendered, and a keyspace is passed over only
for a pool or a merge that does not exist, or for a prefix that is taken. -/

namespace McGateway.Operator

open Bytes (ascii sortBy)
open Selections (Reporting)

/-! ### What the warnings say -/

/-- What a warning says of a pool. -/
inductive PoolMessage (p : Pool) : Message → Prop where
  | emptyName (h : p.name = []) : PoolMessage p .emptyName
  | noAddrs (h : p.spec.addrs = []) : PoolMessage p .noAddrs
  | emptyAddr (i : ℕ) (h : p.spec.addrs[i]? = some []) : PoolMessage p (.emptyAddr i)
  | invalidHash (hset : p.spec.hash ≠ []) (h : p.spec.hash ∉ validHash) : PoolMessage p (.invalidHash p.spec.hash)
  | invalidDist (hset : p.spec.dist ≠ []) (h : p.spec.dist ∉ validDist) : PoolMessage p (.invalidDist p.spec.dist)

/-- What is said of a list of pool names. -/
inductive PoolListMessage (poolNames list : List Bytes) (field : ListField) : PoolListProblem → Prop where
  | noPools (h : list = []) : PoolListMessage poolNames list field (.noPools field)
  | emptyItem (i : ℕ) (h : list[i]? = some []) : PoolListMessage poolNames list field (.emptyItem field i)
  | unknownPool (i : ℕ) (name : Bytes) (h : list[i]? = some name) (hunknown : name ∉ poolNames) :
      PoolListMessage poolNames list field (.unknownPool field i name)
  | listedTwice (name : Bytes) (h : 1 < list.count name) : PoolListMessage poolNames list field (.listedTwice field name)

def KeyspaceSpec.pools (spec : KeyspaceSpec) : ListField → List Bytes
  | .read => spec.read
  | .write => spec.write

/-- What a warning says of a keyspace that is passed over for `out`. -/
inductive KeyspaceMessage (poolNames : List Bytes) (resolves : Bytes → Prop) (out : List Keyspace) (ks : Keyspace) :
    Message → Prop where
  | emptyPrefix (h : ks.spec.keyPrefix = []) : KeyspaceMessage poolNames resolves out ks .emptyPrefix
  | colonPrefix (h : 58 ∈ ks.spec.keyPrefix) :
      KeyspaceMessage poolNames resolves out ks (.colonPrefix ks.spec.keyPrefix)
  | reservedPrefix (h : ks.spec.keyPrefix ∈ reservedPrefixes) :
      KeyspaceMessage poolNames resolves out ks (.reservedPrefix ks.spec.keyPrefix)
  | duplicatePrefix (first : Keyspace) (h : first ∈ out) (hkey : first.spec.keyPrefix = ks.spec.keyPrefix)
      (hname : first.name < ks.name) : KeyspaceMessage poolNames resolves out ks (.duplicatePrefix ks.spec.keyPrefix)
  | poolList (field : ListField) (e : PoolListProblem) (h : PoolListMessage poolNames (ks.spec.pools field) field e) :
      KeyspaceMessage poolNames resolves out ks (.poolList e)
  | invalidWritePolicy (hset : ks.spec.writePolicy ≠ []) (h : ks.spec.writePolicy ∉ validWritePolicy) :
      KeyspaceMessage poolNames resolves out ks (.invalidWritePolicy ks.spec.writePolicy)
  | unknownMerge (m : MergeSpec) (hm : ks.spec.merge = some m) (h : ¬resolves m.name) :
      KeyspaceMessage poolNames resolves out ks (.unknownMerge m.name)

/-- What a warning says of an inline module; `lookup` is the bytes that are published under a name. -/
inductive ModuleMessage (lookup : Bytes → Option Bytes) (m : MergeSpec) : Message → Prop where
  | name (h : safeModuleName m.name = false) : ModuleMessage lookup m (.moduleName m.name)
  | builtin (h : m.name ∈ builtinMerges) : ModuleMessage lookup m (.moduleBuiltin m.name)
  | conflict (other : Bytes) (h : lookup m.name = some other) (hne : other ≠ m.wasm) :
      ModuleMessage lookup m (.moduleConflict m.name)

/-- A warning is about a resource of the snapshot, and says the truth about it. -/
inductive Grounds (s : Snapshot) (pools : List Pool) (keyspaces : List Keyspace) : Warning → Prop where
  | sharedPools (name : Bytes) (h : 1 < (s.pools.map Pool.name).count name) :
      Grounds s pools keyspaces ⟨.pool, name, .sharedName ((s.pools.map Pool.name).count name) .pool⟩
  | sharedKeyspaces (name : Bytes) (h : 1 < (s.keyspaces.map Keyspace.name).count name) :
      Grounds s pools keyspaces ⟨.keyspace, name, .sharedName ((s.keyspaces.map Keyspace.name).count name) .keyspace⟩
  | pool (p : Pool) (msg : Message) (hunique : UniqueName Pool.name s.pools p) (h : PoolMessage p msg) :
      Grounds s pools keyspaces ⟨.pool, p.name, msg⟩
  | inlined (ks : Keyspace) (m : MergeSpec) (msg : Message) (hunique : UniqueName Keyspace.name s.keyspaces ks)
      (hm : ks.spec.merge = some m) (hbytes : m.wasm ≠ [])
      (h : ModuleMessage (fun n => (render s).1.lookup (modulePath n)) m msg) :
      Grounds s pools keyspaces ⟨.keyspace, ks.name, msg⟩
  | keyspace (ks : Keyspace) (msg : Message) (hunique : UniqueName Keyspace.name s.keyspaces ks)
      (h : KeyspaceMessage (pools.map Pool.name) (fun n => n ∈ builtinMerges ∨ modulePath n ∈ (render s).1)
        keyspaces ks msg) :
      Grounds s pools keyspaces ⟨.keyspace, ks.name, msg⟩

/-- There is a warning about a resource of this kind and name. -/
def Reported (s : Snapshot) (kind : Kind) (name : Bytes) : Prop :=
  ∃ w ∈ (render s).2, w.kind = kind ∧ w.name = name

/-- The keyspace inlines a module, and the tree does not have its bytes. -/
def Unpublished (s : Snapshot) (ks : Keyspace) : Prop :=
  ∃ m, ks.spec.merge = some m ∧ m.wasm ≠ [] ∧ (render s).1.lookup (modulePath m.name) ≠ some m.wasm

/-! ### The checks -/

theorem poolProblem_message {p : Pool} {msg : Message} (h : poolProblem p = some msg) : PoolMessage p msg := by
  unfold poolProblem at h
  cases hbad : firstBad p.spec.addrs with
  | some i =>
      have hi : p.spec.addrs[i]? = some [] := by
        obtain ⟨hlt, hempty, -⟩ := List.findIdx?_eq_some_iff_getElem.mp hbad
        rw [List.getElem?_eq_getElem hlt, of_decide_eq_true hempty]
      simp only [hbad] at h
      split_ifs at h with hname haddrs
      · exact Option.some.inj h ▸ .emptyName hname
      · exact Option.some.inj h ▸ .noAddrs haddrs
      · exact Option.some.inj h ▸ .emptyAddr i hi
  | none =>
      simp only [hbad] at h
      split_ifs at h with hname haddrs hhash hdist
      · exact Option.some.inj h ▸ .emptyName hname
      · exact Option.some.inj h ▸ .noAddrs haddrs
      · exact Option.some.inj h ▸ .invalidHash hhash.1 hhash.2
      · exact Option.some.inj h ▸ .invalidDist hdist.1 hdist.2

theorem PoolMessage.not_shape {p : Pool} {msg : Message} (h : PoolMessage p msg) : ¬PoolShape p := by
  intro hshape
  cases h with
  | emptyName h => exact hshape.name_ne h
  | noAddrs h => exact hshape.addrs_ne h
  | emptyAddr i h => exact hshape.addr_ne [] (List.mem_of_getElem? h) rfl
  | invalidHash hset h => exact hshape.hash_ok.elim hset h
  | invalidDist hset h => exact hshape.dist_ok.elim hset h

/-- `front` has been visited; what has been seen is part of it. -/
theorem checkPoolItems_message {field : ListField} {poolNames : List Bytes} {e : PoolListProblem} :
    ∀ (rest front seen : List Bytes), (∀ n ∈ seen, n ∈ front) →
      checkPoolItems field poolNames front.length seen rest = some e → PoolListMessage poolNames (front ++ rest) field e
  | [], _, _, _, h => by cases h
  | name :: rest, front, seen, hseen, h => by
      have hget : (front ++ name :: rest)[front.length]? = some name := by simp
      unfold checkPoolItems at h
      by_cases hempty : name = []
      · rw [if_pos hempty] at h
        exact Option.some.inj h ▸ .emptyItem front.length (hempty ▸ hget)
      rw [if_neg hempty] at h
      by_cases hunknown : name ∉ poolNames
      · rw [if_pos hunknown] at h
        exact Option.some.inj h ▸ .unknownPool front.length name hget hunknown
      rw [if_neg hunknown] at h
      by_cases htwice : name ∈ seen
      · rw [if_pos htwice] at h
        refine Option.some.inj h ▸ .listedTwice name ?_
        have hfront : 0 < front.count name := List.count_pos_iff.mpr (hseen name htwice)
        rw [List.count_append, List.count_cons_self]
        omega
      · rw [if_neg htwice] at h
        have hnext : ∀ n ∈ name :: seen, n ∈ front ++ [name] := by
          intro n hn
          rcases List.mem_cons.mp hn with rfl | hn
          · simp
          · exact List.mem_append_left _ (hseen n hn)
        have hrest := checkPoolItems_message rest (front ++ [name]) (name :: seen) hnext (by simpa using h)
        simpa using hrest

theorem checkPoolList_message {field : ListField} {list poolNames : List Bytes} {e : PoolListProblem}
    (h : checkPoolList field list poolNames = some e) : PoolListMessage poolNames list field e := by
  unfold checkPoolList at h
  split_ifs at h with hempty
  · exact Option.some.inj h ▸ .noPools hempty
  · exact checkPoolItems_message list [] [] (by simp) h

theorem PoolListMessage.not_shape {poolNames list : List Bytes} {field : ListField} {e : PoolListProblem}
    (h : PoolListMessage poolNames list field e) : ¬PoolListShape poolNames list := by
  intro hshape
  cases h with
  | noPools h => exact hshape.ne h
  | emptyItem i h => exact hshape.name_ne [] (List.mem_of_getElem? h) rfl
  | unknownPool i name h hunknown => exact hunknown (hshape.known name (List.mem_of_getElem? h))
  | listedTwice name h => exact absurd (List.nodup_iff_count_le_one.mp hshape.nodup name) (by omega)

section keyspaces
variable {poolNames : List Bytes} {modules : ByteMap Bytes} {resolves : Bytes → Prop} {out : List Keyspace}
  {ks : Keyspace} {msg : Message}

theorem keyspaceProblem_message {seenPrefix : List Bytes}
    (hseen : ∀ q ∈ seenPrefix, ∃ first ∈ out, first.spec.keyPrefix = q ∧ first.name < ks.name)
    (h : keyspaceProblem poolNames modules seenPrefix ks.spec = some msg) :
    KeyspaceMessage poolNames (fun n => n ∈ builtinMerges ∨ n ∈ modules) out ks msg := by
  unfold keyspaceProblem at h
  by_cases hempty : ks.spec.keyPrefix = []
  · rw [if_pos hempty] at h
    exact Option.some.inj h ▸ .emptyPrefix hempty
  by_cases hcolon : 58 ∈ ks.spec.keyPrefix
  · rw [if_neg hempty, if_pos hcolon] at h
    exact Option.some.inj h ▸ .colonPrefix hcolon
  by_cases hreserved : ks.spec.keyPrefix ∈ reservedPrefixes
  · rw [if_neg hempty, if_neg hcolon, if_pos hreserved] at h
    exact Option.some.inj h ▸ .reservedPrefix hreserved
  by_cases htaken : ks.spec.keyPrefix ∈ seenPrefix
  · rw [if_neg hempty, if_neg hcolon, if_neg hreserved, if_pos htaken] at h
    obtain ⟨first, hfirst, hkey, hname⟩ := hseen _ htaken
    exact Option.some.inj h ▸ .duplicatePrefix first hfirst hkey hname
  rw [if_neg hempty, if_neg hcolon, if_neg hreserved, if_neg htaken] at h
  cases hr : checkPoolList .read ks.spec.read poolNames with
  | some e =>
      simp only [hr] at h
      exact Option.some.inj h ▸ .poolList .read e (checkPoolList_message hr)
  | none =>
  cases hw : checkPoolList .write ks.spec.write poolNames with
  | some e =>
      simp only [hr, hw] at h
      exact Option.some.inj h ▸ .poolList .write e (checkPoolList_message hw)
  | none =>
  simp only [hr, hw] at h
  by_cases hpolicy : ks.spec.writePolicy ≠ [] ∧ ks.spec.writePolicy ∉ validWritePolicy
  · rw [if_pos hpolicy] at h
    exact Option.some.inj h ▸ .invalidWritePolicy hpolicy.1 hpolicy.2
  rw [if_neg hpolicy] at h
  cases hm : ks.spec.merge with
  | none =>
      simp only [hm] at h
      cases h
  | some m =>
      simp only [hm] at h
      split_ifs at h with hunknown
      exact Option.some.inj h ▸ .unknownMerge m hm (not_or.mpr hunknown)

theorem KeyspaceMessage.mono {out' : List Keyspace} (h : KeyspaceMessage poolNames resolves out ks msg)
    (hsub : ∀ k ∈ out, k ∈ out') : KeyspaceMessage poolNames resolves out' ks msg := by
  cases h with
  | emptyPrefix h => exact .emptyPrefix h
  | colonPrefix h => exact .colonPrefix h
  | reservedPrefix h => exact .reservedPrefix h
  | duplicatePrefix first h hkey hname => exact .duplicatePrefix first (hsub first h) hkey hname
  | poolList field e h => exact .poolList field e h
  | invalidWritePolicy hset h => exact .invalidWritePolicy hset h
  | unknownMerge m hm h => exact .unknownMerge m hm h

/-- The checks that a warning names are those that the keyspace fails, unless its prefix is taken. -/
theorem KeyspaceMessage.not_shape (h : KeyspaceMessage poolNames resolves out ks msg) :
    ¬KeyspaceShape poolNames resolves ks.spec ∨
      ∃ first ∈ out, first.spec.keyPrefix = ks.spec.keyPrefix ∧ first.name < ks.name := by
  cases h with
  | duplicatePrefix first h hkey hname => exact Or.inr ⟨first, h, hkey, hname⟩
  | emptyPrefix h => exact Or.inl fun hshape => hshape.prefix_ne h
  | colonPrefix h => exact Or.inl fun hshape => hshape.no_colon h
  | reservedPrefix h => exact Or.inl fun hshape => hshape.not_reserved h
  | poolList field e h =>
      left
      intro hshape
      cases field with
      | read => exact h.not_shape hshape.read_ok
      | write => exact h.not_shape hshape.write_ok
  | invalidWritePolicy hset h => exact Or.inl fun hshape => hshape.policy_ok.elim hset h
  | unknownMerge m hm h => exact Or.inl fun hshape => h (hshape.merge_ok m hm)

end keyspaces

/-! ### The loops -/

/-- A round of the loop over the pools. -/
theorem poolStep_reporting (l : List Pool) : Reporting l (fun _ _ => True) poolStep Prod.snd
    (fun acc p => p ∈ acc.1) fun _ p w => ∃ msg, w = ⟨.pool, p.name, msg⟩ ∧ PoolMessage p msg where
  inv _ _ _ _ _ := trivial
  round _ acc p _ _ := by
    unfold poolStep
    cases hp : poolProblem p with
    | none => exact Or.inl ⟨rfl, by simp⟩
    | some msg => exact Or.inr ⟨_, rfl, msg, rfl, poolProblem_message hp⟩
  fine acc p q h := by
    unfold poolStep
    cases poolProblem q with
    | none => exact List.mem_append_left _ h
    | some msg => exact h
  about _ _ _ _ h := h

/-- A keyspace whose inline module, if it has one, is published with its bytes. -/
def Published (lookup : Bytes → Option Bytes) (ks : Keyspace) : Prop :=
  ∀ m, ks.spec.merge = some m → m.wasm ≠ [] → lookup m.name = some m.wasm

/-- What is published stays. -/
theorem lookup_moduleStep_of_some {acc : ByteMap Bytes × List Warning} {ks : Keyspace} {n w : Bytes}
    (h : acc.1.lookup n = some w) : (moduleStep acc ks).1.lookup n = some w := by
  rw [lookup_moduleStep, h]
  rfl

theorem moduleStep_cases (acc : ByteMap Bytes × List Warning) (ks : Keyspace) :
    ((moduleStep acc ks).2 = acc.2 ∧ Published (fun n => (moduleStep acc ks).1.lookup n) ks) ∨
      ∃ m msg, (moduleStep acc ks).2 = acc.2 ++ [⟨.keyspace, ks.name, msg⟩] ∧ ks.spec.merge = some m ∧ m.wasm ≠ [] ∧
        ModuleMessage (fun n => (moduleStep acc ks).1.lookup n) m msg := by
  cases hm : ks.spec.merge with
  | none =>
      refine Or.inl ⟨by simp only [moduleStep, hm], ?_⟩
      intro m hm'
      rw [hm] at hm'
      cases hm'
  | some m =>
      have honly : ∀ {P : MergeSpec → Prop}, P m → ∀ m', ks.spec.merge = some m' → P m' := by
        intro P hP m' hm'
        rw [hm, Option.some.injEq] at hm'
        exact hm' ▸ hP
      by_cases hw : m.wasm = []
      · refine Or.inl ⟨by simp only [moduleStep, hm, if_pos hw], honly fun hne => absurd hw hne⟩
      by_cases hs : safeModuleName m.name = true
      · by_cases hb : m.name ∈ builtinMerges
        · exact Or.inr ⟨m, .moduleBuiltin m.name, by simp [moduleStep, hm, hw, hs, hb], rfl, hw, .builtin hb⟩
        · cases hl : acc.1.lookup m.name with
          | some prev =>
              have hstay : (moduleStep acc ks).1.lookup m.name = some prev := lookup_moduleStep_of_some hl
              by_cases hp : prev = m.wasm
              · exact Or.inl ⟨by simp [moduleStep, hm, hw, hs, hb, hl, hp], honly fun _ => hp ▸ hstay⟩
              · exact Or.inr ⟨m, .moduleConflict m.name, by simp [moduleStep, hm, hw, hs, hb, hl, hp], rfl, hw,
                  .conflict prev hstay hp⟩
          | none =>
              have hnew : (moduleStep acc ks).1.lookup m.name = some m.wasm := by
                rw [lookup_moduleStep, hl, offers_eq_some_iff.mpr ⟨hm, hw, hs, hb⟩]
                rfl
              exact Or.inl ⟨by simp [moduleStep, hm, hw, hs, hb, hl], honly fun _ => hnew⟩
      · exact Or.inr ⟨m, .moduleName m.name, by simp [moduleStep, hm, hw, hs], rfl, hw, .name (by simpa using hs)⟩

theorem ModuleMessage.mono {lookup lookup' : Bytes → Option Bytes} {m : MergeSpec} {msg : Message}
    (h : ModuleMessage lookup m msg) (hsub : ∀ n w, lookup n = some w → lookup' n = some w) :
    ModuleMessage lookup' m msg := by
  cases h with
  | name h => exact .name h
  | builtin h => exact .builtin h
  | conflict other h hne => exact .conflict other (hsub _ _ h) hne

/-- A round of the loop over the inline modules. -/
theorem moduleStep_reporting (l : List Keyspace) : Reporting l (fun _ _ => True) moduleStep Prod.snd
    (fun acc ks => Published (fun n => acc.1.lookup n) ks)
    fun acc ks w => ∃ m msg, w = ⟨.keyspace, ks.name, msg⟩ ∧ ks.spec.merge = some m ∧ m.wasm ≠ [] ∧
      ModuleMessage (fun n => acc.1.lookup n) m msg where
  inv _ _ _ _ _ := trivial
  round _ acc ks _ _ := by
    rcases moduleStep_cases acc ks with hfine | ⟨m, msg, hmore, hrest⟩
    · exact Or.inl hfine
    · exact Or.inr ⟨_, hmore, m, msg, rfl, hrest⟩
  fine acc ks ks' h m hm hw := lookup_moduleStep_of_some (h m hm hw)
  about acc ks ks' w h := by
    obtain ⟨m, msg, rfl, hm, hw, hmsg⟩ := h
    exact ⟨m, msg, rfl, hm, hw, hmsg.mono fun _ _ => lookup_moduleStep_of_some⟩

section keyspaces
variable {poolNames : List Bytes} {modules : ByteMap Bytes}

theorem keyspaceStep_out (acc : KeyspaceAcc) (ks : Keyspace) :
    ∀ k ∈ acc.out, k ∈ (keyspaceStep poolNames modules acc ks).out := by
  intro k hk
  unfold keyspaceStep
  cases keyspaceProblem poolNames modules acc.seenPrefix ks.spec with
  | none => exact List.mem_append_left _ hk
  | some msg => exact hk

/-- A round of the loop over the keyspaces, which are visited in the order of their names. -/
theorem keyspaceStep_reporting {l : List Keyspace} (hsorted : l.Pairwise fun a b => a.name < b.name) :
    Reporting l (KeyspaceInv poolNames modules) (keyspaceStep poolNames modules) KeyspaceAcc.warns
      (fun acc ks => ks ∈ acc.out)
      fun acc ks w => ∃ msg, w = ⟨.keyspace, ks.name, msg⟩ ∧
        KeyspaceMessage poolNames (fun n => n ∈ builtinMerges ∨ n ∈ modules) acc.out ks msg := by
  have hlt : ∀ earlier ks, earlier ++ [ks] <+: l → ∀ k ∈ earlier, k.name < ks.name := by
    intro earlier ks hfront k hk
    have hpair := hsorted.sublist hfront.sublist
    exact (List.pairwise_append.mp hpair).2.2 k hk ks (by simp)
  refine ⟨?_, ?_, fun acc ks ks' h => keyspaceStep_out acc ks' ks h, ?_⟩
  · intro earlier acc ks hfront hinv
    exact keyspaceStep_inv hinv fun k hk => (hlt earlier ks hfront k hk).le
  · intro earlier acc ks hfront hinv
    have hseen : ∀ q ∈ acc.seenPrefix, ∃ first ∈ acc.out, first.spec.keyPrefix = q ∧ first.name < ks.name := by
      intro q hq
      obtain ⟨first, hfirst, hkey⟩ := (hinv.seen q).mp hq
      exact ⟨first, hfirst, hkey, hlt earlier ks hfront first (hinv.sub first hfirst)⟩
    unfold keyspaceStep
    cases hp : keyspaceProblem poolNames modules acc.seenPrefix ks.spec with
    | none => exact Or.inl ⟨rfl, by simp⟩
    | some msg => exact Or.inr ⟨_, rfl, msg, rfl, keyspaceProblem_message hseen hp⟩
  · rintro acc ks ks' w ⟨msg, rfl, hmsg⟩
    exact ⟨msg, rfl, hmsg.mono (keyspaceStep_out acc ks')⟩

end keyspaces

/-! ### The warnings of a snapshot -/

theorem mem_dedupByName_warns {α : Type} {kind : Kind} {name : α → Bytes} {xs : List α} {warns : List Warning}
    {w : Warning} : w ∈ (dedupByName kind name xs warns).2 ↔
      w ∈ warns ∨ ∃ n, 1 < (xs.map name).count n ∧ w = ⟨kind, n, .sharedName ((xs.map name).count n) kind⟩ := by
  simp only [dedupByName, contestedNames, List.mem_append, List.mem_map, Bytes.mem_sortBy, List.mem_filter,
    List.mem_dedup, decide_eq_true_eq]
  refine or_congr_right ?_
  constructor
  · rintro ⟨n, ⟨-, hn⟩, rfl⟩
    exact ⟨n, hn, rfl⟩
  · rintro ⟨n, hn, rfl⟩
    exact ⟨n, ⟨List.mem_map.mp (List.count_pos_iff.mp (by omega)), hn⟩, rfl⟩

section snapshot
variable {s : Snapshot} {w : Warning} {ks : Keyspace}

theorem mem_sorted_iff : ks ∈ sortBy Keyspace.name (uniqueKeyspaces s).1 ↔ UniqueName Keyspace.name s.keyspaces ks :=
  (Bytes.mem_sortBy _).trans mem_uniqueKeyspaces

/-- The warnings about pools are complete, -/
theorem pools_reported (s : Snapshot) : Selections.Reported (fun acc p => p ∈ acc.1)
    (fun _ p w => ∃ msg, w = ⟨.pool, p.name, msg⟩ ∧ PoolMessage p msg) Prod.snd
    (dedupByName .pool Pool.name s.pools []).2 (sortBy Pool.name (dedupByName .pool Pool.name s.pools []).1)
    (emittedPools s) :=
  (poolStep_reporting _).loop ([], (dedupByName .pool Pool.name s.pools []).2) trivial

/-- those about modules as well, -/
theorem modules_reported (s : Snapshot) : Selections.Reported
    (fun (acc : ByteMap Bytes × List Warning) ks => Published (fun n => acc.1.lookup n) ks)
    (fun acc ks w => ∃ m msg, w = ⟨.keyspace, ks.name, msg⟩ ∧ ks.spec.merge = some m ∧ m.wasm ≠ [] ∧
      ModuleMessage (fun n => acc.1.lookup n) m msg) Prod.snd
    (uniqueKeyspaces s).2 (sortBy Keyspace.name (uniqueKeyspaces s).1) (emittedModules s) :=
  (moduleStep_reporting _).loop (∅, (uniqueKeyspaces s).2) trivial

/-- and those about keyspaces. -/
theorem keyspaces_reported (s : Snapshot) :
    (∀ w ∈ (emittedModules s).2, w ∈ (render s).2) ∧
    (∀ w ∈ (render s).2, w ∈ (emittedModules s).2 ∨ ∃ ks msg, UniqueName Keyspace.name s.keyspaces ks ∧
      w = ⟨.keyspace, ks.name, msg⟩ ∧ KeyspaceMessage ((emittedPools s).1.map Pool.name)
        (fun n => n ∈ builtinMerges ∨ n ∈ (emittedModules s).1) (emittedKeyspaces s).1 ks msg) ∧
    ∀ ks, UniqueName Keyspace.name s.keyspaces ks → ks ∈ (emittedKeyspaces s).1 ∨ Reported s .keyspace ks.name := by
  have hsorted := Bytes.sortBy_pairwise_lt Keyspace.name
    (dedupByName_nodup .keyspace Keyspace.name s.keyspaces (emittedPools s).2)
  have hloop := (keyspaceStep_reporting hsorted).loop _
    (keyspaceInv_init ((emittedPools s).1.map Pool.name) (emittedModules s).1 (emittedModules s).2)
  refine ⟨hloop.keeps, ?_, ?_⟩
  · intro w hw
    rcases hloop.sound w hw with hold | ⟨ks, hks, msg, rfl, hmsg⟩
    · exact Or.inl hold
    · exact Or.inr ⟨ks, msg, mem_sorted_iff.mp hks, rfl, hmsg.mono fun k hk => (Bytes.mem_sortBy _).mpr hk⟩
  · intro ks hks
    rcases hloop.complete ks (mem_sorted_iff.mpr hks) with hkept | ⟨w, hw, msg, rfl, -⟩
    · exact Or.inl ((Bytes.mem_sortBy _).mpr hkept)
    · exact Or.inr ⟨_, hw, rfl, rfl⟩

/-- Every warning is true. -/
theorem grounds_of_mem (hw : w ∈ (render s).2) : Grounds s (emittedPools s).1 (emittedKeyspaces s).1 w := by
  rcases (keyspaces_reported s).2.1 w hw with hw | ⟨ks, msg, hks, rfl, hmsg⟩
  · rcases (modules_reported s).sound w hw with hw | ⟨ks, hks, m, msg, rfl, hm, hbytes, hmsg⟩
    · rcases mem_dedupByName_warns.mp hw with hw | ⟨n, hn, rfl⟩
      · rcases (pools_reported s).sound w hw with hw | ⟨p, hp, msg, rfl, hmsg⟩
        · rcases mem_dedupByName_warns.mp hw with hw | ⟨n, hn, rfl⟩
          · cases hw
          · exact .sharedPools n hn
        · exact .pool p msg ((mem_dedupByName ..).mp ((Bytes.mem_sortBy _).mp hp)) hmsg
      · exact .sharedKeyspaces n hn
    · refine .inlined ks m msg (mem_sorted_iff.mp hks) hm hbytes ?_
      simpa only [lookup_render_module] using hmsg
  · refine .keyspace ks msg hks ?_
    simpa only [modulePath_mem_render] using hmsg

/-- The warnings are carried along. -/
theorem mem_render_warns (hw : w ∈ (uniqueKeyspaces s).2) : w ∈ (render s).2 :=
  (keyspaces_reported s).1 w ((modules_reported s).keeps w hw)

/-- A resource with a name of its own, or another one has its name. -/
theorem unique_or_shared {α : Type} {name : α → Bytes} {xs : List α} {x : α} (hx : x ∈ xs) :
    UniqueName name xs x ∨ 1 < (xs.map name).count (name x) := by
  have hpos : 0 < (xs.map name).count (name x) := List.count_pos_iff.mpr (List.mem_map_of_mem hx)
  rcases Nat.lt_or_ge 1 ((xs.map name).count (name x)) with hmany | hone
  · exact Or.inr hmany
  · exact Or.inl ⟨hx, by omega⟩

theorem exists_of_shared {α : Type} {name : α → Bytes} {xs : List α} {n : Bytes} (h : 1 < (xs.map name).count n) :
    ∃ x ∈ xs, name x = n ∧ ¬UniqueName name xs x := by
  obtain ⟨x, hx, rfl⟩ := List.mem_map.mp (List.count_pos_iff.mp (show 0 < (xs.map name).count n by omega))
  refine ⟨x, hx, rfl, fun hu => ?_⟩
  have hone := hu.2
  omega

theorem reported_pool_iff (n : Bytes) :
    Reported s .pool n ↔ ∃ p ∈ s.pools, p.name = n ∧ p ∉ (emittedPools s).1 := by
  constructor
  · rintro ⟨w, hw, hkind, rfl⟩
    cases grounds_of_mem hw with
    | sharedPools n hn =>
        obtain ⟨p, hp, rfl, hnot⟩ := exists_of_shared hn
        exact ⟨p, hp, rfl, fun hmem => hnot ⟨hp, (mem_emittedPools.mp hmem).2.1⟩⟩
    | pool p msg hu hmsg => exact ⟨p, hu.1, rfl, fun hmem => hmsg.not_shape (mem_emittedPools.mp hmem).2.2⟩
    | sharedKeyspaces | inlined | keyspace => cases hkind
  · rintro ⟨p, hp, rfl, hnot⟩
    have hcarry : ∀ w ∈ (emittedPools s).2, w ∈ (render s).2 := fun w hw =>
      mem_render_warns (mem_dedupByName_warns.mpr (Or.inl hw))
    rcases unique_or_shared hp with hu | hmany
    · have hsorted : p ∈ sortBy Pool.name (dedupByName .pool Pool.name s.pools []).1 :=
        (Bytes.mem_sortBy _).mpr ((mem_dedupByName ..).mpr hu)
      rcases (pools_reported s).complete p hsorted with hkept | ⟨w, hw, msg, rfl, -⟩
      · exact absurd hkept hnot
      · exact ⟨_, hcarry _ hw, rfl, rfl⟩
    · have hdup : ⟨.pool, p.name, .sharedName ((s.pools.map Pool.name).count p.name) .pool⟩ ∈
          (dedupByName .pool Pool.name s.pools []).2 := mem_dedupByName_warns.mpr (Or.inr ⟨p.name, hmany, rfl⟩)
      exact ⟨_, hcarry _ ((pools_reported s).keeps _ hdup), rfl, rfl⟩

theorem reported_keyspace_iff (n : Bytes) : Reported s .keyspace n ↔
    ∃ ks ∈ s.keyspaces, ks.name = n ∧ (ks ∉ (emittedKeyspaces s).1 ∨ Unpublished s ks) := by
  constructor
  · rintro ⟨w, hw, hkind, rfl⟩
    cases grounds_of_mem hw with
    | sharedPools | pool => cases hkind
    | sharedKeyspaces n hn =>
        obtain ⟨ks, hks, rfl, hnot⟩ := exists_of_shared hn
        exact ⟨ks, hks, rfl, Or.inl fun hmem => hnot (mem_emittedKeyspaces.mp hmem).unique⟩
    | inlined ks m msg hu hm hbytes hmsg =>
        refine ⟨ks, hu.1, rfl, Or.inr ⟨m, hm, hbytes, ?_⟩⟩
        intro hpub
        have hmem : m.name ∈ (emittedModules s).1 := by
          rw [lookup_render_module] at hpub
          exact AList.lookup_isSome.mp (by rw [hpub]; rfl)
        cases hmsg with
        | name h => exact absurd (mem_emittedModules hmem).1 (by rw [h]; exact Bool.false_ne_true)
        | builtin h => exact (mem_emittedModules hmem).2 h
        | conflict other h hne => exact hne (Option.some.inj (h.symm.trans hpub))
    | keyspace ks msg hu hmsg =>
        refine ⟨ks, hu.1, rfl, Or.inl fun hmem => ?_⟩
        have hleast := mem_emittedKeyspaces.mp hmem
        rcases hmsg.not_shape with hshape | ⟨first, hfirst, hkey, hlt⟩
        · exact hshape ((passes_iff.mpr ⟨hu, hleast.admissible⟩).2)
        · have hother := mem_emittedKeyspaces.mp hfirst
          exact absurd (hleast.least first hother.unique hother.admissible hkey) (not_le.mpr hlt)
  · rintro ⟨ks, hks, rfl, hnot⟩
    rcases unique_or_shared hks with hu | hmany
    · rcases (keyspaces_reported s).2.2 ks hu with hkept | hreported
      · obtain ⟨m, hm, hbytes, hunpub⟩ := hnot.resolve_left (not_not.mpr hkept)
        rcases (modules_reported s).complete ks (mem_sorted_iff.mpr hu) with hpub | ⟨w, hw, _, msg, rfl, -⟩
        · rw [lookup_render_module] at hunpub
          exact absurd (hpub m hm hbytes) hunpub
        · exact ⟨_, (keyspaces_reported s).1 _ hw, rfl, rfl⟩
      · exact hreported
    · exact ⟨_, mem_render_warns (mem_dedupByName_warns.mpr (Or.inr ⟨ks.name, hmany, rfl⟩)), rfl, rfl⟩

/-- Nothing is dropped without a warning, and there is no warning without a reason: every warning is true of
a resource of the snapshot; there is one about a pool name exactly if a pool of that name is not in the
configuration, and one about a keyspace name exactly if a keyspace of that name is not in the configuration,
or the module it inlines is not in the tree. -/
theorem render_warns_exactly (s : Snapshot) : ∃ pools keyspaces, Emission s pools keyspaces ∧
    (∀ w ∈ (render s).2, Grounds s pools keyspaces w) ∧
    (∀ n, Reported s .pool n ↔ ∃ p ∈ s.pools, p.name = n ∧ p ∉ pools) ∧
    ∀ n, Reported s .keyspace n ↔
      ∃ ks ∈ s.keyspaces, ks.name = n ∧ (ks ∉ keyspaces ∨ Unpublished s ks) :=
  ⟨_, _, emission s, fun _ hw => grounds_of_mem hw, reported_pool_iff, reported_keyspace_iff⟩

end snapshot

/-! ### The schemas -/

/-- The length of a string in characters: the bytes that do not continue one. -/
def runeCount (s : Bytes) : ℕ := s.countP fun b => !(128 ≤ b && b < 192)

/-- The patterns `^[A-Za-z0-9][A-Za-z0-9…]*$`, with further characters allowed after the first. -/
def matchesPattern (others : List UInt8) : Bytes → Bool
  | [] => false
  | c :: cs => isAlnum c && cs.all fun b => isAlnum b || decide (b ∈ others)

def prefixPattern : Bytes → Bool := matchesPattern [95, 46, 45]
def mergePattern : Bytes → Bool := matchesPattern [95, 45]

def hashEnum : List Bytes := ["xxhash", "md5", "crc32"].map ascii
def distEnum : List Bytes := ["ring_hash", "jump_hash"].map ascii
def writePolicyEnum : List Bytes := ["all", "first"].map ascii

/-- A non-empty list of distinct, non-empty strings. -/
@[mk_iff] structure ListSchema (maxItems maxLength : ℕ) (list : List Bytes) : Prop where
  minItems : 1 ≤ list.length
  maxItems : list.length ≤ maxItems
  minLength : ∀ a ∈ list, 1 ≤ runeCount a
  maxLength : ∀ a ∈ list, runeCount a ≤ maxLength
  unique : list.Nodup

@[mk_iff] structure PoolAdmitted (p : Pool) : Prop where
  name : p.name ≠ []
  addrs : ListSchema 64 259 p.spec.addrs
  hash : p.spec.hash = [] ∨ p.spec.hash ∈ hashEnum
  dist : p.spec.dist = [] ∨ p.spec.dist ∈ distEnum

@[mk_iff] structure MergeAdmitted (m : MergeSpec) : Prop where
  minLength : 1 ≤ runeCount m.name
  name : mergePattern m.name = true
  /-- The bound is on the base64 form. -/
  wasm : 4 * ((m.wasm.length + 2) / 3) ≤ 1048576

/-- The write policy has its default by then. -/
@[mk_iff] structure KeyspaceAdmitted (ks : Keyspace) : Prop where
  minLength : 1 ≤ runeCount ks.spec.keyPrefix
  maxLength : runeCount ks.spec.keyPrefix ≤ 128
  keyPrefix : prefixPattern ks.spec.keyPrefix = true
  read : ListSchema 16 253 ks.spec.read
  write : ListSchema 16 253 ks.spec.write
  writePolicy : ks.spec.writePolicy ∈ writePolicyEnum
  merge : ∀ m ∈ ks.spec.merge, MergeAdmitted m

/-- What the API server has admitted to one namespace. -/
@[mk_iff] structure Admitted (s : Snapshot) : Prop where
  pools : ∀ p ∈ s.pools, PoolAdmitted p
  keyspaces : ∀ ks ∈ s.keyspaces, KeyspaceAdmitted ks
  pool_names : (s.pools.map Pool.name).Nodup
  keyspace_names : (s.keyspaces.map Keyspace.name).Nodup

instance (maxItems maxLength : ℕ) (list : List Bytes) : Decidable (ListSchema maxItems maxLength list) :=
  decidable_of_iff' _ (listSchema_iff maxItems maxLength list)

instance (p : Pool) : Decidable (PoolAdmitted p) := decidable_of_iff' _ (poolAdmitted_iff p)

instance (m : MergeSpec) : Decidable (MergeAdmitted m) := decidable_of_iff' _ (mergeAdmitted_iff m)

instance (ks : Keyspace) : Decidable (KeyspaceAdmitted ks) := decidable_of_iff' _ (keyspaceAdmitted_iff ks)

instance (s : Snapshot) : Decidable (Admitted s) := decidable_of_iff' _ (admitted_iff s)

/-- The pools and the merge that a keyspace names exist. -/
structure Resolved (s : Snapshot) (ks : Keyspace) : Prop where
  pools : ∀ field, ∀ n ∈ ks.spec.pools field, ∃ p ∈ s.pools, p.name = n
  merge : ∀ m, ks.spec.merge = some m → m.name ∈ builtinMerges ∨
    ∃ owner ∈ s.keyspaces, ∃ m', owner.spec.merge = some m' ∧ m'.name = m.name ∧ m'.wasm ≠ []

/-- The problems that no schema can see. -/
def Message.beyondSchema : Message → Bool
  | .duplicatePrefix _ | .poolList (.unknownPool _ _ _) | .unknownMerge _ | .moduleBuiltin _ | .moduleConflict _ => true
  | _ => false

theorem ListSchema.ne_nil {maxItems maxLength : ℕ} {list : List Bytes} (h : ListSchema maxItems maxLength list) :
    list ≠ [] := by
  rintro rfl
  exact absurd h.minItems (by simp)

theorem ListSchema.item_ne_nil {maxItems maxLength : ℕ} {list : List Bytes} (h : ListSchema maxItems maxLength list)
    {a : Bytes} (ha : a ∈ list) : a ≠ [] := by
  rintro rfl
  exact absurd (h.minLength [] ha) (by simp [runeCount])

/-- All that can be wrong with a list that is admitted is that it names a pool that does not exist. -/
theorem ListSchema.beyondSchema {maxItems maxLength : ℕ} {list poolNames : List Bytes} {field : ListField}
    {e : PoolListProblem} (h : ListSchema maxItems maxLength list) (hmsg : PoolListMessage poolNames list field e) :
    (Message.poolList e).beyondSchema = true := by
  cases hmsg with
  | noPools hempty => exact absurd hempty h.ne_nil
  | emptyItem i hi => exact absurd rfl (h.item_ne_nil (List.mem_of_getElem? hi))
  | unknownPool => rfl
  | listedTwice name htwice => exact absurd (List.nodup_iff_count_le_one.mp h.unique name) (by omega)

theorem isAlnum_ne {c d : UInt8} (hc : isAlnum c = true) (hd : isAlnum d = false) : c ≠ d := by
  rintro rfl
  rw [hc] at hd
  cases hd

/-- The renderer takes for a module name what the schema takes for one. -/
theorem safeModuleName_of_mergePattern {n : Bytes} (h : mergePattern n = true) : safeModuleName n = true := by
  cases n with
  | nil => cases h
  | cons c cs =>
      obtain ⟨hc, hcs⟩ := Bool.and_eq_true_iff.mp h
      have hall : (c :: cs).all (fun b => isAlnum b || b == 95 || b == 45) = true := by
        rw [List.all_cons, hc, Bool.true_or, Bool.true_or, Bool.true_and, List.all_eq_true]
        intro b hb
        have hb' := List.all_eq_true.mp hcs b hb
        simpa [or_assoc] using hb'
      have h95 : c ≠ 95 := isAlnum_ne hc (by decide)
      have h45 : c ≠ 45 := isAlnum_ne hc (by decide)
      simp only [safeModuleName, hall, Bool.true_and, Bool.and_eq_true, bne_iff_ne]
      exact ⟨h95, h45⟩

/-- A prefix that matches the pattern is one that the renderer accepts. -/
theorem prefixPattern_ok {n : Bytes} (h : prefixPattern n = true) : n ≠ [] ∧ 58 ∉ n ∧ n ∉ reservedPrefixes := by
  cases n with
  | nil => cases h
  | cons c cs =>
      obtain ⟨hc, hcs⟩ := Bool.and_eq_true_iff.mp h
      refine ⟨List.cons_ne_nil c cs, ?_, ?_⟩
      · intro hmem
        rcases List.mem_cons.mp hmem with rfl | hmem
        · exact absurd hc (by decide)
        · exact absurd (List.all_eq_true.mp hcs 58 hmem) (by decide)
      · intro hmem
        -- the reserved prefixes start with an underscore
        have hhead : ∀ q ∈ reservedPrefixes, q.head? = some 95 := by decide
        exact isAlnum_ne hc (by decide) (Option.some.inj (hhead _ hmem))

theorem PoolAdmitted.shape {p : Pool} (h : PoolAdmitted p) : PoolShape p :=
  ⟨h.name, h.addrs.ne_nil, fun _ => h.addrs.item_ne_nil, h.hash, h.dist⟩

section admitted
variable {s : Snapshot} {ks : Keyspace}

theorem uniqueName_of_nodup {α : Type} {name : α → Bytes} {xs : List α} {x : α} (h : (xs.map name).Nodup) :
    UniqueName name xs x ↔ x ∈ xs :=
  ⟨fun hu => hu.1, fun hx => ⟨hx, List.count_eq_one_of_mem h (List.mem_map_of_mem hx)⟩⟩

theorem Admitted.mem_pools (h : Admitted s) (p : Pool) : p ∈ (emittedPools s).1 ↔ p ∈ s.pools := by
  rw [mem_emittedPools]
  constructor
  · exact fun hp => hp.1
  · exact fun hp => ⟨hp, ((uniqueName_of_nodup h.pool_names).mpr hp).2, (h.pools p hp).shape⟩

theorem Admitted.known_iff (h : Admitted s) (n : Bytes) :
    n ∈ (emittedPools s).1.map Pool.name ↔ ∃ p ∈ s.pools, p.name = n := by
  simp only [List.mem_map, h.mem_pools]

/-- A module is in the tree if a keyspace inlines it and its name is not that of a built-in. -/
theorem Admitted.module_iff (h : Admitted s) {n : Bytes} (hn : n ∉ builtinMerges) : n ∈ (emittedModules s).1 ↔
    ∃ owner ∈ s.keyspaces, ∃ m, owner.spec.merge = some m ∧ m.name = n ∧ m.wasm ≠ [] := by
  constructor
  · intro hmem
    obtain ⟨w, hw⟩ := Option.isSome_iff_exists.mp (AList.lookup_isSome.mpr hmem)
    obtain ⟨owner, hfirst⟩ := lookup_emittedModules_iff.mp hw
    exact ⟨owner, hfirst.unique.1, ⟨n, w⟩, hfirst.inlines.merge, rfl, hfirst.inlines.bytes⟩
  · rintro ⟨owner, howner, m, hm, rfl, hbytes⟩
    have hsafe := safeModuleName_of_mergePattern ((h.keyspaces owner howner).merge m hm).name
    exact AList.lookup_isSome.mp (lookup_emittedModules_isSome
      ((uniqueName_of_nodup h.keyspace_names).mpr howner) ⟨hm, hbytes, hsafe, hn⟩)

/-- An admitted keyspace passes the checks exactly if what it names exists. -/
theorem Admitted.admissible_iff (h : Admitted s) (hks : ks ∈ s.keyspaces) : Admissible s ks ↔ Resolved s ks := by
  have hadm := h.keyspaces ks hks
  obtain ⟨hne, hcolon, hreserved⟩ := prefixPattern_ok hadm.keyPrefix
  constructor
  · intro hshape
    refine ⟨?_, ?_⟩
    · intro field n hn
      cases field with
      | read => exact (h.known_iff n).mp (hshape.read_ok.known n hn)
      | write => exact (h.known_iff n).mp (hshape.write_ok.known n hn)
    · intro m hm
      by_cases hb : m.name ∈ builtinMerges
      · exact Or.inl hb
      · exact Or.inr ((h.module_iff hb).mp ((hshape.merge_ok m hm).resolve_left hb))
  · intro hres
    refine ⟨hne, hcolon, hreserved, ?_, ?_, Or.inr hadm.writePolicy, ?_⟩
    · exact ⟨hadm.read.ne_nil, fun _ => hadm.read.item_ne_nil, fun n hn => (h.known_iff n).mpr (hres.pools .read n hn),
        hadm.read.unique⟩
    · exact ⟨hadm.write.ne_nil, fun _ => hadm.write.item_ne_nil,
        fun n hn => (h.known_iff n).mpr (hres.pools .write n hn), hadm.write.unique⟩
    · intro m hm
      by_cases hb : m.name ∈ builtinMerges
      · exact Or.inl hb
      · exact Or.inr ((h.module_iff hb).mpr ((hres.merge m hm).resolve_left hb))

/-- Only the references of an admitted keyspace can be at fault. -/
theorem Admitted.beyondSchema (h : Admitted s) {w : Warning} (hw : w ∈ (render s).2) :
    ∃ ks ∈ s.keyspaces, w.kind = .keyspace ∧ w.name = ks.name ∧ w.message.beyondSchema = true := by
  cases grounds_of_mem hw with
  | sharedPools n hn => exact absurd (List.nodup_iff_count_le_one.mp h.pool_names n) (by omega)
  | sharedKeyspaces n hn => exact absurd (List.nodup_iff_count_le_one.mp h.keyspace_names n) (by omega)
  | pool p msg hu hmsg => exact absurd (h.pools p hu.1).shape hmsg.not_shape
  | inlined ks m msg hu hm hbytes hmsg =>
      refine ⟨ks, hu.1, rfl, rfl, ?_⟩
      cases hmsg with
      | name hbad =>
          rw [safeModuleName_of_mergePattern ((h.keyspaces ks hu.1).merge m hm).name] at hbad
          cases hbad
      | builtin => rfl
      | conflict => rfl
  | keyspace ks msg hu hmsg =>
      have hadm := h.keyspaces ks hu.1
      obtain ⟨hne, hcolon, hreserved⟩ := prefixPattern_ok hadm.keyPrefix
      refine ⟨ks, hu.1, rfl, rfl, ?_⟩
      cases hmsg with
      | emptyPrefix hempty => exact absurd hempty hne
      | colonPrefix hmem => exact absurd hmem hcolon
      | reservedPrefix hmem => exact absurd hmem hreserved
      | duplicatePrefix => rfl
      | poolList field e he =>
          cases field with
          | read => exact hadm.read.beyondSchema he
          | write => exact hadm.write.beyondSchema he
      | invalidWritePolicy _ hpolicy => exact absurd hadm.writePolicy hpolicy
      | unknownMerge => rfl

end admitted

/-- Behind an API server, every pool is rendered; a keyspace is rendered exactly if the pools and the merge
it names exist and no such keyspace of lesser name has its prefix; and every warning is about a pool, a
merge or a prefix that other resources decide on, or about a module that is named like a built-in. -/
theorem admitted_render (s : Snapshot) (h : Admitted s) : ∃ pools keyspaces, Emission s pools keyspaces ∧
    (∀ p, p ∈ pools ↔ p ∈ s.pools) ∧
    (∀ ks, ks ∈ keyspaces ↔ ks ∈ s.keyspaces ∧ Resolved s ks ∧ ∀ other ∈ s.keyspaces, Resolved s other →
      other.spec.keyPrefix = ks.spec.keyPrefix → ks.name ≤ other.name) ∧
    ∀ w ∈ (render s).2, ∃ ks ∈ s.keyspaces, w.kind = .keyspace ∧ w.name = ks.name ∧
      w.message.beyondSchema = true := by
  refine ⟨_, _, emission s, h.mem_pools, ?_, fun w hw => h.beyondSchema hw⟩
  intro ks
  rw [mem_emittedKeyspaces]
  constructor
  · intro hleast
    have hks := hleast.unique.1
    refine ⟨hks, (h.admissible_iff hks).mp hleast.admissible, ?_⟩
    intro other hother hres hkey
    exact hleast.least other ((uniqueName_of_nodup h.keyspace_names).mpr hother) ((h.admissible_iff hother).mpr hres) hkey
  · rintro ⟨hks, hres, hleast⟩
    refine ⟨(uniqueName_of_nodup h.keyspace_names).mpr hks, (h.admissible_iff hks).mpr hres, ?_⟩
    intro other hu hadm hkey
    exact hleast other hu.1 ((h.admissible_iff hu.1).mp hadm) hkey

/-- Two keyspaces with one prefix. -/
def rivals : Snapshot :=
  let pool : Pool := ⟨ascii "p", ⟨[ascii "h:1"], ascii "md5", []⟩⟩
  let first : Keyspace := ⟨ascii "k", ⟨ascii "a", [ascii "p"], [ascii "p"], ascii "all", none⟩⟩
  let second : Keyspace :=
    ⟨ascii "l", ⟨ascii "a", [ascii "p"], [ascii "p"], ascii "first", some ⟨ascii "m", [0]⟩⟩⟩
  ⟨[pool], [second, first]⟩

theorem admitted_render_rivals : ∃ pools keyspaces, Emission rivals pools keyspaces ∧ pools = rivals.pools ∧
    keyspaces.map Keyspace.name = [ascii "k"] ∧
    (render rivals).2 = [⟨.keyspace, ascii "l", .duplicatePrefix (ascii "a")⟩] ∧
    ∀ w ∈ (render rivals).2, w.message.beyondSchema = true := by
  obtain ⟨pools, keyspaces, hemission, -, -, hwarns⟩ := admitted_render rivals (by decide +kernel)
  obtain ⟨rfl, rfl⟩ := hemission.eq
  refine ⟨_, _, hemission, by decide +kernel, by decide +kernel, by decide +kernel, ?_⟩
  intro w hw
  obtain ⟨_, -, -, -, hbeyond⟩ := hwarns w hw
  exact hbeyond

end McGateway.Operator
