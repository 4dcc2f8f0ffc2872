import McGateway.Reload
import McGateway.Selections

/-! # From accepted keyspaces to pools (`keyspaces.lua`, `read_fgen`, `write_fgen`)

A keyspace names its pools in two lists.  The validator asks for a length other than `0` and checks
what `ipairs` visits; the builder turns what `ipairs` visits into pool objects and handles; and the
read handler waits for as many responses as the list is long.  For a list with a hole the length
operator and `ipairs` may disagree: `{ nil, "b" }` can have length `2`, and `ipairs` visits nothing.

`fans_out_iff` says for which accepted configurations every keyspace waits for what it has asked:
those whose read lists have the length that `ipairs` visits, and whose write lists begin with a
pool. -/

namespace McGateway.Config

open Lua
open Bytes (ascii)

/-! ### Building -/

/-- A keyspace as `keyspaces.build` leaves it. -/
structure BuiltKeyspace (P : Type) where
  keyPrefix : Value
  /-- `nil` where a name has no pool. -/
  readPools : List (Option P)
  readNames : Table
  writePools : List (Option P)
  writePolicy : Value
  mergeName : Value
  mergeFlags : Value

section build
variable {P : Type} (pools : List (Value × P))

/-- `pools_by_name[name]`: the last pool that was built under the name. -/
def poolNamed : Value → Option P
  | .str s => (pools.reverse.find? fun q => asString q.1 == some s).map Prod.snd
  | _ => none

/-- One round of the loop of `keyspaces.build`. -/
def buildKeyspace (ks : Value) : Except BuildError (BuiltKeyspace P) :=
  match ks with
  | .table t =>
      match rawget t (.str (ascii "read")), rawget t (.str (ascii "write")) with
      | .table read, .table write =>
          .ok { keyPrefix := rawget t (.str (ascii "prefix"))
                readPools := (ipairs read).map (poolNamed pools)
                readNames := read
                writePools := (ipairs write).map (poolNamed pools)
                writePolicy := rawget t (.str (ascii "write_policy"))
                mergeName := rawget t (.str (ascii "merge"))
                mergeFlags := rawget t (.str (ascii "required_flags")) }
      | .table _, v => .error (.index v)
      | v, _ => .error (.index v)
  | v => .error (.index v)

/-- `keyspaces.build`. -/
def buildKeyspaces (cfg : Value) : Except BuildError (List (BuiltKeyspace P)) :=
  match cfg with
  | .table c =>
      match rawget c (.str (ascii "keyspaces")) with
      | .table kss => (ipairs kss).mapM (buildKeyspace pools)
      | v => .error (.index v)
  | v => .error (.index v)

end build

/-! ### Fanning out -/

section fgen
variable {P : Type}

/-- The handles made for a list of pools: one for each, up to the first `nil`. -/
def handlesFor : List (Option P) → List P
  | some p :: ps => p :: handlesFor ps
  | _ => []

/-- What a request of a keyspace does with its pools. -/
structure FanOut (P : Type) where
  handles : List P
  /-- The number of responses that the handler waits for. -/
  waitsFor : ℕ
  /-- The number of responses that are looked at. -/
  considered : ℕ

/-- `read_fgen` with `make_read_handler`: it waits for `#pool_names`, and makes an entry for each name
that `ipairs` visits. -/
def readFgen (L : LengthOp) (k : BuiltKeyspace P) : FanOut P where
  handles := handlesFor k.readPools
  waitsFor := L.len k.readNames
  considered := (ipairs k.readNames).length

/-- `write_fgen` with `make_write_handler`: it waits for `#handles`, and looks at every handle. -/
def writeFgen (L : LengthOp) (k : BuiltKeyspace P) : FanOut P where
  handles := handlesFor k.writePools
  waitsFor := L.len (ofList ((handlesFor k.writePools).map fun _ => .scalar 0))
  considered := (ipairs (ofList ((handlesFor k.writePools).map fun _ => .scalar 0))).length

/-- As many handles as responses that are waited for, and as responses that are looked at. -/
def FanOut.Balanced (f : FanOut P) : Prop :=
  f.handles.length = f.waitsFor ∧ f.handles.length = f.considered

/-- The pools of a list: some, all of them built, and none twice. -/
structure PoolsOk (pools : List (Value × P)) (ps : List (Option P)) : Prop where
  nonempty : ps ≠ []
  built : ∀ p ∈ ps, ∃ q ∈ pools, p = some q.2
  nodup : ps.Nodup

structure FansOut (L : LengthOp) (pools : List (Value × P)) (k : BuiltKeyspace P) : Prop where
  read : PoolsOk pools k.readPools
  write : PoolsOk pools k.writePools
  readBalanced : (readFgen L k).Balanced
  writeBalanced : (writeFgen L k).Balanced

end fgen

/-- The entries of `cfg.keyspaces`. -/
def keyspaceEntries : Value → List Value
  | .table c =>
      match rawget c (.str (ascii "keyspaces")) with
      | .table kss => ipairs kss
      | _ => []
  | _ => []

/-- The list that a field of an entry stands for. -/
def poolListOf (field : Bytes) : Value → Table
  | .table e => (asTable (asPoolList (rawget e (.str field)))).getD []
  | _ => []

/-- The read list has the length that `ipairs` visits, and the write list begins with a pool. -/
def ListsVisited (L : LengthOp) (entry : Value) : Prop :=
  L.len (poolListOf (ascii "read") entry) = (ipairs (poolListOf (ascii "read") entry)).length ∧
    ipairs (poolListOf (ascii "write") entry) ≠ []

/-! ### Names and pools -/

section pools
variable {P : Type} {pools : List (Value × P)}

theorem poolNamed_eq_some {n : Bytes} {o : P} (h : poolNamed pools (.str n) = some o) :
    ∃ q ∈ pools, q.1 = .str n ∧ q.2 = o := by
  obtain ⟨q, hq, rfl⟩ := Option.map_eq_some_iff.mp h
  have hname := List.find?_some hq
  refine ⟨q, List.mem_reverse.mp (List.mem_of_find?_eq_some hq), ?_, rfl⟩
  exact asString_eq_some.mp (by simpa using hname)

theorem exists_poolNamed {n : Bytes} (h : ∃ q ∈ pools, q.1 = .str n) :
    ∃ o, poolNamed pools (.str n) = some o := by
  obtain ⟨q, hq, hname⟩ := h
  cases hfind : pools.reverse.find? fun q => asString q.1 == some n with
  | some q' => exact ⟨q'.2, by rw [poolNamed, hfind]; rfl⟩
  | none =>
      have hno := List.find?_eq_none.mp hfind q (List.mem_reverse.mpr hq)
      simp [hname, asString] at hno

theorem handlesFor_length {ps : List (Option P)} (h : ∀ p ∈ ps, p.isSome) :
    (handlesFor ps).length = ps.length := by
  induction ps with
  | nil => rfl
  | cons p ps ih =>
      obtain ⟨hp, hps⟩ := List.forall_mem_cons.mp h
      obtain ⟨o, rfl⟩ := Option.isSome_iff_exists.mp hp
      rw [handlesFor, List.length_cons, List.length_cons, ih hps]

theorem PoolNames.values {vs : List Value} {poolNames names : List Bytes} (h : PoolNames vs poolNames names) :
    vs = names.map .str := by
  have hstrings := h.strings
  clear h
  induction vs generalizing names with
  | nil =>
      cases names with
      | nil => rfl
      | cons n names => simp at hstrings
  | cons v vs ih =>
      cases names with
      | nil => simp at hstrings
      | cons n names =>
          rw [List.map_cons, List.map_cons, List.cons.injEq] at hstrings
          rw [List.map_cons, (nonemptyString_eq_some.mp hstrings.1).1, ← ih hstrings.2]

/-- What a checked list of names is built into. -/
theorem PoolNames.built {vs : List Value} {poolNames names : List Bytes} (h : PoolNames vs poolNames names)
    (hknown : ∀ n ∈ poolNames, ∃ q ∈ pools, q.1 = .str n) (hfresh : (pools.map Prod.snd).Nodup) :
    (∀ p ∈ vs.map (poolNamed pools), ∃ q ∈ pools, p = some q.2) ∧ (vs.map (poolNamed pools)).Nodup := by
  have hfound : ∀ n ∈ names, ∃ q ∈ pools, q.1 = .str n ∧ poolNamed pools (.str n) = some q.2 := by
    intro n hn
    obtain ⟨o, ho⟩ := exists_poolNamed (hknown n (h.known n hn))
    obtain ⟨q, hq, hname, rfl⟩ := poolNamed_eq_some ho
    exact ⟨q, hq, hname, ho⟩
  rw [h.values, List.map_map]
  constructor
  · intro p hp
    obtain ⟨n, hn, rfl⟩ := List.mem_map.mp hp
    obtain ⟨q, hq, -, hsome⟩ := hfound n hn
    exact ⟨q, hq, hsome⟩
  · refine (List.nodup_map_iff_inj_on h.nodup).mpr ?_
    intro n hn m hm heq
    obtain ⟨q, hq, hname, hsome⟩ := hfound n hn
    obtain ⟨q', hq', hname', hsome'⟩ := hfound m hm
    -- one object, so one pool, so one name
    have hobject : q.2 = q'.2 := Option.some.inj (hsome.symm.trans (heq.trans hsome'))
    obtain rfl := List.inj_on_of_nodup_map hfresh hq hq' hobject
    exact Value.str.inj (hname.symm.trans hname')

end pools

/-! ### Known pools are built -/

theorem mem_of_validatePools {L : LengthOp} : ∀ {ps : List Value} {seen names : List Bytes},
    validatePools L ps seen = .ok names →
      ∀ n ∈ names, n ∈ seen ∨ ∃ t, .table t ∈ ps ∧ rawget t (.str (ascii "name")) = .str n
  | [], seen, names, h, n, hn => by
      obtain rfl := Except.ok.inj h
      exact .inl hn
  | p :: ps, seen, names, h, n, hn => by
      simp only [validatePools, bind_eq_ok] at h
      obtain ⟨seen', hp, hps⟩ := h
      obtain ⟨t, name, addrs, rfl, hok, -, rfl⟩ := validatePool_ok.mp hp
      obtain hmem | ⟨t', ht', hname⟩ := mem_of_validatePools hps n hn
      · obtain rfl | hmem := List.mem_cons.mp hmem
        · exact .inr ⟨t, List.mem_cons_self, (nonemptyString_eq_some.mp hok.name_eq).1⟩
        · exact .inl hmem
      · exact .inr ⟨t', List.mem_cons_of_mem _ ht', hname⟩

section
variable {B P : Type} {backend : Bytes → Bytes → Bytes → Option B} {pool : List B → Value → Value → Option P}
  {L : LengthOp} {requiredFlags : Bytes → Option Bytes}

theorem buildPool_name {t : Table} {q : Value × P} (h : buildPool backend pool (.table t) = .ok q) :
    q.1 = rawget t (.str (ascii "name")) := by
  unfold buildPool at h
  simp only at h
  split at h
  · cases hb : (ipairs ‹Table›).mapM (makeBackend backend (rawget t (.str (ascii "name")))) with
    | error e => simp [hb, bind, Except.bind] at h
    | ok backends =>
        simp only [hb, bind, Except.bind] at h
        split at h
        · rw [← Except.ok.inj h]
        · cases h
  · cases h

/-- Every name that the validator knows has a pool. -/
theorem known_built {pools : Table} {poolNames : List Bytes} {built : List (Value × P)}
    (hnames : validatePools L (ipairs pools) [] = .ok poolNames)
    (hbuilt : (ipairs pools).mapM (buildPool backend pool) = .ok built) :
    ∀ n ∈ poolNames, ∃ q ∈ built, q.1 = .str n := by
  intro n hn
  obtain hmem | ⟨t, ht, hname⟩ := mem_of_validatePools hnames n hn
  · cases hmem
  · obtain ⟨q, hq, hpool⟩ := Selections.exists_mem_of_forall₂ (Selections.forall₂_of_mapM_ok hbuilt) ht
    exact ⟨q, hq, (buildPool_name hpool).trans hname⟩

/-! ### One keyspace -/

theorem rawget_assign_read (c : Completed) (t : Table) :
    rawget (c.assign t) (.str (ascii "read")) = c.read := by
  have h₁ : Key.str (ascii "read") ≠ Key.str (ascii "write") := by decide
  have h₂ : Key.str (ascii "read") ≠ Key.str (ascii "write_policy") := by decide
  have h₃ : Key.str (ascii "read") ≠ Key.str (ascii "merge") := by decide
  have h₄ : Key.str (ascii "read") ≠ Key.str (ascii "required_flags") := by decide
  simp only [Completed.assign, List.foldl_cons, List.foldl_nil]
  rw [rawget_rawset_ne _ _ h₄, rawget_rawset_ne _ _ h₃, rawget_rawset_ne _ _ h₂, rawget_rawset_ne _ _ h₁,
    rawget_rawset_self]

theorem rawget_assign_write (c : Completed) (t : Table) :
    rawget (c.assign t) (.str (ascii "write")) = c.write := by
  have h₁ : Key.str (ascii "write") ≠ Key.str (ascii "write_policy") := by decide
  have h₂ : Key.str (ascii "write") ≠ Key.str (ascii "merge") := by decide
  have h₃ : Key.str (ascii "write") ≠ Key.str (ascii "required_flags") := by decide
  simp only [Completed.assign, List.foldl_cons, List.foldl_nil]
  rw [rawget_rawset_ne _ _ h₃, rawget_rawset_ne _ _ h₂, rawget_rawset_ne _ _ h₁, rawget_rawset_self]

variable {pools : List (Value × P)} {poolNames : List Bytes}

theorem writeFgen_balanced (k : BuiltKeyspace P) : (writeFgen L k).Balanced := by
  have hne : ∀ v ∈ (handlesFor k.writePools).map (fun _ => Value.scalar 0), v ≠ .nil := by simp
  unfold FanOut.Balanced writeFgen
  simp only
  rw [L.len_ofList hne, ipairs_ofList hne, List.length_map]
  exact ⟨rfl, rfl⟩

/-- An accepted keyspace is built, and fans out exactly if its lists are visited. -/
theorem KeyspaceOk.built {e : Table} {p : Bytes} {c : Completed} (h : KeyspaceOk L requiredFlags poolNames e p c)
    (hknown : ∀ n ∈ poolNames, ∃ q ∈ pools, q.1 = .str n) (hfresh : (pools.map Prod.snd).Nodup) :
    ∃ k, buildKeyspace pools (c.complete (.table e)) = .ok k ∧
      (FansOut L pools k ↔ ListsVisited L (.table e)) := by
  obtain ⟨read, readNames, hread, hlen, hreadNames⟩ := h.read_ok
  obtain ⟨write, writeNames, hwrite, -, hwriteNames⟩ := h.write_ok
  have hreadOf : poolListOf (ascii "read") (.table e) = read := by
    rw [poolListOf, ← h.read_eq, hread]
    rfl
  have hwriteOf : poolListOf (ascii "write") (.table e) = write := by
    rw [poolListOf, ← h.write_eq, hwrite]
    rfl
  obtain ⟨hreadBuilt, hreadNodup⟩ := hreadNames.built hknown hfresh
  obtain ⟨hwriteBuilt, hwriteNodup⟩ := hwriteNames.built hknown hfresh
  have hhandles : (handlesFor ((ipairs read).map (poolNamed pools))).length = (ipairs read).length := by
    rw [handlesFor_length, List.length_map]
    intro o ho
    obtain ⟨q, -, rfl⟩ := hreadBuilt o ho
    rfl
  unfold buildKeyspace ListsVisited
  simp only [Completed.complete, rawget_assign_read, rawget_assign_write, hread, hwrite, hreadOf, hwriteOf]
  refine ⟨_, rfl, ?_⟩
  constructor
  · intro hfans
    have hwaits := hfans.readBalanced.1
    simp only [readFgen] at hwaits
    refine ⟨by omega, ?_⟩
    intro hnil
    exact hfans.write.nonempty (by simp [hnil])
  · intro hvisited
    refine ⟨⟨?_, hreadBuilt, hreadNodup⟩, ⟨?_, hwriteBuilt, hwriteNodup⟩, ⟨?_, hhandles⟩, writeFgen_balanced _⟩
    · intro hnil
      have hzero : (ipairs read).length = 0 := by simpa using congrArg List.length hnil
      omega
    · intro hnil
      exact hvisited.2 (List.map_eq_nil_iff.mp hnil)
    · simp only [readFgen]
      omega

/-! ### Whole configurations -/

theorem buildKeyspaces_of_ok (hknown : ∀ n ∈ poolNames, ∃ q ∈ pools, q.1 = .str n)
    (hfresh : (pools.map Prod.snd).Nodup) : ∀ {vs : List Value} {cs : List Completed},
    List.Forall₂ (fun v c => ∃ e p, v = .table e ∧ KeyspaceOk L requiredFlags poolNames e p c) vs cs →
    ∃ built, (List.zipWith (fun v c => c.complete v) vs cs).mapM (buildKeyspace pools) = .ok built ∧
      ((∀ k ∈ built, FansOut L pools k) ↔ ∀ v ∈ vs, ListsVisited L v)
  | [], [], .nil => ⟨[], rfl, by simp⟩
  | v :: vs, c :: cs, .cons h hrest => by
      obtain ⟨e, p, rfl, hok⟩ := h
      obtain ⟨k, hk, hfans⟩ := hok.built hknown hfresh
      obtain ⟨built, hbuilt, hall⟩ := buildKeyspaces_of_ok hknown hfresh hrest
      refine ⟨k :: built, ?_, ?_⟩
      · rw [List.zipWith_cons_cons, List.mapM_cons, hk, hbuilt]
        rfl
      · rw [List.forall_mem_cons, List.forall_mem_cons, hfans, hall]

/-- The keyspaces of an accepted configuration are built without an error, and all of them fan out
to as many pools as they wait for exactly if the lists of every keyspace are visited.  The pool
objects are assumed to be different, as `mcp.pool` makes a new one every time. -/
theorem fans_out_iff {cfg cfg' : Value} (hvalid : validate L requiredFlags cfg = .ok cfg')
    (hpools : buildPools backend pool cfg' = .ok pools) (hfresh : (pools.map Prod.snd).Nodup) :
    ∃ built, buildKeyspaces pools cfg' = .ok built ∧
      ((∀ k ∈ built, FansOut L pools k) ↔ ∀ entry ∈ keyspaceEntries cfg, ListsVisited L entry) := by
  obtain ⟨c, pls, kss, poolNames, cs, rfl, hpls, hkss, hnames, hcs, rfl⟩ := validate_ok.mp hvalid
  have hother : rawget (rawset c (.str (ascii "keyspaces")) (.table (completeFrom 1 cs kss)))
      (.str (ascii "pools")) = .table pls := by
    rw [rawget_rawset_ne _ _ (by decide), hpls]
  have hbuilt : (ipairs pls).mapM (buildPool backend pool) = .ok pools := by
    simpa only [buildPools, hother] using hpools
  have hentries : keyspaceEntries (.table c) = ipairs kss := by simp only [keyspaceEntries, hkss]
  have hbuild : buildKeyspaces pools (.table (rawset c (.str (ascii "keyspaces"))
      (.table (completeFrom 1 cs kss)))) =
      (List.zipWith (fun v c => c.complete v) (ipairs kss) cs).mapM (buildKeyspace pools) := by
    simp only [buildKeyspaces, rawget_rawset_self, ipairs_complete (validateKeyspaces_tables hcs)]
  rw [hbuild, hentries]
  exact buildKeyspaces_of_ok (known_built hnames hbuilt) hfresh (validateKeyspaces_forall₂ hcs)

end

/-! ### Two pools, with and without a hole -/

/-- A pool with one address. -/
def onePool (name addr : Bytes) : Value :=
  .table [(.str (ascii "name"), .str name), (.str (ascii "addrs"), .table (ofList [.str addr]))]

/-- The pools `mc-a` and `mc-b`, and one keyspace that reads from the given list. -/
def readsFrom (read : List Value) : Value :=
  .table [(.str (ascii "pools"),
      .table (ofList [onePool (ascii "mc-a") (ascii "a:1"), onePool (ascii "mc-b") (ascii "b:1")])),
    (.str (ascii "keyspaces"), .table (ofList [.table [(.str (ascii "prefix"), .str (ascii "user")),
      (.str (ascii "read"), .table (ofList read)), (.str (ascii "write"), .str (ascii "mc-a"))]]))]

/-- A registry that knows every merge. -/
def anyFlags (_ : Bytes) : Option Bytes := some []

/-- Backends that are their labels, and pools that are their backends. -/
def labelBackend (label _ _ : Bytes) : Option Bytes := some label

def listPool (backends : List Bytes) (_ _ : Value) : Option (List Bytes) := some backends

theorem eq_ok_getD {ε α : Type} {x : Except ε α} (dflt : α) (h : x.toOption.isSome) :
    x = .ok (x.toOption.getD dflt) := by
  cases x with
  | error e => simp [Except.toOption] at h
  | ok a => rfl

section
variable (L : LengthOp) (cfg : Value)

/-- The configuration that the validator returns. -/
def validated : Value := (validate L anyFlags cfg).toOption.getD .nil

/-- The pools that are built from it. -/
def builtPools : List (Value × List Bytes) :=
  (buildPools labelBackend listPool (validated L cfg)).toOption.getD []

/-- The keyspaces that are built from it. -/
def builtKeyspaces : List (BuiltKeyspace (List Bytes)) :=
  (buildKeyspaces (builtPools L cfg) (validated L cfg)).toOption.getD []

end

def bothPools : Value := readsFrom [.str (ascii "mc-a"), .str (ascii "mc-b")]

/-- A list without a hole. -/
theorem fans_out_two_pools :
    ∃ built, buildKeyspaces (builtPools .least bothPools) (validated .least bothPools) = .ok built ∧
      ∀ k ∈ built, FansOut .least (builtPools .least bothPools) k := by
  have hvalid : validate .least anyFlags bothPools = .ok (validated .least bothPools) :=
    eq_ok_getD .nil (by decide +kernel)
  have hpools : buildPools labelBackend listPool (validated .least bothPools) = .ok (builtPools .least bothPools) :=
    eq_ok_getD [] (by decide +kernel)
  obtain ⟨built, hbuilt, hfans⟩ := fans_out_iff hvalid hpools (by decide +kernel)
  refine ⟨built, hbuilt, hfans.mpr ?_⟩
  intro entry hentry
  have hwrite : ∀ entry ∈ keyspaceEntries bothPools, (ipairs (poolListOf (ascii "write") entry)).length ≠ 0 := by
    decide +kernel
  exact ⟨rfl, fun hnil => hwrite entry hentry (by rw [hnil]; rfl)⟩

/-- The list `{ nil, "mc-b" }`, where `os.getenv` found nothing. -/
def withHole : Value := readsFrom [.nil, .str (ascii "mc-b")]

/-- The read handler waits for two responses and has asked for none. -/
theorem hole_waits_for_nothing :
    validate (.preferring 2) anyFlags withHole = .ok (validated (.preferring 2) withHole) ∧
    buildPools labelBackend listPool (validated (.preferring 2) withHole) =
      .ok (builtPools (.preferring 2) withHole) ∧
    ((builtPools (.preferring 2) withHole).map Prod.snd).Nodup ∧
    buildKeyspaces (builtPools (.preferring 2) withHole) (validated (.preferring 2) withHole) =
      .ok (builtKeyspaces (.preferring 2) withHole) ∧
    ∃ k ∈ builtKeyspaces (.preferring 2) withHole,
      (readFgen (.preferring 2) k).handles = [] ∧ (readFgen (.preferring 2) k).waitsFor = 2 ∧
      ¬FansOut (.preferring 2) (builtPools (.preferring 2) withHole) k := by
  refine ⟨eq_ok_getD .nil (by decide +kernel), eq_ok_getD [] (by decide +kernel), by decide +kernel,
    eq_ok_getD [] (by decide +kernel), ?_⟩
  have hcounts : ∃ k ∈ builtKeyspaces (.preferring 2) withHole,
      (readFgen (.preferring 2) k).handles.length = 0 ∧ (readFgen (.preferring 2) k).waitsFor = 2 := by
    decide +kernel
  obtain ⟨k, hk, hhandles, hwaits⟩ := hcounts
  refine ⟨k, hk, List.length_eq_zero_iff.mp hhandles, hwaits, ?_⟩
  intro hfans
  have hbalanced := hfans.readBalanced.1
  omega

end McGateway.Config
