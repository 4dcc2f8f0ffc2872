import McGateway.ConfigValidation
import McGateway.Selections

/-! # Loading and reloading (`mcgateway.lua`, `pools.lua`, `mcp_config_pools`)

`mcpConfigPools` is the hook memcached calls at startup and on every reload: load and validate the
configuration, falling back to the last good one, and build the backend pools.  An error raised by
the hook during a reload is fatal to the process.

`mcp.backend` and `mcp.pool` belong to memcached; they are parameters that may refuse their
arguments (`none`).  The port handed to `mcp.backend` is the matched digit string, so the
parameter covers `tonumber` as well. -/

namespace McGateway.Config

open Lua
open Bytes (ascii isDigit)

/-! ### Addresses -/

/-- `addr:match("^(.+):(%d+)$")`: the host and the digits of the port. -/
def parseAddr (addr : Bytes) : Option (Bytes × Bytes) :=
  match addr.reverse.dropWhile isDigit with
  | [] => none
  | c :: host =>
      let port := (addr.reverse.takeWhile isDigit).reverse
      if c = 58 ∧ host ≠ [] ∧ port ≠ [] then some (host.reverse, port) else none

inductive BuildError where
  /-- A Lua run-time error: indexing a value that has no fields. -/
  | index (v : Value)
  /-- `invalid addr <addr> (expected host:port)` -/
  | invalidAddr (addr : Value)
  /-- `mcp.backend` refuses its arguments. -/
  | backend (label : Bytes)
  /-- `mcp.pool` refuses its arguments. -/
  | pool (name : Value)
  /-- `load_config must run before build_pools` -/
  | noConfig
deriving Repr

/-! ### Pools -/

section build
variable {B P : Type} (backend : Bytes → Bytes → Bytes → Option B)
  (pool : List B → Value → Value → Option P)

/-- `make_backend`. -/
def makeBackend (poolName addr : Value) : Except BuildError B :=
  match poolName, addr with
  | .str name, .str a =>
      match parseAddr a with
      | none => .error (.invalidAddr addr)
      | some (host, port) =>
          match backend (name ++ ascii "/" ++ a) host port with
          | some b => .ok b
          | none => .error (.backend (name ++ ascii "/" ++ a))
  | _, _ => .error (.invalidAddr addr)

/-- One round of the loop of `pools.build`. -/
def buildPool (p : Value) : Except BuildError (Value × P) :=
  match p with
  | .table t =>
      let name := rawget t (.str (ascii "name"))
      match rawget t (.str (ascii "addrs")) with
      | .table addrs => do
          let backends ← (ipairs addrs).mapM (makeBackend backend name)
          match pool backends (rawget t (.str (ascii "hash"))) (rawget t (.str (ascii "dist"))) with
          | some obj => .ok (name, obj)
          | none => .error (.pool name)
      | v => .error (.index v)
  | v => .error (.index v)

/-- `pools.build`: the pool objects under their names. -/
def buildPools (cfg : Value) : Except BuildError (List (Value × P)) :=
  match cfg with
  | .table c =>
      match rawget c (.str (ascii "pools")) with
      | .table pools => (ipairs pools).mapM (buildPool backend pool)
      | v => .error (.index v)
  | v => .error (.index v)

/-! ### The hook -/

/-- The module state of `mcgateway.lua`. -/
structure Gateway where
  config : Option Value
  lastGood : Option Value
deriving Repr

def Gateway.init : Gateway := ⟨none, none⟩

variable (L : LengthOp)

/-- `load_config`: the new state and the configuration returned, or the error raised. -/
def loadConfig (requiredFlags : Bytes → Option Bytes) (chunk : Chunk) (g : Gateway) :
    Gateway × Except ConfigError Value :=
  match load L requiredFlags chunk with
  | .ok cfg => (⟨some cfg, some cfg⟩, .ok cfg)
  | .error e =>
      match g.lastGood with
      | none => (g, .error e)
      | some good => ({ g with config := some good }, .ok good)

/-- What a call of the hook depends on: the content of the file and the registry. -/
structure Input where
  chunk : Chunk
  requiredFlags : Bytes → Option Bytes

/-- What the hook hands to the workers. -/
structure Bundle (P : Type) where
  pools : List (Value × P)
  config : Value
deriving Repr

inductive HookError where
  | load (e : ConfigError)
  | build (e : BuildError)
deriving Repr

/-- `build_pools`. -/
def Gateway.buildPools (g : Gateway) : Except BuildError (List (Value × P)) :=
  match g.config with
  | none => .error .noConfig
  | some cfg => Config.buildPools backend pool cfg

/-- `mcp_config_pools`. -/
def mcpConfigPools (g : Gateway) (x : Input) : Gateway × Except HookError (Bundle P) :=
  let r := loadConfig L x.requiredFlags x.chunk g
  match r.2 with
  | .error e => (r.1, .error (.load e))
  | .ok cfg =>
      match r.1.buildPools backend pool with
      | .error e => (r.1, .error (.build e))
      | .ok pools => (r.1, .ok ⟨pools, cfg⟩)

/-- The module state after a sequence of calls. -/
def afterCalls (xs : List Input) : Gateway :=
  xs.foldl (fun g x => (mcpConfigPools backend pool L g x).1) .init

/-- What the hook returns after the calls `xs`. -/
def callAfter (xs : List Input) (x : Input) : Except HookError (Bundle P) :=
  (mcpConfigPools backend pool L (afterCalls backend pool L xs) x).2

/-- The bundle of a content that can be loaded, validated and built into pools. -/
def goodBundle (x : Input) : Option (Bundle P) :=
  match load L x.requiredFlags x.chunk with
  | .error _ => none
  | .ok cfg =>
      match Config.buildPools backend pool cfg with
      | .error _ => none
      | .ok pools => some ⟨pools, cfg⟩

/-- The bundle of the most recent such content. -/
def latestGood (xs : List Input) : Option (Bundle P) :=
  (xs.filterMap (goodBundle backend pool L)).getLast?

/-- One of the calls returned a bundle. -/
def Started (xs : List Input) : Prop :=
  ∃ ys x zs b, xs = ys ++ x :: zs ∧ callAfter backend pool L ys x = .ok b

/-- Once a call has succeeded, every later call returns the bundle of the most recent content
that could be loaded, validated and built. -/
def Survives (xs : List Input) : Prop :=
  ∀ ys x zs, xs = ys ++ x :: zs → Started backend pool L ys →
    ∃ b, callAfter backend pool L ys x = .ok b ∧ latestGood backend pool L (ys ++ [x]) = some b

/-- Once a content was good, every later content that validates also builds. -/
def ValidatedBuilds (xs : List Input) : Prop :=
  ∀ ys x zs, xs = ys ++ x :: zs → (∃ y ∈ ys, (goodBundle backend pool L y).isSome) →
    ∀ cfg, load L x.requiredFlags x.chunk = .ok cfg → ∃ pools, Config.buildPools backend pool cfg = .ok pools

/-! ### What a call returns -/

/-- The most recent configuration that loaded and validated. -/
def latestLoaded (xs : List Input) : Option Value :=
  (xs.filterMap fun x => (load L x.requiredFlags x.chunk).toOption).getLast?

end build

/-- The last value produced by a list of attempts comes from the last attempt that succeeds. -/
theorem getLast?_filterMap_eq_some {α β : Type} {f : α → Option β} {l : List α} {b : β} :
    (l.filterMap f).getLast? = some b ↔
      ∃ p w q, l = p ++ w :: q ∧ f w = some b ∧ ∀ z ∈ q, f z = none := by
  constructor
  · intro h
    induction l using List.reverseRecOn with
    | nil => simp at h
    | append_singleton l a ih =>
        rw [List.filterMap_append] at h
        cases ha : f a with
        | some c =>
            rw [List.filterMap_cons_some ha, List.filterMap_nil, List.getLast?_concat,
              Option.some.injEq] at h
            exact ⟨l, a, [], rfl, h ▸ ha, by simp⟩
        | none =>
            rw [List.filterMap_cons_none ha, List.filterMap_nil, List.append_nil] at h
            obtain ⟨p, w, q, rfl, hw, hq⟩ := ih h
            refine ⟨p, w, q ++ [a], by simp, hw, ?_⟩
            intro z hz
            rcases List.mem_append.mp hz with hz | hz
            · exact hq z hz
            · rw [List.mem_singleton.mp hz]
              exact ha
  · rintro ⟨p, w, q, rfl, hw, hq⟩
    rw [List.filterMap_append, List.filterMap_cons_some hw, List.filterMap_eq_nil_iff.mpr hq,
      List.getLast?_concat]

section hook
variable {B P : Type} {backend : Bytes → Bytes → Bytes → Option B}
  {pool : List B → Value → Value → Option P} {L : LengthOp}

theorem latestLoaded_concat (xs : List Input) (x : Input) : latestLoaded L (xs ++ [x]) =
    ((load L x.requiredFlags x.chunk).toOption).or (latestLoaded L xs) := by
  unfold latestLoaded
  rw [List.filterMap_append]
  cases h : load L x.requiredFlags x.chunk with
  | ok cfg => simp [h, Except.toOption]
  | error e => simp [h, Except.toOption]

/-- `load_config` settles on the new configuration if it validates, else on the last good one. -/
theorem loadConfig_of_some {g : Gateway} {x : Input} {cfg : Value}
    (h : ((load L x.requiredFlags x.chunk).toOption).or g.lastGood = some cfg) :
    loadConfig L x.requiredFlags x.chunk g = (⟨some cfg, some cfg⟩, .ok cfg) := by
  unfold loadConfig
  cases hl : load L x.requiredFlags x.chunk with
  | ok c =>
      rw [hl] at h
      obtain rfl : c = cfg := by simpa [Except.toOption] using h
      rfl
  | error e =>
      rw [hl] at h
      have hg : g.lastGood = some cfg := by simpa [Except.toOption] using h
      simp only [hg]

theorem loadConfig_of_none {g : Gateway} {x : Input}
    (h : ((load L x.requiredFlags x.chunk).toOption).or g.lastGood = none) :
    g.lastGood = none ∧ ∃ e, loadConfig L x.requiredFlags x.chunk g = (g, .error e) := by
  unfold loadConfig
  cases hl : load L x.requiredFlags x.chunk with
  | ok c =>
      rw [hl] at h
      simp [Except.toOption] at h
  | error e =>
      rw [hl] at h
      have hg : g.lastGood = none := by simpa [Except.toOption] using h
      exact ⟨hg, e, by simp only [hg]⟩

/-- A failed load keeps serving what is served. -/
theorem loadConfig_of_error {requiredFlags : Bytes → Option Bytes} {chunk : Chunk} {g : Gateway}
    {e : ConfigError} (h : load L requiredFlags chunk = .error e) (hg : g.config = g.lastGood) :
    (loadConfig L requiredFlags chunk g).1 = g := by
  obtain ⟨config, lastGood⟩ := g
  dsimp only at hg
  subst hg
  unfold loadConfig
  rw [h]
  cases config <;> rfl

theorem mcpConfigPools_spec (g : Gateway) (x : Input) :
    (mcpConfigPools backend pool L g x).1.lastGood =
      ((load L x.requiredFlags x.chunk).toOption).or g.lastGood ∧
    ∀ b, (mcpConfigPools backend pool L g x).2 = .ok b ↔
      ((load L x.requiredFlags x.chunk).toOption).or g.lastGood = some b.config ∧
        buildPools backend pool b.config = .ok b.pools := by
  unfold mcpConfigPools
  cases hl : ((load L x.requiredFlags x.chunk).toOption).or g.lastGood with
  | none =>
      obtain ⟨hg, e, he⟩ := loadConfig_of_none hl
      simp [he, hg]
  | some cfg =>
      simp only [loadConfig_of_some hl, Gateway.buildPools]
      cases hb : buildPools backend pool cfg with
      | error e =>
          refine ⟨rfl, fun b => iff_of_false (by simp) ?_⟩
          rintro ⟨hc, h⟩
          rw [Option.some.injEq] at hc
          simp [← hc, hb] at h
      | ok pools =>
          refine ⟨rfl, fun b => ?_⟩
          simp only [Except.ok.injEq, Option.some.injEq]
          constructor
          · rintro rfl
            exact ⟨rfl, hb⟩
          · rintro ⟨rfl, h⟩
            rw [hb, Except.ok.injEq] at h
            rw [h]

/-- The fallback is the most recent configuration that validated. -/
theorem lastGood_afterCalls (xs : List Input) :
    (afterCalls backend pool L xs).lastGood = latestLoaded L xs := by
  induction xs using List.reverseRecOn with
  | nil => rfl
  | append_singleton xs x ih =>
      rw [latestLoaded_concat, ← ih]
      unfold afterCalls
      rw [List.foldl_append, List.foldl_cons, List.foldl_nil]
      exact (mcpConfigPools_spec _ x).1

/-- A call returns what builds from the most recent configuration that validated. -/
theorem callAfter_eq_ok {xs : List Input} {x : Input} {b : Bundle P} :
    callAfter backend pool L xs x = .ok b ↔
      latestLoaded L (xs ++ [x]) = some b.config ∧ buildPools backend pool b.config = .ok b.pools := by
  unfold callAfter
  rw [(mcpConfigPools_spec _ x).2 b, latestLoaded_concat, lastGood_afterCalls]

theorem goodBundle_eq_some {x : Input} {b : Bundle P} : goodBundle backend pool L x = some b ↔
    load L x.requiredFlags x.chunk = .ok b.config ∧ buildPools backend pool b.config = .ok b.pools := by
  unfold goodBundle
  cases load L x.requiredFlags x.chunk with
  | error e => simp
  | ok cfg =>
      simp only [Except.ok.injEq]
      cases hb : buildPools backend pool cfg with
      | error e =>
          refine iff_of_false (by simp) ?_
          rintro ⟨rfl, h⟩
          simp [hb] at h
      | ok pools =>
          simp only [Option.some.injEq]
          constructor
          · rintro rfl
            exact ⟨rfl, hb⟩
          · rintro ⟨rfl, h⟩
            rw [hb, Except.ok.injEq] at h
            rw [h]

theorem latestLoaded_eq_some {xs : List Input} {cfg : Value} : latestLoaded L xs = some cfg ↔
    ∃ p w q, xs = p ++ w :: q ∧ load L w.requiredFlags w.chunk = .ok cfg ∧
      ∀ z ∈ q, ∀ c, load L z.requiredFlags z.chunk ≠ .ok c := by
  unfold latestLoaded
  rw [getLast?_filterMap_eq_some]
  have hsome : ∀ (r : Except ConfigError Value) c, r.toOption = some c ↔ r = .ok c := by
    intro r c
    cases r <;> simp [Except.toOption]
  have hnone : ∀ r : Except ConfigError Value, r.toOption = none ↔ ∀ c, r ≠ .ok c := by
    intro r
    cases r <;> simp [Except.toOption]
  simp only [hsome, hnone]

/-- A call succeeds by itself or falls back on one that could: the gateway has started exactly
when some content was good. -/
theorem started_iff {xs : List Input} :
    Started backend pool L xs ↔ ∃ y ∈ xs, (goodBundle backend pool L y).isSome := by
  constructor
  · rintro ⟨ys, x, zs, b, rfl, hb⟩
    obtain ⟨hl, hbuild⟩ := callAfter_eq_ok.mp hb
    obtain ⟨p, w, q, hpq, hw, -⟩ := latestLoaded_eq_some.mp hl
    have hmem : w ∈ ys ++ [x] := by
      rw [hpq]
      simp
    refine ⟨w, ?_, Option.isSome_iff_exists.mpr ⟨b, goodBundle_eq_some.mpr ⟨hw, hbuild⟩⟩⟩
    simp only [List.mem_append, List.mem_cons] at hmem ⊢
    tauto
  · rintro ⟨y, hy, hgood⟩
    obtain ⟨b, hb⟩ := Option.isSome_iff_exists.mp hgood
    obtain ⟨hload, hbuild⟩ := goodBundle_eq_some.mp hb
    obtain ⟨p, q, rfl⟩ := List.append_of_mem hy
    refine ⟨p, y, q, b, rfl, callAfter_eq_ok.mpr ⟨?_, hbuild⟩⟩
    exact latestLoaded_eq_some.mpr ⟨p, y, [], rfl, hload, by simp⟩

/-- After a good content, and if everything that validates builds, the configuration a call
settles on is that of the most recent good content. -/
theorem latestLoaded_builds {xs ys zs : List Input} {x : Input} (hx : xs = ys ++ x :: zs)
    (hall : ValidatedBuilds backend pool L xs) (hgood : ∃ y ∈ ys, (goodBundle backend pool L y).isSome) :
    ∃ b, latestLoaded L (ys ++ [x]) = some b.config ∧ buildPools backend pool b.config = .ok b.pools ∧
      latestGood backend pool L (ys ++ [x]) = some b := by
  obtain ⟨y, hy, hsome⟩ := hgood
  obtain ⟨c, hc⟩ := Option.isSome_iff_exists.mp hsome
  obtain ⟨hload, hbuild⟩ := goodBundle_eq_some.mp hc
  obtain ⟨cfg, hcfg⟩ : ∃ cfg, latestLoaded L (ys ++ [x]) = some cfg := by
    cases hl : latestLoaded L (ys ++ [x]) with
    | some cfg => exact ⟨cfg, rfl⟩
    | none =>
        rw [latestLoaded, List.getLast?_eq_none_iff, List.filterMap_eq_nil_iff] at hl
        have := hl y (List.mem_append_left _ hy)
        simp [hload, Except.toOption] at this
  obtain ⟨p, w, q, hpq, hw, hq⟩ := latestLoaded_eq_some.mp hcfg
  obtain ⟨pools, hpools⟩ : ∃ pools, buildPools backend pool cfg = .ok pools := by
    have hmem : y ∈ p ++ w :: q := hpq ▸ List.mem_append_left _ hy
    rcases List.mem_append.mp hmem with hyp | hyw
    · have hxs : xs = p ++ w :: (q ++ zs) := by
        rw [hx, ← List.singleton_append, ← List.append_assoc, hpq, List.append_assoc, List.cons_append]
      exact hall p w _ hxs ⟨y, hyp, hsome⟩ cfg hw
    · rcases List.mem_cons.mp hyw with rfl | hyq
      · rw [hload, Except.ok.injEq] at hw
        exact ⟨c.pools, hw ▸ hbuild⟩
      · exact absurd hload (hq y hyq _)
  refine ⟨⟨pools, cfg⟩, hcfg, hpools, getLast?_filterMap_eq_some.mpr ⟨p, w, q, hpq, ?_, ?_⟩⟩
  · exact goodBundle_eq_some.mpr ⟨hw, hpools⟩
  · intro z hz
    rw [Option.eq_none_iff_forall_ne_some]
    intro b hb
    exact hq z hz _ (goodBundle_eq_some.mp hb).1

/-- Reloads keep the gateway alive, serving the most recent usable content, exactly when every
content that validates after the first success also builds into pools. -/
theorem survives_iff (xs : List Input) :
    Survives backend pool L xs ↔ ValidatedBuilds backend pool L xs := by
  constructor
  · intro h ys x zs hx hgood cfg hcfg
    obtain ⟨b, hb, -⟩ := h ys x zs hx (started_iff.mpr hgood)
    obtain ⟨hl, hbuild⟩ := callAfter_eq_ok.mp hb
    rw [latestLoaded_concat, hcfg] at hl
    obtain rfl : cfg = b.config := by simpa [Except.toOption] using hl
    exact ⟨b.pools, hbuild⟩
  · intro h ys x zs hx hstarted
    obtain ⟨b, hl, hbuild, hlatest⟩ := latestLoaded_builds hx h (started_iff.mp hstarted)
    exact ⟨b, callAfter_eq_ok.mpr ⟨hl, hbuild⟩, hlatest⟩

end hook

/-! ### When pools build -/

/-- `host:port`, the port in digits. -/
def HostPort (addr : Bytes) : Prop :=
  ∃ host port, addr = host ++ 58 :: port ∧ host ≠ [] ∧ port ≠ [] ∧ ∀ c ∈ port, isDigit c = true

/-- The host ends at the last colon, and only digits follow it. -/
theorem parseAddr_eq_some {addr host port : Bytes} : parseAddr addr = some (host, port) ↔
    addr = host ++ 58 :: port ∧ host ≠ [] ∧ port ≠ [] ∧ ∀ c ∈ port, isDigit c = true := by
  unfold parseAddr
  constructor
  · intro h
    have hsplit := List.takeWhile_append_dropWhile (p := isDigit) (l := addr.reverse)
    cases hd : addr.reverse.dropWhile isDigit with
    | nil =>
        rw [hd] at h
        cases h
    | cons c rest =>
        rw [hd] at h hsplit
        dsimp only at h
        split_ifs at h with hc
        obtain ⟨rfl, hrest, hport⟩ := hc
        obtain ⟨rfl, rfl⟩ := Prod.mk.inj (Option.some.inj h)
        refine ⟨?_, by simpa using hrest, hport, ?_⟩
        · rw [← List.reverse_inj, List.reverse_append, List.reverse_cons, List.reverse_reverse,
            List.reverse_reverse, List.append_assoc, List.singleton_append]
          exact hsplit.symm
        · intro c hmem
          exact List.mem_takeWhile_imp (List.mem_reverse.mp hmem)
  · rintro ⟨rfl, hhost, hport, hdigits⟩
    have hall : ∀ c ∈ port.reverse, isDigit c = true := fun c hc => hdigits c (List.mem_reverse.mp hc)
    have hcolon : isDigit 58 = false := by decide
    have hrev : (host ++ 58 :: port).reverse = port.reverse ++ 58 :: host.reverse := by simp
    rw [hrev, List.dropWhile_append_of_pos hall, List.takeWhile_append_of_pos hall,
      List.dropWhile_cons_of_neg (by simp [hcolon]), List.takeWhile_cons_of_neg (by simp [hcolon])]
    simp [hhost, hport]

theorem hostPort_iff {addr : Bytes} : HostPort addr ↔ (parseAddr addr).isSome := by
  rw [Option.isSome_iff_exists]
  constructor
  · rintro ⟨host, port, h⟩
    exact ⟨_, parseAddr_eq_some.mpr h⟩
  · rintro ⟨⟨host, port⟩, h⟩
    exact ⟨host, port, parseAddr_eq_some.mp h⟩

/-- The addresses of an entry of `cfg.pools`. -/
def poolAddrs : Value → List Value
  | .table t =>
      match rawget t (.str (ascii "addrs")) with
      | .table addrs => ipairs addrs
      | _ => []
  | _ => []

/-- The addresses of all pools of a configuration. -/
def addresses (cfg : Value) : List Value :=
  match cfg with
  | .table c =>
      match rawget c (.str (ascii "pools")) with
      | .table pools => (ipairs pools).flatMap poolAddrs
      | _ => []
  | _ => []

section accepting
variable {B P : Type} {backend : Bytes → Bytes → Bytes → Option B}
  {pool : List B → Value → Value → Option P} {L : LengthOp}

/-- memcached refuses no backend, and no pool whose options the validator lets through. -/
structure Accepting (backend : Bytes → Bytes → Bytes → Option B)
    (pool : List B → Value → Value → Option P) : Prop where
  backend : ∀ label host port, (backend label host port).isSome
  pool : ∀ backends hash dist, (hash = .nil ∨ memberOf validHash hash = true) →
    (dist = .nil ∨ memberOf validDist dist = true) → (pool backends hash dist).isSome

theorem exists_makeBackend_iff (h : Accepting backend pool) (name : Bytes) {addr : Value} :
    (∃ b, makeBackend backend (.str name) addr = .ok b) ↔ ∃ a, addr = .str a ∧ HostPort a := by
  cases addr with
  | nil | scalar | table =>
      refine iff_of_false ?_ ?_
      · rintro ⟨b, hb⟩
        cases hb
      · rintro ⟨a, ha, -⟩
        cases ha
  | str a =>
      simp only [makeBackend, Value.str.injEq, exists_eq_left', hostPort_iff]
      cases parseAddr a with
      | none => simp
      | some hp =>
          obtain ⟨b, hb⟩ := Option.isSome_iff_exists.mp (h.backend (name ++ ascii "/" ++ a) hp.1 hp.2)
          simp only [hb, Option.isSome_some, iff_true]
          exact ⟨b, rfl⟩

/-- A pool that passed validation builds if and only if its addresses are `host:port`. -/
theorem exists_buildPool_iff (h : Accepting backend pool) {t addrs : Table} {name : Bytes}
    (hok : PoolOk L t name addrs) : (∃ r, buildPool backend pool (.table t) = .ok r) ↔
      ∀ addr ∈ poolAddrs (.table t), ∃ a, addr = .str a ∧ HostPort a := by
  have hname : rawget t (.str (ascii "name")) = .str name := (nonemptyString_eq_some.mp hok.name_eq).1
  simp only [poolAddrs, buildPool, hok.addrs_eq, hname, ← exists_makeBackend_iff h name]
  rw [← Selections.exists_mapM_ok_iff]
  cases (ipairs addrs).mapM (makeBackend backend (.str name)) with
  | error e => simp [bind, Except.bind]
  | ok backends =>
      obtain ⟨p, hp⟩ := Option.isSome_iff_exists.mp (h.pool backends _ _ hok.hash_ok hok.dist_ok)
      simp [bind, Except.bind, hp]

theorem validatePools_poolOk : ∀ {ps : List Value} {seen names : List Bytes},
    validatePools L ps seen = .ok names → ∀ p ∈ ps, ∃ t name addrs, p = .table t ∧ PoolOk L t name addrs
  | [], _, _, _ => by simp
  | p :: ps, seen, names, h => by
      simp only [validatePools, bind_eq_ok] at h
      obtain ⟨seen', hp, hps⟩ := h
      obtain ⟨t, name, addrs, ht, hok, -⟩ := validatePool_ok.mp hp
      exact List.forall_mem_cons.mpr ⟨⟨t, name, addrs, ht, hok⟩, validatePools_poolOk hps⟩

/-- A configuration that loads builds if and only if its addresses are `host:port`. -/
theorem exists_buildPools_iff (h : Accepting backend pool) {requiredFlags : Bytes → Option Bytes}
    {v cfg : Value} (hload : load L requiredFlags (.returns v) = .ok cfg) :
    (∃ pools, buildPools backend pool cfg = .ok pools) ↔
      ∀ addr ∈ addresses v, ∃ a, addr = .str a ∧ HostPort a := by
  obtain ⟨c, pools, kss, poolNames, cs, rfl, hpools, -, hvalid, -, rfl⟩ := validate_ok.mp hload
  have hkeep : Key.str (ascii "pools") ≠ Key.str (ascii "keyspaces") := by decide
  simp only [buildPools, addresses, rawget_rawset_ne _ _ hkeep, hpools, Selections.exists_mapM_ok_iff,
    List.mem_flatMap, forall_exists_index, and_imp]
  constructor
  · intro hbuild addr p hp haddr
    obtain ⟨t, name, addrs, rfl, hok⟩ := validatePools_poolOk hvalid p hp
    exact (exists_buildPool_iff h hok).mp (hbuild _ hp) addr haddr
  · intro hall p hp
    obtain ⟨t, name, addrs, rfl, hok⟩ := validatePools_poolOk hvalid p hp
    exact (exists_buildPool_iff h hok).mpr fun addr haddr => hall addr _ hp haddr

/-- If memcached refuses nothing, `ValidatedBuilds` is about the addresses of the contents. -/
theorem validatedBuilds_iff (h : Accepting backend pool) (xs : List Input) :
    ValidatedBuilds backend pool L xs ↔
      ∀ ys x zs, xs = ys ++ x :: zs → (∃ y ∈ ys, (goodBundle backend pool L y).isSome) →
        ∀ v cfg, x.chunk = .returns v → load L x.requiredFlags x.chunk = .ok cfg →
          ∀ addr ∈ addresses v, ∃ a, addr = .str a ∧ HostPort a := by
  constructor
  · intro hall ys x zs hx hgood v cfg hv hcfg
    have hbuild := hall ys x zs hx hgood cfg hcfg
    rw [hv] at hcfg
    exact (exists_buildPools_iff h hcfg).mp hbuild
  · intro hall ys x zs hx hgood cfg hcfg
    cases hv : x.chunk with
    | unloadable msg | raises msg =>
        rw [hv] at hcfg
        cases hcfg
    | returns v =>
        have haddrs := hall ys x zs hx hgood v cfg hv hcfg
        rw [hv] at hcfg
        exact (exists_buildPools_iff h hcfg).mpr haddrs

end accepting

/-! ### A configuration that validates and does not build -/

/-- A configuration with one pool at this address and no keyspaces. -/
def poolAt (addr : Bytes) : Input where
  chunk := .returns (.table
    [(.str (ascii "pools"), .table [(.int 1, .table [(.str (ascii "name"), .str (ascii "mc")),
      (.str (ascii "addrs"), .table [(.int 1, .str addr)])])]),
     (.str (ascii "keyspaces"), .table [])])
  requiredFlags := fun _ => none

/-- An address without a port passes validation, and the reload raises. -/
theorem not_survives_missing_port :
    let backend : Bytes → Bytes → Bytes → Option Unit := fun _ _ _ => some ()
    let pool : List Unit → Value → Value → Option Unit := fun _ _ _ => some ()
    ¬ Survives backend pool .least [poolAt (ascii "mc:11211"), poolAt (ascii "mc")] := by
  intro backend pool h
  have hgood : (goodBundle backend pool .least (poolAt (ascii "mc:11211"))).isSome := by
    decide +kernel
  have hstarted : Started backend pool .least [poolAt (ascii "mc:11211")] :=
    started_iff.mpr ⟨_, List.mem_singleton_self _, hgood⟩
  obtain ⟨b, hb, -⟩ := h [poolAt (ascii "mc:11211")] (poolAt (ascii "mc")) [] rfl hstarted
  have hraises : (callAfter backend pool .least [poolAt (ascii "mc:11211")]
      (poolAt (ascii "mc"))).toOption.isSome = false := by
    decide +kernel
  rw [hb] at hraises
  cases hraises

end McGateway.Config
