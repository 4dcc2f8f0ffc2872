import McGateway.LuaTables

/-! # The configuration validator (`config.lua`)

`validate` is the gateway's all-or-nothing check of a configuration table: the first violated
rule raises, and the whole file is refused.  On success it returns the table with the defaults
filled in and the merge flags of every keyspace resolved (the source mutates the table in place).

Two things the validator depends on are parameters: the length operator `L` (any border of a
table with holes is possible) and `requiredFlags`, the registry lookup behind
`mcgateway_native.required_flags` (`none`: the call raises).  Errors are kept as data, one
constructor per format string, with the values the message shows. -/

namespace McGateway.Config

open Lua
open Bytes (ascii)

def validHash : List Bytes := ["xxhash", "md5", "crc32"].map ascii
def validDist : List Bytes := ["ring_hash", "jump_hash"].map ascii
def validWritePolicy : List Bytes := ["all", "first"].map ascii
def defaultMerge : Bytes := ascii "first-hit"
def defaultWritePolicy : Bytes := ascii "all"

inductive ConfigError where
  /-- A Lua run-time error: indexing a value that has no fields. -/
  | index (v : Value)
  /-- `pool missing name` -/
  | poolMissingName
  /-- `duplicate pool name <name>` -/
  | duplicatePool (name : Bytes)
  /-- `pool <name>: addrs must be a non-empty list` -/
  | noAddrs (name : Bytes)
  /-- `pool <name>: addrs[<i>] must be a non-empty string` -/
  | badAddr (name : Bytes) (i : ℕ)
  /-- `pool <name>: invalid hash <v>` -/
  | badHash (name : Bytes) (v : Value)
  /-- `pool <name>: invalid dist <v>` -/
  | badDist (name : Bytes) (v : Value)
  /-- `keyspace <p>: <field> must be a non-empty list of pool names` -/
  | noPools (p field : Bytes)
  /-- `keyspace <p>: <field>[<i>] must be a string` -/
  | poolNotString (p field : Bytes) (i : ℕ)
  /-- `keyspace <p>: <field>[<i>] references unknown pool <name>` -/
  | unknownPool (p field : Bytes) (i : ℕ) (name : Bytes)
  /-- `keyspace <p>: <field> lists pool <name> twice` -/
  | listedTwice (p field name : Bytes)
  /-- `keyspace missing prefix` -/
  | missingPrefix
  /-- `keyspace prefix <p> must not contain ':'` -/
  | colonPrefix (p : Bytes)
  /-- `keyspace prefix <p> is reserved` -/
  | reservedPrefix (p : Bytes)
  /-- `duplicate keyspace prefix <p>` -/
  | duplicatePrefix (p : Bytes)
  /-- `keyspace <p>: invalid write_policy <v> (expected 'all' or 'first')` -/
  | badWritePolicy (p : Bytes) (v : Value)
  /-- `keyspace <p>: unknown merge <v>` -/
  | unknownMerge (p : Bytes) (v : Value)
  /-- `config must be a table` -/
  | notTable
  /-- `config.pools must be a list` -/
  | poolsNotList
  /-- `config.keyspaces must be a list` -/
  | keyspacesNotList
  /-- `cannot load <path>: <msg>` -/
  | cannotLoad (msg : Bytes)
  /-- `error running <path>: <msg>` -/
  | errorRunning (msg : Bytes)
deriving Repr

/-- `v.k`.  Strings answer through the string library, which has none of the fields asked for. -/
def index (v : Value) (k : Bytes) : Except ConfigError Value :=
  match v with
  | .table t => .ok (rawget t (.str k))
  | .str _ => .ok .nil
  | v => .error (.index v)

/-- The content of a value with `type(v) == "string" and v ~= ""`. -/
def nonemptyString : Value → Option Bytes
  | .str (c :: cs) => some (c :: cs)
  | _ => none

/-- The content of a value with `type(v) == "table"`. -/
def asTable : Value → Option Table
  | .table t => some t
  | _ => none

/-- The content of a value with `type(v) == "string"`. -/
def asString : Value → Option Bytes
  | .str s => some s
  | _ => none

/-- `T[v]` for a table `T` used as a set of strings. -/
def memberOf (allowed : List Bytes) : Value → Bool
  | .str s => s ∈ allowed
  | _ => false

/-- Go on with the content of `o`, or raise. -/
def require {α : Type} (o : Option α) (e : ConfigError) : Except ConfigError α :=
  match o with
  | some a => .ok a
  | none => .error e

/-- Raise unless `c` holds. -/
def check (c : Prop) [Decidable c] (e : ConfigError) : Except ConfigError Unit :=
  if c then .ok () else .error e

/-! ### Pools -/

/-- The loop over `ipairs(p.addrs)`, from index `i`. -/
def validateAddrs (name : Bytes) : ℕ → List Value → Except ConfigError Unit
  | _, [] => .ok ()
  | i, a :: as => do
      let _ ← require (nonemptyString a) (.badAddr name i)
      validateAddrs name (i + 1) as

/-- `v == nil or allowed[v]`. -/
def validateChoice (allowed : List Bytes) (e : Value → ConfigError) :
    Value → Except ConfigError Unit
  | .nil => .ok ()
  | v => check (memberOf allowed v) (e v)

/-- `validate_pool`: returns the names seen, this pool's included. -/
def validatePool (L : LengthOp) (p : Value) (seen : List Bytes) : Except ConfigError (List Bytes) := do
  let name ← require (nonemptyString (← index p (ascii "name"))) .poolMissingName
  check (name ∉ seen) (.duplicatePool name)
  let addrs ← require (asTable (← index p (ascii "addrs"))) (.noAddrs name)
  check (L.len addrs ≠ 0) (.noAddrs name)
  validateAddrs name 1 (ipairs addrs)
  validateChoice validHash (.badHash name) (← index p (ascii "hash"))
  validateChoice validDist (.badDist name) (← index p (ascii "dist"))
  return name :: seen

def validatePools (L : LengthOp) : List Value → List Bytes → Except ConfigError (List Bytes)
  | [], seen => .ok seen
  | p :: ps, seen => do
      let seen' ← validatePool L p seen
      validatePools L ps seen'

/-! ### Keyspaces -/

/-- Promote a scalar pool name to a one-element list. -/
def asPoolList : Value → Value
  | .str s => .table (ofList [.str s])
  | v => v

/-- The loop over `ipairs(list)`, from index `i`, with the names seen so far. -/
def validatePoolItems (p field : Bytes) (poolNames : List Bytes) :
    ℕ → List Bytes → List Value → Except ConfigError Unit
  | _, _, [] => .ok ()
  | i, seen, v :: vs => do
      let name ← require (nonemptyString v) (.poolNotString p field i)
      check (name ∈ poolNames) (.unknownPool p field i name)
      check (name ∉ seen) (.listedTwice p field name)
      validatePoolItems p field poolNames (i + 1) (name :: seen) vs

def validatePoolList (L : LengthOp) (p field : Bytes) (list : Value) (poolNames : List Bytes) :
    Except ConfigError Unit := do
  let t ← require (asTable list) (.noPools p field)
  check (L.len t ≠ 0) (.noPools p field)
  validatePoolItems p field poolNames 1 [] (ipairs t)

/-- The value of a field after `if v == nil then v = dflt end`. -/
def orDefault (dflt : Bytes) : Value → Value
  | .nil => .str dflt
  | v => v

/-- The fields `validate_keyspace` assigns. -/
structure Completed where
  read : Value
  write : Value
  writePolicy : Value
  merge : Bytes
  requiredFlags : Bytes
deriving Repr

/-- Assign the completed fields to the entry. -/
def Completed.assign (c : Completed) (t : Table) : Table :=
  [(Key.str (ascii "read"), c.read), (Key.str (ascii "write"), c.write),
    (Key.str (ascii "write_policy"), c.writePolicy), (Key.str (ascii "merge"), Value.str c.merge),
    (Key.str (ascii "required_flags"), Value.str c.requiredFlags)].foldl
      (fun t a => rawset t a.1 a.2) t

section
variable (L : LengthOp) (requiredFlags : Bytes → Option Bytes)

/-- `validate_keyspace`: the prefix of the entry and the fields it is completed with. -/
def validateKeyspace (ks : Value) (seenPrefix poolNames : List Bytes) :
    Except ConfigError (Bytes × Completed) := do
  let p ← require (nonemptyString (← index ks (ascii "prefix"))) .missingPrefix
  check (58 ∉ p) (.colonPrefix p)
  check (p ≠ ascii "__udf" ∧ p ≠ ascii "__mcgw") (.reservedPrefix p)
  check (p ∉ seenPrefix) (.duplicatePrefix p)
  let read := asPoolList (← index ks (ascii "read"))
  let write := asPoolList (← index ks (ascii "write"))
  validatePoolList L p (ascii "read") read poolNames
  validatePoolList L p (ascii "write") write poolNames
  let policy := orDefault defaultWritePolicy (← index ks (ascii "write_policy"))
  check (memberOf validWritePolicy policy) (.badWritePolicy p policy)
  let merge := orDefault defaultMerge (← index ks (ascii "merge"))
  let m ← require (asString merge) (.unknownMerge p merge)
  let flags ← require (requiredFlags m) (.unknownMerge p merge)
  return (p, ⟨read, write, policy, m, flags⟩)

/-- The loop over `ipairs(cfg.keyspaces)`: what every entry is completed with. -/
def validateKeyspaces (poolNames : List Bytes) :
    List Value → List Bytes → Except ConfigError (List Completed)
  | [], _ => .ok []
  | ks :: kss, seenPrefix => do
      let (p, c) ← validateKeyspace L requiredFlags ks seenPrefix poolNames
      let cs ← validateKeyspaces poolNames kss (p :: seenPrefix)
      return c :: cs

/-- The keyspace list after its entries, from index `i` on, have been completed. -/
def completeFrom : ℕ → List Completed → Table → Table
  | _, [], t => t
  | i, c :: cs, t =>
      match rawget t (.int i) with
      | .table e => completeFrom (i + 1) cs (rawset t (.int i) (.table (c.assign e)))
      | _ => completeFrom (i + 1) cs t

/-- `M.validate`. -/
def validate (cfg : Value) : Except ConfigError Value := do
  let c ← require (asTable cfg) .notTable
  let pools ← require (asTable (rawget c (.str (ascii "pools")))) .poolsNotList
  let kss ← require (asTable (rawget c (.str (ascii "keyspaces")))) .keyspacesNotList
  let poolNames ← validatePools L (ipairs pools) []
  let cs ← validateKeyspaces L requiredFlags poolNames (ipairs kss) []
  return .table (rawset c (.str (ascii "keyspaces")) (.table (completeFrom 1 cs kss)))

/-- What running the configuration file gives: `loadfile` fails, the chunk raises, or it
returns a value. -/
inductive Chunk where
  | unloadable (msg : Bytes)
  | raises (msg : Bytes)
  | returns (v : Value)
deriving Repr

/-- `M.load`. -/
def load : Chunk → Except ConfigError Value
  | .unloadable msg => .error (.cannotLoad msg)
  | .raises msg => .error (.errorRunning msg)
  | .returns v => validate L requiredFlags v

/-- The validator accepts the configuration. -/
def Accepts (cfg : Value) : Prop := ∃ cfg', validate L requiredFlags cfg = .ok cfg'

end

/-- The merge an entry of `cfg.keyspaces` dispatches through. -/
def entryMerge : Value → Option Bytes
  | .table t => asString (orDefault defaultMerge (rawget t (.str (ascii "merge"))))
  | _ => none

/-- The merge names a configuration refers to. -/
def mergeNames (cfg : Value) : List Bytes :=
  match cfg with
  | .table c =>
      match rawget c (.str (ascii "keyspaces")) with
      | .table kss => (ipairs kss).filterMap entryMerge
      | _ => []
  | _ => []

/-! ### What acceptance means -/

theorem bind_eq_ok {α β : Type} {x : Except ConfigError α} {f : α → Except ConfigError β} {b : β} :
    (x >>= f) = .ok b ↔ ∃ a, x = .ok a ∧ f a = .ok b := by
  cases x <;> simp [bind, Except.bind]

theorem pure_eq_ok {α : Type} {a b : α} :
    (pure a : Except ConfigError α) = .ok b ↔ a = b := by
  simp [pure, Except.pure]

theorem require_eq_ok {α : Type} {o : Option α} {e : ConfigError} {a : α} :
    require o e = .ok a ↔ o = some a := by
  cases o <;> simp [require]

theorem check_eq_ok {c : Prop} [Decidable c] {e : ConfigError} {u : Unit} :
    check c e = .ok u ↔ c := by
  unfold check
  split_ifs with h <;> simp [h]

theorem index_table (t : Table) (k : Bytes) : index (.table t) k = .ok (rawget t (.str k)) := rfl

theorem nonemptyString_eq_some {v : Value} {s : Bytes} :
    nonemptyString v = some s ↔ v = .str s ∧ s ≠ [] := by
  cases v with
  | str s' =>
      cases s' with
      | nil => simp [nonemptyString]
      | cons c cs =>
          simp only [nonemptyString, Option.some.injEq, Value.str.injEq]
          constructor
          · rintro rfl; simp
          · rintro ⟨h, -⟩; exact h
  | nil | scalar | table => simp [nonemptyString]

/-- Only a table can have a non-empty string under a field. -/
theorem index_nonemptyString {v w : Value} {k s : Bytes} (h : index v k = .ok w)
    (hs : nonemptyString w = some s) : ∃ t, v = .table t := by
  cases v with
  | table t => exact ⟨t, rfl⟩
  | str s' =>
      simp only [index, Except.ok.injEq] at h
      subst h
      simp [nonemptyString] at hs
  | nil | scalar => simp [index] at h

theorem validateAddrs_ok (name : Bytes) : ∀ (i : ℕ) (vs : List Value),
    validateAddrs name i vs = .ok () ↔ ∀ v ∈ vs, ∃ s, nonemptyString v = some s
  | _, [] => by simp [validateAddrs]
  | i, v :: vs => by
      simp only [validateAddrs, bind_eq_ok, require_eq_ok, validateAddrs_ok name (i + 1) vs,
        List.forall_mem_cons, exists_and_right]

theorem validateChoice_ok {allowed : List Bytes} {e : Value → ConfigError} {v : Value} {u : Unit} :
    validateChoice allowed e v = .ok u ↔ v = .nil ∨ memberOf allowed v = true := by
  cases v with
  | nil => simp [validateChoice]
  | scalar | str | table => simp [validateChoice, check_eq_ok]

/-- What the validator requires of the table `t` of a pool. -/
structure PoolOk (L : LengthOp) (t : Table) (name : Bytes) (addrs : Table) : Prop where
  name_eq : nonemptyString (rawget t (.str (ascii "name"))) = some name
  addrs_eq : rawget t (.str (ascii "addrs")) = .table addrs
  addrs_len : L.len addrs ≠ 0
  addrs_ok : ∀ a ∈ ipairs addrs, ∃ s, nonemptyString a = some s
  hash_ok : rawget t (.str (ascii "hash")) = .nil ∨
    memberOf validHash (rawget t (.str (ascii "hash"))) = true
  dist_ok : rawget t (.str (ascii "dist")) = .nil ∨
    memberOf validDist (rawget t (.str (ascii "dist"))) = true

theorem asTable_eq_some {v : Value} {t : Table} : asTable v = some t ↔ v = .table t := by
  cases v <;> simp [asTable]

theorem asString_eq_some {v : Value} {s : Bytes} : asString v = some s ↔ v = .str s := by
  cases v <;> simp [asString]

theorem validatePool_ok {L : LengthOp} {p : Value} {seen r : List Bytes} :
    validatePool L p seen = .ok r ↔ ∃ t name addrs,
      p = .table t ∧ PoolOk L t name addrs ∧ name ∉ seen ∧ r = name :: seen := by
  simp only [validatePool, bind_eq_ok, require_eq_ok, check_eq_ok, validateChoice_ok, pure_eq_ok,
    asTable_eq_some]
  constructor
  · rintro ⟨v, hv, name, hname, _, hseen, w, hw, addrs, rfl, _, hlen, _, ha, x, hx, _, hh, y, hy,
      _, hd, rfl⟩
    obtain ⟨t, rfl⟩ := index_nonemptyString hv hname
    simp only [index_table, Except.ok.injEq] at hv hw hx hy
    subst hv hx hy
    exact ⟨t, name, addrs, rfl, ⟨hname, hw, hlen, (validateAddrs_ok _ _ _).mp ha, hh, hd⟩, hseen, rfl⟩
  · rintro ⟨t, name, addrs, rfl, hok, hseen, rfl⟩
    exact ⟨_, index_table _ _, name, hok.name_eq, (), hseen, _, index_table _ _, addrs,
      hok.addrs_eq, (), hok.addrs_len, (), (validateAddrs_ok _ _ _).mpr hok.addrs_ok, _,
      index_table _ _, (), hok.hash_ok, _, index_table _ _, (), hok.dist_ok, rfl⟩

/-- The names of a pool list that passes the item checks. -/
structure PoolNames (vs : List Value) (poolNames names : List Bytes) : Prop where
  strings : vs.map nonemptyString = names.map some
  known : ∀ n ∈ names, n ∈ poolNames
  nodup : names.Nodup

theorem validatePoolItems_ok (p field : Bytes) (poolNames : List Bytes) :
    ∀ (i : ℕ) (seen : List Bytes) (vs : List Value),
      validatePoolItems p field poolNames i seen vs = .ok () ↔
        ∃ names, PoolNames vs poolNames names ∧ ∀ n ∈ names, n ∉ seen
  | _, seen, [] => by
      refine iff_of_true rfl ⟨[], ⟨rfl, by simp, List.nodup_nil⟩, by simp⟩
  | i, seen, v :: vs => by
      simp only [validatePoolItems, bind_eq_ok, require_eq_ok, check_eq_ok,
        validatePoolItems_ok p field poolNames (i + 1)]
      constructor
      · rintro ⟨n, hn, _, hmem, _, hseen, names, hok, hdisj⟩
        refine ⟨n :: names, ⟨?_, ?_, ?_⟩, ?_⟩
        · rw [List.map_cons, List.map_cons, hn, hok.strings]
        · exact List.forall_mem_cons.mpr ⟨hmem, hok.known⟩
        · refine List.nodup_cons.mpr ⟨fun h => hdisj n h (List.mem_cons_self ..), hok.nodup⟩
        · exact List.forall_mem_cons.mpr
            ⟨hseen, fun m hm hms => hdisj m hm (List.mem_cons_of_mem _ hms)⟩
      · rintro ⟨names, hok, hdisj⟩
        have hs := hok.strings
        cases names with
        | nil => simp at hs
        | cons n names =>
            simp only [List.map_cons, List.cons.injEq] at hs
            obtain ⟨hnd, hnd'⟩ := List.nodup_cons.mp hok.nodup
            obtain ⟨hk, hks⟩ := List.forall_mem_cons.mp hok.known
            obtain ⟨hd, hds⟩ := List.forall_mem_cons.mp hdisj
            refine ⟨n, hs.1, (), hk, (), hd, names, ⟨hs.2, hks, hnd'⟩, ?_⟩
            intro m hm hms
            rcases List.mem_cons.mp hms with rfl | hms
            · exact hnd hm
            · exact hds m hm hms

/-- What the validator requires of a pool list. -/
def PoolListOk (L : LengthOp) (list : Value) (poolNames : List Bytes) : Prop :=
  ∃ t names, list = .table t ∧ L.len t ≠ 0 ∧ PoolNames (ipairs t) poolNames names

theorem validatePoolList_ok {L : LengthOp} {p field : Bytes} {list : Value} {poolNames : List Bytes}
    {u : Unit} : validatePoolList L p field list poolNames = .ok u ↔ PoolListOk L list poolNames := by
  cases u
  simp only [validatePoolList, bind_eq_ok, require_eq_ok, check_eq_ok, asTable_eq_some,
    validatePoolItems_ok, PoolListOk]
  constructor
  · rintro ⟨t, rfl, _, hlen, names, hok, _⟩
    exact ⟨t, names, rfl, hlen, hok⟩
  · rintro ⟨t, names, rfl, hlen, hok⟩
    exact ⟨t, rfl, (), hlen, names, hok, by simp⟩

/-- What the validator requires of the table `t` of a keyspace with prefix `p`, and what it
completes it with. -/
structure KeyspaceOk (L : LengthOp) (requiredFlags : Bytes → Option Bytes) (poolNames : List Bytes)
    (t : Table) (p : Bytes) (c : Completed) : Prop where
  prefix_eq : nonemptyString (rawget t (.str (ascii "prefix"))) = some p
  no_colon : 58 ∉ p
  not_reserved : p ≠ ascii "__udf" ∧ p ≠ ascii "__mcgw"
  read_eq : c.read = asPoolList (rawget t (.str (ascii "read")))
  write_eq : c.write = asPoolList (rawget t (.str (ascii "write")))
  read_ok : PoolListOk L c.read poolNames
  write_ok : PoolListOk L c.write poolNames
  policy_eq : c.writePolicy = orDefault defaultWritePolicy (rawget t (.str (ascii "write_policy")))
  policy_ok : memberOf validWritePolicy c.writePolicy = true
  merge_eq : orDefault defaultMerge (rawget t (.str (ascii "merge"))) = .str c.merge
  flags_eq : requiredFlags c.merge = some c.requiredFlags

theorem validateKeyspace_ok {L : LengthOp} {requiredFlags : Bytes → Option Bytes} {ks : Value}
    {seenPrefix poolNames : List Bytes} {p : Bytes} {c : Completed} :
    validateKeyspace L requiredFlags ks seenPrefix poolNames = .ok (p, c) ↔
      ∃ t, ks = .table t ∧ KeyspaceOk L requiredFlags poolNames t p c ∧ p ∉ seenPrefix := by
  simp only [validateKeyspace, bind_eq_ok, require_eq_ok, check_eq_ok, pure_eq_ok,
    asString_eq_some, validatePoolList_ok, Prod.mk.injEq]
  constructor
  · rintro ⟨v, hv, p', hp', _, hcolon, _, hres, _, hseen, r, hr, w, hw, _, hrok, _, hwok, y, hy, _,
      hpol, m, hm, m', hm', flags, hflags, rfl, rfl⟩
    obtain ⟨t, rfl⟩ := index_nonemptyString hv hp'
    simp only [index_table, Except.ok.injEq] at hv hr hw hy hm
    subst hv hr hw hy hm
    exact ⟨t, rfl, ⟨hp', hcolon, hres, rfl, rfl, hrok, hwok, rfl, hpol, hm', hflags⟩, hseen⟩
  · rintro ⟨t, rfl, h, hseen⟩
    refine ⟨_, index_table _ _, p, h.prefix_eq, (), h.no_colon, (), h.not_reserved, (), hseen, _,
      index_table _ _, _, index_table _ _, (), h.read_eq ▸ h.read_ok, (), h.write_eq ▸ h.write_ok, _,
      index_table _ _, (), h.policy_eq ▸ h.policy_ok, _, index_table _ _, c.merge, h.merge_eq,
      c.requiredFlags, h.flags_eq, rfl, ?_⟩
    rw [← h.read_eq, ← h.write_eq, ← h.policy_eq]

theorem validate_ok {L : LengthOp} {requiredFlags : Bytes → Option Bytes} {cfg cfg' : Value} :
    validate L requiredFlags cfg = .ok cfg' ↔ ∃ c pools kss poolNames cs,
      cfg = .table c ∧ rawget c (.str (ascii "pools")) = .table pools ∧
      rawget c (.str (ascii "keyspaces")) = .table kss ∧
      validatePools L (ipairs pools) [] = .ok poolNames ∧
      validateKeyspaces L requiredFlags poolNames (ipairs kss) [] = .ok cs ∧
      cfg' = .table (rawset c (.str (ascii "keyspaces")) (.table (completeFrom 1 cs kss))) := by
  simp only [validate, bind_eq_ok, require_eq_ok, pure_eq_ok, asTable_eq_some]
  constructor
  · rintro ⟨c, rfl, pools, hp, kss, hk, poolNames, hps, cs, hcs, rfl⟩
    exact ⟨c, pools, kss, poolNames, cs, rfl, hp, hk, hps, hcs, rfl⟩
  · rintro ⟨c, pools, kss, poolNames, cs, rfl, hp, hk, hps, hcs, rfl⟩
    exact ⟨c, rfl, pools, hp, kss, hk, poolNames, hps, cs, hcs, rfl⟩

/-! ### The completed configuration -/

theorem entryMerge_assign (c : Completed) (t : Table) : entryMerge (.table (c.assign t)) = some c.merge := by
  have h1 : Key.str (ascii "merge") ≠ Key.str (ascii "required_flags") := by decide
  simp only [entryMerge, Completed.assign, List.foldl_cons, List.foldl_nil]
  rw [rawget_rawset_ne _ _ h1, rawget_rawset_self]
  rfl

/-- An entry with its fields completed. -/
def Completed.complete (c : Completed) : Value → Value
  | .table e => .table (c.assign e)
  | v => v

/-- What the loops see of the keyspace list once its entries have been completed. -/
theorem ipairs_completeFrom : ∀ (cs : List Completed) (i : ℕ) (t : Table),
    List.Forall₂ (fun v (_ : Completed) => ∃ e, v = .table e) ((ipairs t).drop i) cs →
    ipairs (completeFrom (i + 1) cs t) =
      (ipairs t).take i ++ List.zipWith (fun v c => c.complete v) ((ipairs t).drop i) cs
  | [], i, t, h => by
      rw [List.forall₂_nil_right_iff] at h
      rw [h, List.zipWith_nil_left, List.append_nil, completeFrom,
        List.take_of_length_le (List.drop_eq_nil_iff.mp h)]
  | c :: cs, i, t, h => by
      rw [List.forall₂_cons_right_iff] at h
      obtain ⟨v, rest, ⟨e, rfl⟩, hrest, hdrop⟩ := h
      have hi : i < (ipairs t).length := by
        by_contra hge
        rw [List.drop_eq_nil_of_le (not_lt.mp hge)] at hdrop
        cases hdrop
      rw [List.drop_eq_getElem_cons hi, List.cons.injEq] at hdrop
      obtain ⟨hat, rfl⟩ := hdrop
      have hget : rawget t (.int ((i + 1 : ℕ) : ℤ)) = .table e := by
        push_cast
        rw [(ipairs_getElem hi).1, hat]
      have hset : ipairs (rawset t (.int ((i + 1 : ℕ) : ℤ)) (.table (c.assign e))) =
          (ipairs t).set i (.table (c.assign e)) := by
        push_cast
        exact ipairs_rawset hi (by simp)
      have hdropped : ((ipairs t).set i (.table (c.assign e))).drop (i + 1) = (ipairs t).drop (i + 1) :=
        List.drop_set_of_lt (Nat.lt_succ_self i)
      have htaken : ((ipairs t).set i (.table (c.assign e))).take (i + 1) =
          (ipairs t).take i ++ [.table (c.assign e)] := by
        rw [List.take_add_one, List.take_set_of_le (le_refl i), List.getElem?_set_self hi]
        rfl
      simp only [completeFrom, hget]
      rw [ipairs_completeFrom cs (i + 1), hset, hdropped, htaken, List.drop_eq_getElem_cons hi, hat]
      · simp [Completed.complete]
      · rw [hset, hdropped]
        exact hrest

theorem ipairs_complete {cs : List Completed} {kss : Table}
    (h : List.Forall₂ (fun v (_ : Completed) => ∃ e, v = .table e) (ipairs kss) cs) :
    ipairs (completeFrom 1 cs kss) = List.zipWith (fun v c => c.complete v) (ipairs kss) cs := by
  have hall := ipairs_completeFrom cs 0 kss (by rwa [List.drop_zero])
  rwa [List.take_zero, List.nil_append, List.drop_zero] at hall

theorem entryMerge_complete {v : Value} {c : Completed} (h : ∃ e, v = .table e) :
    entryMerge (c.complete v) = some c.merge := by
  obtain ⟨e, rfl⟩ := h
  exact entryMerge_assign c e

/-- Completing the entries leaves their merges as they are. -/
theorem map_entryMerge_zipWith : ∀ {vs : List Value} {cs : List Completed},
    List.Forall₂ (fun v (c : Completed) => ∃ e, v = .table e ∧ entryMerge v = some c.merge) vs cs →
    (List.zipWith (fun v c => c.complete v) vs cs).map entryMerge = vs.map entryMerge
  | [], [], .nil => rfl
  | v :: vs, c :: cs, .cons h hrest => by
      obtain ⟨e, he, hmerge⟩ := h
      rw [List.zipWith_cons_cons, List.map_cons, List.map_cons, entryMerge_complete ⟨e, he⟩, hmerge,
        map_entryMerge_zipWith hrest]

theorem validateKeyspaces_forall₂ {L : LengthOp} {requiredFlags : Bytes → Option Bytes}
    {poolNames : List Bytes} : ∀ {kss : List Value} {seen : List Bytes} {cs : List Completed},
    validateKeyspaces L requiredFlags poolNames kss seen = .ok cs →
    List.Forall₂ (fun v c => ∃ e p, v = .table e ∧ KeyspaceOk L requiredFlags poolNames e p c) kss cs
  | [], seen, cs, h => by
      cases h
      exact .nil
  | ks :: kss, seen, cs, h => by
      simp only [validateKeyspaces, bind_eq_ok, pure_eq_ok] at h
      obtain ⟨⟨p, c⟩, hks, cs', hcs', rfl⟩ := h
      obtain ⟨t, rfl, hok, -⟩ := validateKeyspace_ok.mp hks
      exact .cons ⟨t, p, rfl, hok⟩ (validateKeyspaces_forall₂ hcs')

theorem validateKeyspaces_tables {L : LengthOp} {requiredFlags : Bytes → Option Bytes}
    {poolNames : List Bytes} {kss : List Value} {seen : List Bytes} {cs : List Completed}
    (h : validateKeyspaces L requiredFlags poolNames kss seen = .ok cs) :
    List.Forall₂ (fun v (_ : Completed) => ∃ e, v = .table e) kss cs :=
  (validateKeyspaces_forall₂ h).imp fun _ _ hok => ⟨hok.choose, hok.choose_spec.choose_spec.1⟩

theorem mergeNames_table {c kss : Table} (h : rawget c (.str (ascii "keyspaces")) = .table kss) :
    mergeNames (.table c) = ((ipairs kss).map entryMerge).filterMap id := by
  simp only [mergeNames, h, List.filterMap_map, Function.id_comp]

/-- Validation keeps the merge names, and every one of them is registered. -/
theorem mergeNames_validate {L : LengthOp} {requiredFlags : Bytes → Option Bytes} {cfg cfg' : Value}
    (h : validate L requiredFlags cfg = .ok cfg') :
    mergeNames cfg' = mergeNames cfg ∧ ∀ n ∈ mergeNames cfg, (requiredFlags n).isSome := by
  obtain ⟨c, pools, kss, poolNames, cs, rfl, -, hkss, -, hcs, rfl⟩ := validate_ok.mp h
  have hall : List.Forall₂ (fun v (c : Completed) => (∃ e, v = .table e ∧ entryMerge v = some c.merge) ∧
      (requiredFlags c.merge).isSome) (ipairs kss) cs := by
    refine (validateKeyspaces_forall₂ hcs).imp ?_
    rintro v c ⟨e, p, rfl, hok⟩
    exact ⟨⟨e, rfl, by rw [entryMerge, hok.merge_eq, asString]⟩, by rw [hok.flags_eq]; rfl⟩
  rw [mergeNames_table hkss, mergeNames_table (rawget_rawset_self ..)]
  constructor
  · rw [ipairs_complete (validateKeyspaces_tables hcs), map_entryMerge_zipWith (hall.imp fun _ _ h => h.1)]
  · intro n hn
    simp only [List.filterMap_map, Function.id_comp, List.mem_filterMap] at hn
    obtain ⟨v, hv, hvn⟩ := hn
    obtain ⟨i, hi, rfl⟩ := List.getElem_of_mem hv
    obtain ⟨⟨e, -, hm⟩, hreg⟩ := hall.get hi (hall.length_eq ▸ hi)
    rw [List.get_eq_getElem, hvn, Option.some.injEq] at hm
    rwa [hm]

end McGateway.Config
