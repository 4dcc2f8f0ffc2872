import McGateway.ByteStrings

/-! # Rendering a snapshot (`render.go`)

`render` compiles a snapshot of Pool and Keyspace resources into the file tree the gateway
consumes: `config.lua` and one `udf/<name>.wasm` per inline merge module.  A resource that
fails a check is skipped with a `Warning`; rendering never fails.

Go maps with string keys are finite maps `ByteMap`; every loop of the source that ranges over
one does so through `sortedKeys` or only writes another map, so no iteration order is modelled.
`sort.Slice` is `Bytes.sortBy`: the inputs of the three sorts have pairwise distinct keys
(`dedupByName` and the duplicate-prefix check see to that), so its instability is invisible.
Warning messages are kept as data (`Message`), one constructor per format string. -/

open Bytes (ascii hasPrefix hasSuffix sortBy)

/-- A finite map with byte-string keys. -/
abbrev ByteMap (β : Type) := AList fun _ : Bytes => β

namespace McGateway.Operator

/-! ### Resources -/

structure PoolSpec where
  addrs : List Bytes
  hash : Bytes
  dist : Bytes
deriving DecidableEq, Repr

structure Pool where
  name : Bytes
  spec : PoolSpec
deriving DecidableEq, Repr

structure MergeSpec where
  name : Bytes
  wasm : Bytes
deriving DecidableEq, Repr

structure KeyspaceSpec where
  keyPrefix : Bytes
  read : List Bytes
  write : List Bytes
  writePolicy : Bytes
  merge : Option MergeSpec
deriving DecidableEq, Repr

structure Keyspace where
  name : Bytes
  spec : KeyspaceSpec
deriving DecidableEq, Repr

structure Snapshot where
  pools : List Pool
  keyspaces : List Keyspace
deriving DecidableEq, Repr

/-- The resource kind a warning is about. -/
inductive Kind where
  | pool
  | keyspace
deriving DecidableEq, Repr

/-- The pool list of a keyspace a problem is about. -/
inductive ListField where
  | read
  | write
deriving DecidableEq, Repr

/-- What `checkPoolList` finds wrong. -/
inductive PoolListProblem where
  /-- `<field> must be a non-empty list of pool names` -/
  | noPools (field : ListField)
  /-- `<field>[<i>] is empty` -/
  | emptyItem (field : ListField) (i : ℕ)
  /-- `<field>[<i>] references unknown pool <name>` -/
  | unknownPool (field : ListField) (i : ℕ) (name : Bytes)
  /-- `<field> lists pool <name> twice` -/
  | listedTwice (field : ListField) (name : Bytes)
deriving DecidableEq, Repr

/-- Warning texts. -/
inductive Message where
  /-- `skipped: <n> <kind> objects share this name` -/
  | sharedName (n : ℕ) (kind : Kind)
  /-- `skipped: empty name` -/
  | emptyName
  /-- `skipped: addrs must be a non-empty list` -/
  | noAddrs
  /-- `skipped: addrs[<i>] is empty` -/
  | emptyAddr (i : ℕ)
  /-- `skipped: invalid hash <h>` -/
  | invalidHash (h : Bytes)
  /-- `skipped: invalid dist <d>` -/
  | invalidDist (d : Bytes)
  /-- `inline module <m> dropped: invalid name` -/
  | moduleName (m : Bytes)
  /-- `inline module <m> dropped: name collides with a built-in merge (built-in wins)` -/
  | moduleBuiltin (m : Bytes)
  /-- `inline module <m> ignored: another Keyspace already inlines different bytes …` -/
  | moduleConflict (m : Bytes)
  /-- `skipped: empty prefix` -/
  | emptyPrefix
  /-- `skipped: prefix <p> must not contain ':'` -/
  | colonPrefix (p : Bytes)
  /-- `skipped: prefix <p> is reserved` -/
  | reservedPrefix (p : Bytes)
  /-- `skipped: duplicate prefix <p> (first Keyspace by name wins)` -/
  | duplicatePrefix (p : Bytes)
  /-- `skipped: <problem>` -/
  | poolList (e : PoolListProblem)
  /-- `skipped: invalid writePolicy <w>` -/
  | invalidWritePolicy (w : Bytes)
  /-- `skipped: merge <m> is neither a built-in nor an inline module in this snapshot` -/
  | unknownMerge (m : Bytes)
deriving DecidableEq, Repr

structure Warning where
  kind : Kind
  name : Bytes
  message : Message
deriving DecidableEq, Repr

/-! ### Constants -/

def configFile : Bytes := ascii "config.lua"
def udfDir : Bytes := ascii "udf"
def builtinMerges : List Bytes := ["first-hit", "last-write-wins", "pool-preferred"].map ascii
def validHash : List Bytes := ["xxhash", "md5", "crc32"].map ascii
def validDist : List Bytes := ["ring_hash", "jump_hash"].map ascii
def validWritePolicy : List Bytes := ["all", "first"].map ascii
def reservedPrefixes : List Bytes := ["__udf", "__mcgw"].map ascii

/-- The path of an inline module in the rendered tree. -/
def modulePath (name : Bytes) : Bytes := udfDir ++ ascii "/" ++ name ++ ascii ".wasm"

/-! ### Duplicate names -/

section dedup
variable {α : Type} (kind : Kind) (name : α → Bytes)

/-- Names borne by more than one resource, sorted. -/
def contestedNames (xs : List α) : List Bytes :=
  sortBy id (((xs.map name).dedup).filter fun n => 1 < (xs.map name).count n)

/-- Drop every resource whose name is shared, with one warning per contested name. -/
def dedupByName (xs : List α) (warns : List Warning) : List α × List Warning :=
  (xs.filter fun x => (xs.map name).count (name x) = 1,
    warns ++ (contestedNames name xs).map fun n => ⟨kind, n, .sharedName ((xs.map name).count n) kind⟩)

end dedup

/-! ### Pools -/

/-- Index of the first empty string. -/
def firstBad (items : List Bytes) : Option ℕ := items.findIdx? (· = [])

/-- The check a pool fails first. -/
def poolProblem (p : Pool) : Option Message :=
  if p.name = [] then some .emptyName
  else if p.spec.addrs = [] then some .noAddrs
  else match firstBad p.spec.addrs with
    | some i => some (.emptyAddr i)
    | none =>
        if p.spec.hash ≠ [] ∧ p.spec.hash ∉ validHash then some (.invalidHash p.spec.hash)
        else if p.spec.dist ≠ [] ∧ p.spec.dist ∉ validDist then some (.invalidDist p.spec.dist)
        else none

/-- One round of the loop of `renderablePools`. -/
def poolStep (acc : List Pool × List Warning) (p : Pool) : List Pool × List Warning :=
  match poolProblem p with
  | some msg => (acc.1, acc.2 ++ [⟨.pool, p.name, msg⟩])
  | none => (acc.1 ++ [p], acc.2)

def renderablePools (ps : List Pool) (warns : List Warning) : List Pool × List Warning :=
  (sortBy Pool.name ps).foldl poolStep ([], warns)

/-! ### Inline modules -/

def isAlnum (c : UInt8) : Bool :=
  (97 ≤ c && c ≤ 122) || (65 ≤ c && c ≤ 90) || (48 ≤ c && c ≤ 57)

/-- What the renderer accepts as a file stem. -/
def safeModuleName : Bytes → Bool
  | [] => false
  | c :: cs => (c :: cs).all (fun b => isAlnum b || b == 95 || b == 45) && c != 95 && c != 45

/-- One round of the loop of `collectModules`. -/
def moduleStep (acc : ByteMap Bytes × List Warning) (ks : Keyspace) :
    ByteMap Bytes × List Warning :=
  match ks.spec.merge with
  | none => acc
  | some m =>
      let warn (msg : Message) := (acc.1, acc.2 ++ [⟨.keyspace, ks.name, msg⟩])
      if m.wasm = [] then acc
      else if ¬ safeModuleName m.name then warn (.moduleName m.name)
      else if m.name ∈ builtinMerges then warn (.moduleBuiltin m.name)
      else match acc.1.lookup m.name with
        | some prev => if prev = m.wasm then acc else warn (.moduleConflict m.name)
        | none => (acc.1.insert m.name m.wasm, acc.2)

def collectModules (kss : List Keyspace) (warns : List Warning) : ByteMap Bytes × List Warning :=
  (sortBy Keyspace.name kss).foldl moduleStep (∅, warns)

/-! ### Keyspaces -/

/-- The loop of `checkPoolList` from index `i`, with the names seen so far. -/
def checkPoolItems (field : ListField) (poolNames : List Bytes) :
    ℕ → List Bytes → List Bytes → Option PoolListProblem
  | _, _, [] => none
  | i, seen, name :: rest =>
      if name = [] then some (.emptyItem field i)
      else if name ∉ poolNames then some (.unknownPool field i name)
      else if name ∈ seen then some (.listedTwice field name)
      else checkPoolItems field poolNames (i + 1) (name :: seen) rest

def checkPoolList (field : ListField) (list poolNames : List Bytes) : Option PoolListProblem :=
  if list = [] then some (.noPools field) else checkPoolItems field poolNames 0 [] list

/-- The check a keyspace fails first, given the prefixes already taken. -/
def keyspaceProblem (poolNames : List Bytes) (modules : ByteMap Bytes) (seenPrefix : List Bytes)
    (spec : KeyspaceSpec) : Option Message :=
  if spec.keyPrefix = [] then some .emptyPrefix
  else if 58 ∈ spec.keyPrefix then some (.colonPrefix spec.keyPrefix)
  else if spec.keyPrefix ∈ reservedPrefixes then some (.reservedPrefix spec.keyPrefix)
  else if spec.keyPrefix ∈ seenPrefix then some (.duplicatePrefix spec.keyPrefix)
  else match checkPoolList .read spec.read poolNames with
  | some e => some (.poolList e)
  | none => match checkPoolList .write spec.write poolNames with
    | some e => some (.poolList e)
    | none =>
        if spec.writePolicy ≠ [] ∧ spec.writePolicy ∉ validWritePolicy then
          some (.invalidWritePolicy spec.writePolicy)
        else match spec.merge with
          | none => none
          | some m =>
              if m.name ∉ builtinMerges ∧ m.name ∉ modules then some (.unknownMerge m.name) else none

/-- The accumulator of the loop of `renderableKeyspaces`. -/
structure KeyspaceAcc where
  out : List Keyspace
  seenPrefix : List Bytes
  warns : List Warning
deriving DecidableEq, Repr

def keyspaceStep (poolNames : List Bytes) (modules : ByteMap Bytes) (acc : KeyspaceAcc)
    (ks : Keyspace) : KeyspaceAcc :=
  match keyspaceProblem poolNames modules acc.seenPrefix ks.spec with
  | some msg => { acc with warns := acc.warns ++ [⟨.keyspace, ks.name, msg⟩] }
  | none => { acc with out := acc.out ++ [ks], seenPrefix := ks.spec.keyPrefix :: acc.seenPrefix }

def renderableKeyspaces (kss : List Keyspace) (poolNames : List Bytes) (modules : ByteMap Bytes)
    (warns : List Warning) : List Keyspace × List Warning :=
  let acc := (sortBy Keyspace.name kss).foldl (keyspaceStep poolNames modules) ⟨[], [], warns⟩
  (sortBy (fun ks => ks.spec.keyPrefix) acc.out, acc.warns)

/-! ### The Lua literal -/

/-- A byte as `\ddd`. -/
def decimalEscape (c : UInt8) : Bytes :=
  let n := c.toNat
  [92, UInt8.ofNat (48 + n / 100), UInt8.ofNat (48 + n / 10 % 10), UInt8.ofNat (48 + n % 10)]

def luaQuoteByte (c : UInt8) : Bytes :=
  if c = 34 then [92, 34]
  else if c = 92 then [92, 92]
  else if 0x20 ≤ c ∧ c < 0x7f then [c]
  else decimalEscape c

def luaQuote (s : Bytes) : Bytes := [34] ++ s.flatMap luaQuoteByte ++ [34]

def luaQuoteList (items : List Bytes) : Bytes :=
  (ascii ", ").intercalate (items.map luaQuote)

def renderPool (p : Pool) : Bytes :=
  ascii "        \x7b name = " ++ luaQuote p.name ++ ascii ", addrs = \x7b " ++
    luaQuoteList p.spec.addrs ++ ascii " \x7d" ++
    (if p.spec.hash ≠ [] then ascii ", hash = " ++ luaQuote p.spec.hash else []) ++
    (if p.spec.dist ≠ [] then ascii ", dist = " ++ luaQuote p.spec.dist else []) ++
    ascii " \x7d,\n"

/-- The `merge` field, printed when `spec.merge` is set. -/
def renderMerge : Option MergeSpec → Bytes
  | some m => ascii ",\n          merge = " ++ luaQuote m.name
  | none => []

def renderKeyspace (ks : Keyspace) : Bytes :=
  ascii "        \x7b prefix = " ++ luaQuote ks.spec.keyPrefix ++ ascii ",\n" ++
    ascii "          read = \x7b " ++ luaQuoteList ks.spec.read ++ ascii " \x7d,\n" ++
    ascii "          write = \x7b " ++ luaQuoteList ks.spec.write ++ ascii " \x7d" ++
    (if ks.spec.writePolicy ≠ [] then
      ascii ",\n          write_policy = " ++ luaQuote ks.spec.writePolicy else []) ++
    renderMerge ks.spec.merge ++ ascii " \x7d,\n"

def renderConfig (pools : List Pool) (keyspaces : List Keyspace) : Bytes :=
  ascii "return \x7b\n" ++ ascii "    pools = \x7b\n" ++ pools.flatMap renderPool ++ ascii "    \x7d,\n" ++
    ascii "    keyspaces = \x7b\n" ++ keyspaces.flatMap renderKeyspace ++ ascii "    \x7d,\n" ++
    ascii "\x7d\n"

/-! ### The tree -/

/-- The pools that reach `config.lua`, with the warnings up to that point. -/
def emittedPools (s : Snapshot) : List Pool × List Warning :=
  let d := dedupByName .pool Pool.name s.pools []
  renderablePools d.1 d.2

/-- The keyspaces left by `dedupByName`. -/
def uniqueKeyspaces (s : Snapshot) : List Keyspace × List Warning :=
  dedupByName .keyspace Keyspace.name s.keyspaces (emittedPools s).2

/-- The inline modules of the tree. -/
def emittedModules (s : Snapshot) : ByteMap Bytes × List Warning :=
  collectModules (uniqueKeyspaces s).1 (uniqueKeyspaces s).2

/-- The keyspaces that reach `config.lua`. -/
def emittedKeyspaces (s : Snapshot) : List Keyspace × List Warning :=
  renderableKeyspaces (uniqueKeyspaces s).1 ((emittedPools s).1.map Pool.name) (emittedModules s).1
    (emittedModules s).2

/-- The bytes of the rendered `config.lua`. -/
def configBytes (s : Snapshot) : Bytes := renderConfig (emittedPools s).1 (emittedKeyspaces s).1

/-- Compile a snapshot into the desired tree and the warnings. -/
def render (s : Snapshot) : ByteMap Bytes × List Warning :=
  ((emittedModules s).1.entries.foldl (fun files e => files.insert (modulePath e.1) e.2)
      (AList.singleton configFile (configBytes s)),
    (emittedKeyspaces s).2)

end McGateway.Operator
