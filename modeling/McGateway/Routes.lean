import McGateway.Outcomes

/-! # Routes and their metrics (`routes.lua`, `keyspaces.lua`, `observe_read_dispatch`)

Every handler here returns its answer together with the increments it makes to the counter family
`mcgateway_requests`, in order.  Reads are counted inside the native merge call, once the merge has
run; everything else is counted through `observe`.  Counting does not change the answer of the read
handler (`readRoute_fst`), and what is counted for a read mirrors the reply, up to one exception
(`read_outcome_mirrors`).

`counted_once_iff` says which requests are counted exactly once under their own keyspace: all but
those that the merge call refuses before it counts, and those of a keyspace whose name is not
UTF-8. -/

namespace McGateway.Read

open McGateway.Core
open Bytes (ascii validUtf8 fromUtf8Lossy)

/-! ### Labels -/

structure RequestLabels where
  keyspace : Bytes
  op : Bytes
  outcome : Bytes
deriving DecidableEq, Repr

/-- The closed set of operations. -/
def opLabel (s : Bytes) : Bytes :=
  if s = ascii "read" then ascii "read"
  else if s = ascii "write" then ascii "write"
  else ascii "other"

/-- The closed set of outcomes. -/
def outcomeLabel (s : Bytes) : Bytes :=
  if s ∈ [ascii "hit", ascii "miss", ascii "error", ascii "stored", ascii "negative"] then s
  else ascii "other"

/-- The export `observe`. -/
def observe (keyPrefix op outcome : Bytes) : RequestLabels :=
  ⟨fromUtf8Lossy keyPrefix, opLabel (fromUtf8Lossy op), outcomeLabel (fromUtf8Lossy outcome)⟩

/-! ### Keyspaces -/

/-- A keyspace of a validated configuration whose lists have no holes. -/
structure Keyspace where
  keyPrefix : Bytes
  read : List Bytes
  write : List Bytes
  writePolicy : Bytes
  mergeName : Bytes
  write_ne_nil : write ≠ []

/-- `keyspaces.build`. -/
def buildKeyspaces (cfg : List Keyspace) : ByteMap Keyspace :=
  cfg.foldl (fun out ks => out.insert ks.keyPrefix ks) ∅

/-! ### Answers -/

inductive WriteCode where
  | stored
  | deleted
  | ok
  | other
deriving DecidableEq, Repr

/-- What the write handler can ask of an `mcp.response`. -/
structure WriteResponse where
  ok : Bool
  code : WriteCode
deriving DecidableEq, Repr

inductive RouteError where
  | native (e : NativeError)
  /-- An outcome that is not a string. -/
  | badOutcome
deriving DecidableEq, Repr

inductive Answer where
  | read (reply : Reply)
  | write (res : Option WriteResponse)
  | text (bytes : Bytes)
  | raised (e : RouteError)
deriving DecidableEq, Repr

/-! ### Reads -/

/-- The export `merge`. -/
def nativeMerge (table : WasmTable) (name : Bytes) (entries : List LuaEntry) (keyPrefix : Bytes) :
    Except NativeError MergeResult × List RequestLabels :=
  if !validUtf8 name then (.error .nameNotUtf8, [])
  else match project entries with
    | .error e => (.error e, [])
    | .ok owned =>
        match applyMerge table name owned with
        | none => (.error (.unknownMerge name), [])
        | some result =>
            (match result with
              | .winner i => if i + 1 < 2 ^ 63 then .ok (.winner i) else .error .indexOverflow
              | r => .ok r,
             [⟨fromUtf8Lossy keyPrefix, ascii "read", readOutcome result owned⟩])

/-- The handler of `make_read_handler`. -/
def readRoute (table : WasmTable) (ks : Keyspace) (key : Bytes) (results : List (Option Response)) :
    Except NativeError Reply × List RequestLabels :=
  if 35 ∈ key then
    (.ok (.text multikeyUnsupported), [observe ks.keyPrefix (ascii "read") (ascii "error")])
  else
    let entries := build key ks.read results
    match nativeMerge table ks.mergeName entries ks.keyPrefix with
    | (.error e, log) => (.error e, log)
    | (.ok r, log) => (.ok (replyFor entries r), log)

/-! ### Writes -/

def noBackends : Bytes := ascii "SERVER_ERROR no backends available\r\n"

def writeRank : Option WriteResponse → ℤ
  | none => 3
  | some res =>
      if !res.ok then 3
      else match res.code with
        | .stored | .deleted | .ok => 1
        | .other => 2

/-- `WRITE_OUTCOME[rank]`. -/
def writeOutcome (rank : ℤ) : Option Bytes :=
  if rank = 1 then some (ascii "stored")
  else if rank = 2 then some (ascii "negative")
  else if rank = 3 then some (ascii "error")
  else none

/-- One round of the loop of `reduce_write_all`. -/
def reduceStep (acc : Option WriteResponse × ℤ) (res : Option WriteResponse) :
    Option WriteResponse × ℤ :=
  if acc.2 < writeRank res then (res, writeRank res)
  else if writeRank res = acc.2 ∧ acc.1 = none ∧ res ≠ none then (res, acc.2)
  else acc

def reduceWriteAll (row : List (Option WriteResponse)) : Answer × ℤ :=
  match row.foldl reduceStep (none, -1) with
  | (some res, rank) => (.write (some res), rank)
  | (none, _) => (.text noBackends, 3)

/-- A write that ended with this answer and rank. -/
def countWrite (keyPrefix : Bytes) (answer : Answer) (rank : ℤ) : Answer × List RequestLabels :=
  match writeOutcome rank with
  | some outcome => (answer, [observe keyPrefix (ascii "write") outcome])
  | none => (.raised .badOutcome, [])

/-- The handlers of `make_write_handler`. -/
def writeRoute (ks : Keyspace) (results : List (Option WriteResponse)) : Answer × List RequestLabels :=
  let row := ks.write.mapIdx fun j _ => results[j]?.getD none
  if ks.writePolicy = ascii "first" then
    countWrite ks.keyPrefix (.write (row.head?.getD none)) (writeRank (row.head?.getD none))
  else countWrite ks.keyPrefix (reduceWriteAll row).1 (reduceWriteAll row).2

/-! ### Routers -/

inductive Route where
  | keyspace (ks : Keyspace)
  /-- `counting_fgen`. -/
  | constant (keyPrefix op outcome msg : Bytes)

structure Router where
  map : ByteMap Route
  default : Route

/-- The route for the part of the key before the stop character, if there is one. -/
def Router.select (r : Router) (name : Option Bytes) : Route := (name.bind r.map.lookup).getD r.default

def udfNotSupported : Bytes := ascii "SERVER_ERROR udf not supported\r\n"
def unknownKeyspace : Bytes := ascii "SERVER_ERROR unknown keyspace\r\n"

/-- The reply to the diagnostic read. -/
def namesReply (names : List Bytes) : Bytes :=
  let csv := (ascii ",").intercalate names
  ascii "VA " ++ ascii (toString csv.length) ++ [13, 10] ++ csv ++ [13, 10]

/-- The map of one router: the keyspaces, then the two sentinels. -/
def routerMap (built : ByteMap Keyspace) (udf mcgw : Route) : ByteMap Route :=
  (((built.entries.map (Sigma.map id fun _ ks => Route.keyspace ks)).toAList).insert
    (ascii "__udf") udf).insert (ascii "__mcgw") mcgw

/-- The routers of `build_routers`, for reads and for writes. -/
def buildRouters (names : List Bytes) (built : ByteMap Keyspace) : Router × Router :=
  (⟨routerMap built (.constant (ascii "__udf") (ascii "read") (ascii "error") udfNotSupported)
      (.constant (ascii "__mcgw") (ascii "read") (ascii "hit") (namesReply names)),
    .constant (ascii "__unknown__") (ascii "read") (ascii "error") unknownKeyspace⟩,
   ⟨routerMap built (.constant (ascii "__udf") (ascii "write") (ascii "error") udfNotSupported)
      (.constant (ascii "__mcgw") (ascii "write") (ascii "error") udfNotSupported),
    .constant (ascii "__unknown__") (ascii "write") (ascii "error") unknownKeyspace⟩)

/-- A request with the responses of the backends it is sent to. -/
inductive Request where
  | read (key : Bytes) (results : List (Option Response))
  | write (results : List (Option WriteResponse))

def Request.op : Request → Bytes
  | .read _ _ => ascii "read"
  | .write _ => ascii "write"

/-- The answer to a request under the routes of a configuration; `mg` goes to the first router,
`ms` and `md` to the second. -/
def handle (names : List Bytes) (cfg : List Keyspace) (table : WasmTable) (name : Option Bytes)
    (request : Request) : Answer × List RequestLabels :=
  let routers := buildRouters names (buildKeyspaces cfg)
  match request with
  | .read key results =>
      match routers.1.select name with
      | .constant keyPrefix op outcome msg => (.text msg, [observe keyPrefix op outcome])
      | .keyspace ks =>
          match readRoute table ks key results with
          | (.ok reply, log) => (.read reply, log)
          | (.error e, log) => (.raised (.native e), log)
  | .write results =>
      match routers.2.select name with
      | .constant keyPrefix op outcome msg => (.text msg, [observe keyPrefix op outcome])
      | .keyspace ks => writeRoute ks results

/-! ### Counting does not change the answer -/

theorem nativeMerge_fst (table : WasmTable) (name : Bytes) (entries : List LuaEntry) (keyPrefix : Bytes) :
    (nativeMerge table name entries keyPrefix).1 = dispatch table name entries := by
  unfold nativeMerge dispatch
  cases validUtf8 name with
  | false => rfl
  | true =>
      cases project entries with
      | error e => rfl
      | ok owned =>
          simp only [Bool.not_true, Bool.false_eq_true, if_false]
          cases applyMerge table name owned with
          | none => rfl
          | some result => cases result <;> rfl

theorem readRoute_fst (table : WasmTable) (ks : Keyspace) (key : Bytes) (results : List (Option Response)) :
    (readRoute table ks key results).1 = readHandler table ks.mergeName ks.read key results := by
  unfold readRoute readHandler
  split_ifs with hkey
  · rfl
  · have hfst := nativeMerge_fst table ks.mergeName (build key ks.read results) ks.keyPrefix
    simp only
    rw [← hfst]
    rcases nativeMerge table ks.mergeName (build key ks.read results) ks.keyPrefix with ⟨r, log⟩
    cases r <;> rfl

/-! ### What is counted for a read mirrors the reply -/

/-- A merge call that returns has counted the outcome of what it returns. -/
theorem nativeMerge_ok {table : WasmTable} {name keyPrefix : Bytes} {entries : List LuaEntry} {result : MergeResult}
    {log : List RequestLabels} (h : nativeMerge table name entries keyPrefix = (.ok result, log)) :
    ∃ owned, project entries = .ok owned ∧
      log = [⟨fromUtf8Lossy keyPrefix, ascii "read", readOutcome result owned⟩] := by
  unfold nativeMerge at h
  cases hname : validUtf8 name with
  | false => simp [hname] at h
  | true =>
      simp only [hname, Bool.not_true, Bool.false_eq_true, if_false] at h
      cases hproject : project entries with
      | error e => simp [hproject] at h
      | ok owned =>
          simp only [hproject] at h
          cases happly : applyMerge table name owned with
          | none => simp [happly] at h
          | some r =>
              simp only [happly, Prod.mk.injEq] at h
              obtain ⟨hr, rfl⟩ := h
              refine ⟨owned, rfl, ?_⟩
              cases r with
              | winner i =>
                  simp only at hr
                  split_ifs at hr
                  rw [← Except.ok.inj hr]
              | synthesized bytes => rw [← Except.ok.inj hr]
              | miss => rw [← Except.ok.inj hr]

/-- The metric mirrors the reply, except exactly when the winner is an entry without a response
while some other entry is a miss: for every result of a merge, and for every read that is answered
through the merge call, with the result that the call returned and the label that it counted. -/
theorem read_outcome_mirrors {key : Bytes} {poolNames : List Bytes} {results : List (Option Response)}
    {owned : List Entry} (hproject : project (build key poolNames results) = .ok owned) :
    (∀ result, readOutcome result owned =
        statusLabel (replyClass (replyFor (build key poolNames results) result)) ↔
      ¬PicksUnanswered (build key poolNames results) result) ∧
    ∀ (table : WasmTable) (ks : Keyspace) (reply : Reply) (log : List RequestLabels), ks.read = poolNames →
      35 ∉ key → readRoute table ks key results = (.ok reply, log) →
        ∃ result outcome, dispatch table ks.mergeName (build key poolNames results) = .ok result ∧
          readHandler table ks.mergeName poolNames key results = .ok reply ∧
          log = [⟨fromUtf8Lossy ks.keyPrefix, ascii "read", outcome⟩] ∧
          (outcome = statusLabel (replyClass reply) ↔ ¬PicksUnanswered (build key poolNames results) result) := by
  have hc : ∀ e ∈ build key poolNames results, Consistent e := consistent_of_mem_build
  refine ⟨readOutcome_eq_iff hc hproject, ?_⟩
  rintro table ks reply log rfl hkey hroute
  have hhandler : readHandler table ks.mergeName ks.read key results = .ok reply := by
    rw [← readRoute_fst, hroute]
  unfold readRoute at hroute
  simp only [if_neg hkey] at hroute
  have hfst := nativeMerge_fst table ks.mergeName (build key ks.read results) ks.keyPrefix
  cases hmerge : nativeMerge table ks.mergeName (build key ks.read results) ks.keyPrefix with
  | mk r log' =>
      rw [hmerge] at hroute hfst
      cases r with
      | error e => simp at hroute
      | ok result =>
          simp only [Prod.mk.injEq, Except.ok.injEq] at hroute
          obtain ⟨rfl, rfl⟩ := hroute
          obtain ⟨owned', howned, rfl⟩ := nativeMerge_ok hmerge
          exact ⟨result, _, hfst.symm, hhandler, rfl, readOutcome_eq_iff hc howned result⟩

/-- A read of two pools, one without a response and one that missed. -/
def mixedKeyspace : Keyspace :=
  ⟨ascii "u", [ascii "a", ascii "b"], [ascii "a"], ascii "all", ascii "first-hit", by simp⟩

/-- Both choices agree on a winner out of range, and on what `first-hit` makes of the read. -/
theorem read_outcome_mirrors_mixed : ∃ owned reply log,
    project (build (ascii "k") [ascii "a", ascii "b"] mixedResults) = .ok owned ∧
    readOutcome (.winner 7) owned =
      statusLabel (replyClass (replyFor (build (ascii "k") [ascii "a", ascii "b"] mixedResults) (.winner 7))) ∧
    readRoute ∅ mixedKeyspace (ascii "k") mixedResults = (.ok reply, log) ∧
    log = [⟨ascii "u", ascii "read", statusLabel (replyClass reply)⟩] := by
  have hproject : project (build (ascii "k") [ascii "a", ascii "b"] mixedResults) =
      .ok [⟨ascii "k", ascii "a", .error, none, none, none⟩, ⟨ascii "k", ascii "b", .miss, none, none, none⟩] := by
    decide +kernel
  have hroute : readRoute ∅ mixedKeyspace (ascii "k") mixedResults =
      (.ok (.response ⟨true, false, none, none, none⟩), [⟨ascii "u", ascii "read", ascii "miss"⟩]) := by
    decide +kernel
  obtain ⟨hall, hread⟩ := read_outcome_mirrors hproject
  obtain ⟨result, outcome, hdispatch, -, hlog, hmirror⟩ := hread _ _ _ _ rfl (by decide +kernel) hroute
  have hresult : dispatch ∅ mixedKeyspace.mergeName (build (ascii "k") [ascii "a", ascii "b"] mixedResults) =
      .ok .miss := by decide +kernel
  obtain rfl : MergeResult.miss = result := Except.ok.inj (hresult.symm.trans hdispatch)
  have hnot : ∀ r, (∀ i e, r = MergeResult.winner i →
      (build (ascii "k") [ascii "a", ascii "b"] mixedResults)[i]? ≠ some e) →
      ¬PicksUnanswered (build (ascii "k") [ascii "a", ascii "b"] mixedResults) r := by
    rintro r hr ⟨i, e, hi, he, -⟩
    exact hr i e hi he
  refine ⟨_, _, _, hproject, (hall (.winner 7)).mpr (hnot _ ?_), hroute, ?_⟩
  · rintro i e ⟨⟩ hget
    have hnone : (build (ascii "k") [ascii "a", ascii "b"] mixedResults)[7]? = none := by decide +kernel
    rw [hnone] at hget
    cases hget
  · have hout := hmirror.mpr (hnot _ fun i e h => by cases h)
    rw [hlog, hout]
    decide +kernel

/-! ### Which routes are attached -/

section select
variable (built : ByteMap Keyspace)

/-- The keyspace that serves a name. -/
def served (name : Option Bytes) : Option Keyspace :=
  match name with
  | none => none
  | some n => if n = ascii "__udf" ∨ n = ascii "__mcgw" then none else built.lookup n

/-- The keyspace a request is counted under: its own, or a fixed sentinel. -/
def ownKeyspace (name : Option Bytes) : Bytes :=
  match name with
  | none => ascii "__unknown__"
  | some n => if n = ascii "__udf" ∨ n = ascii "__mcgw" ∨ n ∈ built then n else ascii "__unknown__"

theorem lookup_routerMap (udf mcgw : Route) (n : Bytes) :
    (routerMap built udf mcgw).lookup n =
      if n = ascii "__mcgw" then some mcgw
      else if n = ascii "__udf" then some udf
      else (built.lookup n).map .keyspace := by
  unfold routerMap
  split_ifs with hm hu
  · subst hm
    exact AList.lookup_insert _
  · subst hu
    rw [AList.lookup_insert_ne hm, AList.lookup_insert]
  · rw [AList.lookup_insert_ne hm, AList.lookup_insert_ne hu, AList.lookup_to_alist]
    exact List.dlookup_map₂ n

theorem select_routerMap (udf mcgw dflt : Route) (n : Bytes) :
    Router.select ⟨routerMap built udf mcgw, dflt⟩ (some n) =
      if n = ascii "__mcgw" then mcgw
      else if n = ascii "__udf" then udf
      else ((built.lookup n).map .keyspace).getD dflt := by
  unfold Router.select
  rw [Option.bind_some, lookup_routerMap]
  split_ifs <;> rfl

end select

theorem buildKeyspaces_keyed {cfg : List Keyspace} {n : Bytes} {ks : Keyspace}
    (h : (buildKeyspaces cfg).lookup n = some ks) : ks.keyPrefix = n := by
  have hinv : ∀ (cfg : List Keyspace) (out : ByteMap Keyspace),
      (∀ n ks, out.lookup n = some ks → ks.keyPrefix = n) →
      ∀ n ks, (cfg.foldl (fun out ks => out.insert ks.keyPrefix ks) out).lookup n = some ks →
        ks.keyPrefix = n := by
    intro cfg
    induction cfg with
    | nil => exact fun out hout => hout
    | cons k cfg ih =>
        intro out hout
        apply ih
        intro n ks hks
        by_cases hn : n = k.keyPrefix
        · subst hn
          rw [AList.lookup_insert, Option.some.injEq] at hks
          rw [hks]
        · rw [AList.lookup_insert_ne hn] at hks
          exact hout n ks hks
  exact hinv cfg ∅ (by simp) n ks h

/-- A name is routed to its keyspace, or to a constant that counts under a sentinel. -/
theorem select_cases (names : List Bytes) (cfg : List Keyspace) (name : Option Bytes) :
    (∃ ks, served (buildKeyspaces cfg) name = some ks ∧
      ownKeyspace (buildKeyspaces cfg) name = ks.keyPrefix ∧
      (buildRouters names (buildKeyspaces cfg)).1.select name = .keyspace ks ∧
      (buildRouters names (buildKeyspaces cfg)).2.select name = .keyspace ks) ∨
    (served (buildKeyspaces cfg) name = none ∧
      validUtf8 (ownKeyspace (buildKeyspaces cfg) name) = true ∧
      (∃ outcome msg, (buildRouters names (buildKeyspaces cfg)).1.select name =
        .constant (ownKeyspace (buildKeyspaces cfg) name) (ascii "read") outcome msg) ∧
      ∃ outcome msg, (buildRouters names (buildKeyspaces cfg)).2.select name =
        .constant (ownKeyspace (buildKeyspaces cfg) name) (ascii "write") outcome msg) := by
  cases name with
  | none =>
      have hutf8 : validUtf8 (ascii "__unknown__") = true := by decide +kernel
      exact Or.inr ⟨rfl, hutf8, ⟨_, _, rfl⟩, ⟨_, _, rfl⟩⟩
  | some n =>
      simp only [buildRouters, select_routerMap, served, ownKeyspace]
      by_cases hm : n = ascii "__mcgw"
      · subst hm
        right
        simp only [or_true, true_or, if_true]
        exact ⟨trivial, by decide +kernel, ⟨_, _, rfl⟩, ⟨_, _, rfl⟩⟩
      · by_cases hu : n = ascii "__udf"
        · subst hu
          right
          simp only [hm, true_or, if_true, if_false]
          exact ⟨trivial, by decide +kernel, ⟨_, _, rfl⟩, ⟨_, _, rfl⟩⟩
        · simp only [hm, hu, false_or, if_false]
          cases hk : (buildKeyspaces cfg).lookup n with
          | some ks =>
              have hmem : n ∈ buildKeyspaces cfg := AList.lookup_isSome.mp (by rw [hk]; rfl)
              left
              refine ⟨ks, rfl, ?_, rfl, rfl⟩
              rw [if_pos hmem, buildKeyspaces_keyed hk]
          | none =>
              have hmem : n ∉ buildKeyspaces cfg := AList.lookup_eq_none.mp hk
              right
              rw [if_neg hmem]
              exact ⟨rfl, by decide +kernel, ⟨_, _, rfl⟩, ⟨_, _, rfl⟩⟩

/-! ### What is counted -/

/-- Exactly one increment, under this keyspace and operation. -/
def CountedOnce (log : List RequestLabels) (keyspace op : Bytes) : Prop :=
  ∃ outcome, log = [⟨keyspace, op, outcome⟩]

/-- The merge resolves. -/
def Registered (table : WasmTable) (name : Bytes) : Prop := (builtin name).isSome ∨ name ∈ table

/-- The merge call gets as far as the merge. -/
structure Dispatches (table : WasmTable) (ks : Keyspace) (key : Bytes) (results : List (Option Response)) :
    Prop where
  name : validUtf8 ks.mergeName = true
  entries : ∃ owned, project (build key ks.read results) = .ok owned
  registered : Registered table ks.mergeName

/-- On the inputs of the call. -/
theorem dispatches_iff {table : WasmTable} {ks : Keyspace} {key : Bytes} {results : List (Option Response)} :
    Dispatches table ks key results ↔ validUtf8 ks.mergeName = true ∧ Registered table ks.mergeName ∧
      ∀ (j : ℕ) p, ks.read[j]? = some p → validUtf8 p = true ∧
        ∀ o, results[j]? = some o → classify o = .hit → ∀ z, tOf o = some z → ReachesI64 z := by
  rw [← @exists_project_build_iff key]
  constructor
  · rintro ⟨hname, hentries, hreg⟩
    exact ⟨hname, hreg, hentries⟩
  · rintro ⟨hname, hreg, hentries⟩
    exact ⟨hname, hentries, hreg⟩

theorem countedOnce_observe {op : Bytes} (hop : opLabel (fromUtf8Lossy op) = op)
    (keyPrefix outcome : Bytes) :
    CountedOnce [observe keyPrefix op outcome] keyPrefix op ↔ validUtf8 keyPrefix = true := by
  simp [CountedOnce, observe, hop, Bytes.fromUtf8Lossy_eq_self_iff]

theorem nativeMerge_counted (table : WasmTable) (name : Bytes) (entries : List LuaEntry)
    (keyPrefix : Bytes) :
    CountedOnce (nativeMerge table name entries keyPrefix).2 keyPrefix (ascii "read") ↔
      validUtf8 keyPrefix = true ∧ validUtf8 name = true ∧ (∃ owned, project entries = .ok owned) ∧
        Registered table name := by
  unfold nativeMerge
  cases hname : validUtf8 name with
  | false => simp [CountedOnce]
  | true =>
      cases hproject : project entries with
      | error e => simp [CountedOnce]
      | ok owned =>
          simp only [Bool.not_true, Bool.false_eq_true, if_false]
          cases happly : applyMerge table name owned with
          | none =>
              have hreg : ¬Registered table name := by
                rw [Registered, ← isSome_applyMerge table name owned, happly]
                simp
              simp [CountedOnce, hreg]
          | some result =>
              have hreg : Registered table name := by
                rw [Registered, ← isSome_applyMerge table name owned, happly]
                rfl
              simp [CountedOnce, hreg, Bytes.fromUtf8Lossy_eq_self_iff]

theorem readRoute_snd (table : WasmTable) (ks : Keyspace) (key : Bytes) (results : List (Option Response)) :
    (readRoute table ks key results).2 =
      if 35 ∈ key then [observe ks.keyPrefix (ascii "read") (ascii "error")]
      else (nativeMerge table ks.mergeName (build key ks.read results) ks.keyPrefix).2 := by
  unfold readRoute
  split_ifs with hkey
  · rfl
  · simp only
    rcases nativeMerge table ks.mergeName (build key ks.read results) ks.keyPrefix with ⟨r, log⟩
    cases r <;> rfl

theorem readRoute_counted (table : WasmTable) (ks : Keyspace) (key : Bytes)
    (results : List (Option Response)) :
    CountedOnce (readRoute table ks key results).2 ks.keyPrefix (ascii "read") ↔
      validUtf8 ks.keyPrefix = true ∧ (35 ∉ key → Dispatches table ks key results) := by
  rw [readRoute_snd]
  by_cases hkey : 35 ∈ key
  · rw [if_pos hkey, countedOnce_observe (by decide +kernel)]
    simp [hkey]
  · rw [if_neg hkey, nativeMerge_counted]
    constructor
    · intro h
      exact ⟨h.1, fun _ => ⟨h.2.1, h.2.2.1, h.2.2.2⟩⟩
    · intro h
      obtain ⟨hname, hentries, hreg⟩ := h.2 hkey
      exact ⟨h.1, hname, hentries, hreg⟩

/-! ### Writes are always counted -/

theorem writeOutcome_writeRank (res : Option WriteResponse) : (writeOutcome (writeRank res)).isSome := by
  unfold writeRank
  cases res with
  | none => rfl
  | some res =>
      obtain ⟨ok, code⟩ := res
      cases ok with
      | false => rfl
      | true => cases code <;> rfl

/-- A response that the loop keeps has been ranked. -/
theorem writeOutcome_foldl_reduceStep : ∀ (row : List (Option WriteResponse)) (acc : Option WriteResponse × ℤ),
    (acc.1 ≠ none → (writeOutcome acc.2).isSome) →
    (row.foldl reduceStep acc).1 ≠ none → (writeOutcome (row.foldl reduceStep acc).2).isSome
  | [], _, h => h
  | res :: row, acc, h => by
      rw [List.foldl_cons]
      apply writeOutcome_foldl_reduceStep row
      have hrank := writeOutcome_writeRank res
      unfold reduceStep
      split_ifs with hlt heq
      · exact fun _ => hrank
      · exact fun _ => heq.1 ▸ hrank
      · exact h

theorem writeOutcome_reduceWriteAll (row : List (Option WriteResponse)) :
    (writeOutcome (reduceWriteAll row).2).isSome := by
  have hrank := writeOutcome_foldl_reduceStep row (none, -1) (by simp)
  unfold reduceWriteAll
  revert hrank
  generalize row.foldl reduceStep (none, -1) = acc
  intro hrank
  obtain ⟨res, rank⟩ := acc
  cases res with
  | none => rfl
  | some res => exact hrank (by simp)

theorem countWrite_counted (keyPrefix : Bytes) (answer : Answer) {rank : ℤ}
    (h : (writeOutcome rank).isSome) :
    CountedOnce (countWrite keyPrefix answer rank).2 keyPrefix (ascii "write") ↔
      validUtf8 keyPrefix = true := by
  obtain ⟨outcome, hout⟩ := Option.isSome_iff_exists.mp h
  unfold countWrite
  rw [hout]
  exact countedOnce_observe (by decide +kernel) keyPrefix outcome

theorem writeRoute_counted (ks : Keyspace) (results : List (Option WriteResponse)) :
    CountedOnce (writeRoute ks results).2 ks.keyPrefix (ascii "write") ↔
      validUtf8 ks.keyPrefix = true := by
  unfold writeRoute
  simp only
  split_ifs with hpolicy
  · exact countWrite_counted _ _ (writeOutcome_writeRank _)
  · exact countWrite_counted _ _ (writeOutcome_reduceWriteAll _)

/-! ### Every request -/

/-- The keyspace is named in UTF-8, and if the request is a read that reaches the merge call, the
call gets as far as the merge. -/
structure Countable (cfg : List Keyspace) (table : WasmTable) (name : Option Bytes) (request : Request) :
    Prop where
  keyspace : validUtf8 (ownKeyspace (buildKeyspaces cfg) name) = true
  merge : ∀ ks key results, served (buildKeyspaces cfg) name = some ks → request = .read key results →
    35 ∉ key → Dispatches table ks key results

section countable
variable {names : List Bytes} {cfg : List Keyspace} {table : WasmTable} {name : Option Bytes} {ks : Keyspace}

theorem countable_read_iff {key : Bytes} {results : List (Option Response)}
    (hserved : served (buildKeyspaces cfg) name = some ks)
    (hown : ownKeyspace (buildKeyspaces cfg) name = ks.keyPrefix) :
    Countable cfg table name (.read key results) ↔
      validUtf8 ks.keyPrefix = true ∧ (35 ∉ key → Dispatches table ks key results) := by
  rw [← hown]
  constructor
  · intro h
    exact ⟨h.keyspace, h.merge ks key results hserved rfl⟩
  · intro h
    refine ⟨h.1, ?_⟩
    intro ks' key' results' hks' hreq
    rw [hserved, Option.some.injEq] at hks'
    cases hreq
    subst hks'
    exact h.2

theorem countable_write_iff {results : List (Option WriteResponse)} :
    Countable cfg table name (.write results) ↔ validUtf8 (ownKeyspace (buildKeyspaces cfg) name) = true := by
  constructor
  · exact Countable.keyspace
  · intro h
    refine ⟨h, ?_⟩
    intro _ _ _ _ hreq
    cases hreq

theorem countable_of_not_served {request : Request} (hserved : served (buildKeyspaces cfg) name = none)
    (hutf8 : validUtf8 (ownKeyspace (buildKeyspaces cfg) name) = true) :
    Countable cfg table name request := by
  refine ⟨hutf8, ?_⟩
  intro ks _ _ hks
  rw [hserved] at hks
  cases hks

theorem handle_read_snd {key : Bytes} {results : List (Option Response)}
    (hread : (buildRouters names (buildKeyspaces cfg)).1.select name = .keyspace ks) :
    (handle names cfg table name (.read key results)).2 = (readRoute table ks key results).2 := by
  simp only [handle, hread]
  rcases readRoute table ks key results with ⟨r, log⟩
  cases r <;> rfl

end countable

/-- A request is counted exactly once, under its own keyspace and operation, exactly when it is
countable. -/
theorem counted_once_iff (names : List Bytes) (cfg : List Keyspace) (table : WasmTable)
    (name : Option Bytes) (request : Request) :
    CountedOnce (handle names cfg table name request).2 (ownKeyspace (buildKeyspaces cfg) name)
      request.op ↔ Countable cfg table name request := by
  obtain ⟨ks, hserved, hown, hread, hwrite⟩ |
    ⟨hserved, hutf8, ⟨outcome, msg, hread⟩, ⟨outcome', msg', hwrite⟩⟩ := select_cases names cfg name
  · cases request with
    | read key results =>
        rw [handle_read_snd hread, hown, Request.op, readRoute_counted, countable_read_iff hserved hown]
    | write results =>
        have hlog : (handle names cfg table name (.write results)).2 = (writeRoute ks results).2 := by
          simp only [handle, hwrite]
        rw [hlog, countable_write_iff, hown, Request.op, writeRoute_counted]
  · refine ⟨fun _ => countable_of_not_served hserved hutf8, fun _ => ?_⟩
    cases request with
    | read key results =>
        simp only [handle, hread]
        exact (countedOnce_observe (by decide +kernel) _ outcome).mpr hutf8
    | write results =>
        simp only [handle, hwrite]
        exact (countedOnce_observe (by decide +kernel) _ outcome').mpr hutf8

/-- A keyspace whose merge is a module. -/
def moduleKeyspace : Keyspace :=
  ⟨ascii "u", [ascii "a"], [ascii "a"], ascii "all", ascii "m", by simp⟩

/-- The module has left the registry while its keyspace is still routed: the read fails, and is not
counted. -/
theorem unregistered_merge_not_counted :
    handle [] [moduleKeyspace] ∅ (some (ascii "u")) (.read (ascii "u:k") [none]) =
      (.raised (.native (.unknownMerge (ascii "m"))), []) ∧
    ¬CountedOnce (handle [] [moduleKeyspace] ∅ (some (ascii "u")) (.read (ascii "u:k") [none])).2
      (ownKeyspace (buildKeyspaces [moduleKeyspace]) (some (ascii "u"))) (ascii "read") := by
  have h : handle [] [moduleKeyspace] ∅ (some (ascii "u")) (.read (ascii "u:k") [none]) =
      (.raised (.native (.unknownMerge (ascii "m"))), []) := by decide +kernel
  refine ⟨h, ?_⟩
  rw [h]
  rintro ⟨outcome, hlog⟩
  cases hlog

end McGateway.Read
