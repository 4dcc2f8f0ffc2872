import McGateway.Handlers

/-! # The gateway among its pools

Many requests are in flight at once.  Each has its handler (`serve`) and its context; the servers answer
in any order, late or not at all; the workers change to new configurations, each at its own time, and the
registry is replaced; and items are lost, or changed by others.  `ServiceStep` is one step of all this, in
any order.

A configuration gives the names of pools a meaning, and another one may give them another: `pools.lua`
builds a pool anew from the servers that are listed.  So the items, with their histories, are those of the
servers.  What memcached makes of a pool and of a request is a parameter (`Memcached`): the server of the
pool that has the key, the item the request is about, and what becomes of the item.

Three results.  A request is answered under the configuration it arrived under, by the registry of a
moment before the answer, whatever is reloaded while it waits (`answered_under_arrival_config`).  A read
that starts after a write has been acknowledged gets from the servers of the write the items as the write
has left them, or as they were changed later (`acknowledged_write_seen`).  And a server does what a write
asks at most once for each write pool that sends the key to it, and exactly so for a write that has been
acknowledged (`write_applied_once`). -/

namespace McGateway.Read

open McGateway.Core
open Bytes (ascii)

/-! ### Items -/

/-- What memcached makes of a pool, and of a request. -/
structure Memcached (P S : Type) where
  /-- The server of the pool that a key is sent to. -/
  server : P → Bytes → S
  /-- The item that the request is about. -/
  item : McpRequest → Bytes
  /-- What the request makes of its value. -/
  effect : McpRequest → Option Bytes → Option Bytes

/-- What can happen to an item. -/
inductive Edit where
  /-- A server does what a request asks. -/
  | request (id : ℕ) (r : McpRequest)
  /-- The item expires, is evicted, or is changed by someone else. -/
  | other (content : Option Bytes)
deriving DecidableEq, Repr

namespace Memcached
variable {P S : Type} (m : Memcached P S)

def edit (content : Option Bytes) : Edit → Option Bytes
  | .request _ r => m.effect r content
  | .other content' => content'

/-- The value of an item with this history. -/
def content (history : List Edit) : Option Bytes := history.foldl m.edit none

/-- An answer to a request; the history is that of the item when the answer is given. -/
structure Answers (r : McpRequest) (acted : Bool) (history : List Edit) (res : McpResponse) : Prop where
  /-- No success without the deed. -/
  stored : Stored (some res.write) → acted = true
  hit : r.cmd = .mg → res.ok = true → res.hit = true → ∃ v, m.content history = some v ∧
    (NoBlock res.read ∨ ∃ header, HasBlock res.read header v)
  miss : r.cmd = .mg → res.ok = true → res.hit = false → m.content history = none

end Memcached

/-! ### Requests in flight -/

/-- The part of the key before the stop character of the routers. -/
def routeName (key : Bytes) : Option Bytes := if 58 ∈ key then some (key.takeWhile (· ≠ 58)) else none

/-- The route of a request; `mg` is attached to the first router, `ms` and `md` to the second. -/
def routeFor (names : List Bytes) (cfg : List Keyspace) (r : McpRequest) : Route :=
  let routers := buildRouters names (buildKeyspaces cfg)
  if r.cmd = .mg then routers.1.select (routeName r.key) else routers.2.select (routeName r.key)

/-- What a worker routes by: the names of the merges, the keyspaces, and the pools as they were built. -/
structure Loaded (P : Type) where
  names : List Bytes
  cfg : List Keyspace
  pools : Bytes → Option P

/-- A request in flight. -/
structure Flight (P : Type) where
  req : McpRequest
  /-- The worker it has arrived at, with the configuration of that time and the flags of its merge. -/
  worker : ℕ
  config : Loaded P
  flags : Bytes
  ctx : Ctx
  job : Prog Rctx Answer

namespace Flight
variable {P S : Type}

def route (f : Flight P) : Route := routeFor f.config.names f.config.cfg f.req

def asks (f : Flight P) : List (Bytes × McpRequest) := Read.asks f.route f.flags f.req

def waits (f : Flight P) : ℕ := Read.waits f.route f.req

/-- The server that a request to a pool goes to. -/
def server (f : Flight P) (m : Memcached P S) (ask : Bytes × McpRequest) : Option S :=
  (f.config.pools ask.1).map fun pool => m.server pool ask.2.key

end Flight

structure Service (P S : Type) where
  /-- What each worker routes by. -/
  config : ℕ → Loaded P
  table : WasmTable
  /-- The items of each server. -/
  history : S → Bytes → List Edit
  flights : ℕ → Option (Flight P)

section service
variable {P S : Type}

def Service.init : Service P S := ⟨fun _ => ⟨[], [], fun _ => none⟩, ∅, fun _ _ => [], fun _ => none⟩

/-- A request as it arrives. -/
def Service.arriving (s : Service P S) (worker : ℕ) (r : McpRequest) (flags : Bytes) : Flight P :=
  ⟨r, worker, s.config worker, flags, ⟨fun _ => none, []⟩,
    serve (routeFor (s.config worker).names (s.config worker).cfg r) flags r⟩

def Service.append [DecidableEq S] (s : Service P S) (v : S) (i : Bytes) (es : List Edit) : Service P S :=
  { s with history := fun v' i' => if v' = v ∧ i' = i then s.history v i ++ es else s.history v' i' }

def Service.setFlight (s : Service P S) (id : ℕ) (f : Flight P) : Service P S :=
  { s with flights := Function.update s.flights id (some f) }

end service

def Ctx.put (c : Ctx) (h : ℕ) (q : Queued) : Ctx := { c with queue := Function.update c.queue h (some q) }

/-- What is recorded of a request. -/
def edits (acted : Bool) (id : ℕ) (r : McpRequest) : List Edit := if acted then [.request id r] else []

/-- One step of the gateway, of a server, or of the world. -/
inductive ServiceStep {P S : Type} [DecidableEq S] (m : Memcached P S) : Service P S → Service P S → Prop where
  /-- A client sends a request. -/
  | arrive (s : Service P S) (id worker : ℕ) (r : McpRequest) (flags : Bytes) (hfresh : s.flights id = none) :
      ServiceStep m s (s.setFlight id (s.arriving worker r flags))
  /-- The handler of a request takes a step. -/
  | handle (s : Service P S) (id : ℕ) (f : Flight P) (op : RctxOp) (k : op.Answer → Prog Rctx Answer) (a : op.Answer)
      (c : Ctx) (hf : s.flights id = some f) (hjob : f.job = .call op k)
      (hstep : RctxStep (fun table => table = s.table) op f.ctx a c) :
      ServiceStep m s (s.setFlight id { f with ctx := c, job := k a })
  /-- The server of the pool answers a request. -/
  | execute (s : Service P S) (id : ℕ) (f : Flight P) (h : ℕ) (q : Queued) (ask : Bytes × McpRequest) (pool : P)
      (acted : Bool) (res : McpResponse) (hf : s.flights id = some f) (hq : f.ctx.queue h = some q)
      (hdone : q.done = none) (hask : f.asks[h]? = some ask) (hpool : f.config.pools ask.1 = some pool)
      (hres : m.Answers q.req acted
        (s.history (m.server pool q.req.key) (m.item q.req) ++ edits acted id q.req) res) :
      ServiceStep m s ((s.append (m.server pool q.req.key) (m.item q.req) (edits acted id q.req)).setFlight id
        { f with ctx := f.ctx.put h { q with done := some (acted, res) } })
  /-- The answer arrives. -/
  | deliver (s : Service P S) (id : ℕ) (f : Flight P) (h : ℕ) (q : Queued) (acted : Bool) (res : McpResponse)
      (hf : s.flights id = some f) (hq : f.ctx.queue h = some q) (hdone : q.done = some (acted, res))
      (hgot : q.got = none) :
      ServiceStep m s (s.setFlight id { f with ctx := f.ctx.put h { q with got := some (some res) } })
  /-- The wait for it ends without one. -/
  | fail (s : Service P S) (id : ℕ) (f : Flight P) (h : ℕ) (q : Queued) (res : Option McpResponse)
      (hf : s.flights id = some f) (hq : f.ctx.queue h = some q) (hgot : q.got = none)
      (hres : ∀ r, res = some r → r.ok = false) :
      ServiceStep m s (s.setFlight id { f with ctx := f.ctx.put h { q with got := some res } })
  /-- Something else happens to an item. -/
  | other (s : Service P S) (v : S) (i : Bytes) (content : Option Bytes) :
      ServiceStep m s (s.append v i [.other content])
  /-- A worker changes to another configuration, with pools of its own (`mcp_config_routes`). -/
  | reload (s : Service P S) (worker : ℕ) (loaded : Loaded P) :
      ServiceStep m s { s with config := Function.update s.config worker loaded }
  /-- The registry is replaced. -/
  | swap (s : Service P S) (table : WasmTable) : ServiceStep m s { s with table := table }

abbrev ServiceSteps {P S : Type} [DecidableEq S] (m : Memcached P S) : Service P S → Service P S → Prop :=
  Relation.ReflTransGen (ServiceStep m)

/-! ### What a step does to one request -/

section requests
variable {P S : Type} {m : Memcached P S} {T : WasmTable → Prop} {s s' s₁ : Service P S} {id : ℕ} {f f' : Flight P}
  {h : ℕ} {q q' : Queued} {acted : Bool} {res : McpResponse}

theorem Service.setFlight_flights (s : Service P S) (id i : ℕ) (f : Flight P) :
    (s.setFlight id f).flights i = if i = id then some f else s.flights i := by
  unfold Service.setFlight
  by_cases hi : i = id
  · subst hi
    simp
  · simp [hi]

theorem Ctx.put_queue (c : Ctx) (h i : ℕ) (q : Queued) : (c.put h q).queue i = if i = h then some q else c.queue i := by
  unfold Ctx.put
  by_cases hi : i = h
  · subst hi
    simp
  · simp [hi]

/-- The edits of a request. -/
def Edit.of (id : ℕ) : Edit → Bool
  | .request id' _ => id' = id
  | .other _ => false

/-- Histories go on, but not with edits of this request. -/
def Quiet (s s' : Service P S) (id : ℕ) : Prop :=
  ∀ v i, ∃ es, s'.history v i = s.history v i ++ es ∧ ∀ e ∈ es, e.of id = false

theorem Quiet.of_eq (h : s'.history = s.history) : Quiet s s' id :=
  fun v i => ⟨[], by rw [h, List.append_nil], by simp⟩

variable [DecidableEq S]

theorem Service.append_history (s : Service P S) (v : S) (i : Bytes) (es : List Edit) (v' : S) (i' : Bytes) :
    (s.append v i es).history v' i' = if v' = v ∧ i' = i then s.history v i ++ es else s.history v' i' := rfl

theorem Quiet.append (s : Service P S) (v : S) (i : Bytes) {es : List Edit} (hes : ∀ e ∈ es, e.of id = false) :
    Quiet s (s.append v i es) id := by
  intro v' i'
  rw [Service.append_history]
  split_ifs with heq
  · obtain ⟨rfl, rfl⟩ := heq
    exact ⟨es, rfl, hes⟩
  · exact ⟨[], by simp, by simp⟩

/-- What a step does to one request. -/
inductive Touch (m : Memcached P S) (s s' : Service P S) (id : ℕ) : Prop where
  | untouched (hf : s'.flights id = s.flights id) (hquiet : Quiet s s' id)
  | arrived (worker : ℕ) (r : McpRequest) (flags : Bytes) (hf : s.flights id = none)
      (hf' : s'.flights id = some (s.arriving worker r flags)) (hhistory : s'.history = s.history)
  | handled (f : Flight P) (op : RctxOp) (k : op.Answer → Prog Rctx Answer) (a : op.Answer) (c : Ctx)
      (hf : s.flights id = some f) (hf' : s'.flights id = some { f with ctx := c, job := k a })
      (hhistory : s'.history = s.history) (hjob : f.job = .call op k)
      (hstep : RctxStep (fun table => table = s.table) op f.ctx a c)
  | answered (f : Flight P) (h : ℕ) (q : Queued) (ask : Bytes × McpRequest) (pool : P) (acted : Bool)
      (res : McpResponse) (hf : s.flights id = some f)
      (hf' : s'.flights id = some { f with ctx := f.ctx.put h { q with done := some (acted, res) } })
      (hhistory : s'.history =
        (s.append (m.server pool q.req.key) (m.item q.req) (edits acted id q.req)).history)
      (hq : f.ctx.queue h = some q) (hdone : q.done = none) (hask : f.asks[h]? = some ask)
      (hpool : f.config.pools ask.1 = some pool)
      (hres : m.Answers q.req acted
        (s.history (m.server pool q.req.key) (m.item q.req) ++ edits acted id q.req) res)
  | told (f : Flight P) (h : ℕ) (q : Queued) (res : Option McpResponse) (hf : s.flights id = some f)
      (hf' : s'.flights id = some { f with ctx := f.ctx.put h { q with got := some res } })
      (hhistory : s'.history = s.history) (hq : f.ctx.queue h = some q) (hgot : q.got = none)
      (hres : ∀ r, res = some r → (∃ acted, q.done = some (acted, r)) ∨ r.ok = false)

theorem ServiceStep.touch (hstep : ServiceStep m s s') (id : ℕ) : Touch m s s' id := by
  cases hstep with
  | arrive id' worker r flags hfresh =>
      by_cases hid : id = id'
      · subst hid
        exact .arrived worker r flags hfresh (by simp [Service.setFlight_flights]) rfl
      · exact .untouched (by simp [Service.setFlight_flights, hid]) (.of_eq rfl)
  | handle id' f op k a c hf hjob hstep =>
      by_cases hid : id = id'
      · subst hid
        exact .handled f op k a c hf (by simp [Service.setFlight_flights]) rfl hjob hstep
      · exact .untouched (by simp [Service.setFlight_flights, hid]) (.of_eq rfl)
  | execute id' f h q ask pool acted res hf hq hdone hask hpool hres =>
      by_cases hid : id = id'
      · subst hid
        exact .answered f h q ask pool acted res hf (by simp [Service.setFlight_flights]) rfl hq hdone hask hpool hres
      · refine .untouched (by simp [Service.setFlight_flights, hid, Service.append]) (.append s _ _ ?_)
        intro e he
        unfold edits at he
        split_ifs at he
        · obtain rfl := List.mem_singleton.mp he
          exact decide_eq_false (Ne.symm hid)
        · cases he
  | deliver id' f h q acted res hf hq hdone hgot =>
      by_cases hid : id = id'
      · subst hid
        refine .told f h q (some res) hf (by simp [Service.setFlight_flights]) rfl hq hgot ?_
        rintro r ⟨⟩
        exact Or.inl ⟨acted, hdone⟩
      · exact .untouched (by simp [Service.setFlight_flights, hid]) (.of_eq rfl)
  | fail id' f h q res hf hq hgot hres =>
      by_cases hid : id = id'
      · subst hid
        exact .told f h q res hf (by simp [Service.setFlight_flights]) rfl hq hgot fun r hr => Or.inr (hres r hr)
      · exact .untouched (by simp [Service.setFlight_flights, hid]) (.of_eq rfl)
  | other v i content => exact .untouched rfl (.append s v i (by simp [Edit.of]))
  | reload worker loaded => exact .untouched rfl (.of_eq rfl)
  | swap table => exact .untouched rfl (.of_eq rfl)

theorem ServiceStep.grows (hstep : ServiceStep m s s') (v : S) (i : Bytes) : s.history v i <+: s'.history v i := by
  have happend : ∀ v' i' es, s.history v i <+: (s.append v' i' es).history v i := by
    intro v' i' es
    rw [Service.append_history]
    split_ifs with heq
    · obtain ⟨rfl, rfl⟩ := heq
      exact List.prefix_append _ _
    · exact List.prefix_rfl
  cases hstep with
  | execute id f h q ask pool acted res hf hq hdone hask hpool hres => exact happend _ _ _
  | other v' i' content => exact happend _ _ _
  | _ => exact List.prefix_rfl

/-! ### The invariant of a request -/

/-- What holds of a request in flight, if the registries of the time are among `T`. -/
structure FlightInv (T : WasmTable → Prop) (f : Flight P) : Prop where
  /-- Its handler will answer as `Routes` says. -/
  job : f.job.Withstands (RctxStep T) Arrives (Once (askOf f.route f.flags f.req) f.asks.length)
    (fun a c => ∃ table row, T table ∧ c.Heard f.waits row ∧ (a, c.counted) = answerFor table f.route f.req row) f.ctx
  /-- The handles have been asked what is meant for them. -/
  asked : ∀ h q, f.ctx.queue h = some q → ∃ name, f.asks[h]? = some (name, q.req)
  /-- Only a pool that is there answers. -/
  pool : ∀ h q answer, f.ctx.queue h = some q → q.done = some answer → ∃ name pool,
    f.asks[h]? = some (name, q.req) ∧ f.config.pools name = some pool
  /-- What has arrived is what the server has answered, or an error. -/
  got : ∀ h q res, f.ctx.queue h = some q → q.got = some (some res) →
    (∃ acted, q.done = some (acted, res)) ∨ res.ok = false

theorem Arrives.put {c : Ctx} (hq : c.queue h = some q) (hlater : q.Later q') : Arrives c (c.put h q') := by
  refine ⟨fun i => ?_, rfl⟩
  rw [Ctx.put_queue]
  by_cases hi : i = h
  · subst hi
    rw [if_pos rfl]
    exact Or.inr ⟨q, q', hq, rfl, hlater⟩
  · rw [if_neg hi]
    exact (Arrives.refl c).queue i

/-- A step of a handler leaves a handle as it is, or asks it. -/
theorem RctxStep.queue {op : RctxOp} {c c' : Ctx} {a : op.Answer} (hstep : RctxStep T op c a c') (h : ℕ) :
    c'.queue h = c.queue h ∨ ∃ r, op = .enqueue h r ∧ c'.queue h = some ⟨r, none, none⟩ := by
  cases hstep with
  | enqueue _ i r =>
      by_cases hi : h = i
      · subst hi
        exact Or.inr ⟨r, rfl, Function.update_self ..⟩
      · exact Or.inl (Function.update_of_ne hi _ _)
  | _ => exact Or.inl rfl

theorem RctxStep.mono {T' : WasmTable → Prop} {op : RctxOp} {c c' : Ctx} {a : op.Answer} (hstep : RctxStep T op c a c')
    (hT : ∀ table, T table → T' table) : RctxStep T' op c a c' := by
  cases hstep with
  | enqueue _ h r => exact .enqueue c h r
  | waitCond _ n hn => exact .waitCond c n hn
  | waitHandle _ h res hgot => exact .waitHandle c h res hgot
  | resAny _ h => exact .resAny c h
  | observe _ keyPrefix op outcome => exact .observe c keyPrefix op outcome
  | merge _ name entries keyPrefix table htable => exact .merge c name entries keyPrefix table (hT table htable)

theorem asks_askOf {route : Route} {flags : Bytes} {r : McpRequest} (hlt : h < (asks route flags r).length) :
    ∃ name, (asks route flags r)[h]? = some (name, askOf route flags r h) := by
  refine ⟨(asks route flags r)[h].1, ?_⟩
  simp [askOf, hlt]

theorem FlightInv.arrive (hT : ∃ table, T table) (worker : ℕ) (config : Loaded P) (r : McpRequest) (flags : Bytes) :
    FlightInv T ⟨r, worker, config, flags, ⟨fun _ => none, []⟩,
      serve (routeFor config.names config.cfg r) flags r⟩ := by
  refine ⟨serve_withstands hT (fun _ => rfl) rfl, ?_, ?_, ?_⟩
  · intro h q hq
    cases hq
  · intro h q answer hq
    cases hq
  · intro h q res hq
    cases hq

theorem FlightInv.handle {op : RctxOp} {k : op.Answer → Prog Rctx Answer} {a : op.Answer} {c : Ctx} (hf : FlightInv T f)
    (hjob : f.job = .call op k) (hstep : RctxStep T op f.ctx a c) : FlightInv T { f with ctx := c, job := k a } := by
  have hall := hf.job
  rw [hjob] at hall
  obtain ⟨honce, hnext⟩ := hall.of_call .refl hstep
  refine ⟨hnext, ?_, ?_, ?_⟩
  · intro h q hq
    rcases hstep.queue h with hsame | ⟨r, rfl, hnew⟩
    · exact hf.asked h q (hsame.symm.trans hq)
    · obtain ⟨-, hlt, rfl⟩ := honce h r rfl
      obtain rfl := Option.some.inj (hnew.symm.trans hq)
      exact asks_askOf hlt
  · intro h q answer hq hdone
    rcases hstep.queue h with hsame | ⟨r, rfl, hnew⟩
    · exact hf.pool h q answer (hsame.symm.trans hq) hdone
    · obtain rfl := Option.some.inj (hnew.symm.trans hq)
      cases hdone
  · intro h q res hq hgot
    rcases hstep.queue h with hsame | ⟨r, rfl, hnew⟩
    · exact hf.got h q res (hsame.symm.trans hq) hgot
    · obtain rfl := Option.some.inj (hnew.symm.trans hq)
      cases hgot

theorem FlightInv.put (hf : FlightInv T f) (hq : f.ctx.queue h = some q) (hlater : q.Later q')
    (hpool : ∀ answer, q'.done = some answer → ∃ name pool,
      f.asks[h]? = some (name, q.req) ∧ f.config.pools name = some pool)
    (hgot : ∀ res, q'.got = some (some res) → (∃ acted, q'.done = some (acted, res)) ∨ res.ok = false) :
    FlightInv T { f with ctx := f.ctx.put h q' } := by
  refine ⟨hf.job.later (fun _ _ _ => .trans) (.put hq hlater), ?_, ?_, ?_⟩
  · intro i p hp
    rw [Ctx.put_queue] at hp
    split_ifs at hp with hi
    · subst hi
      obtain rfl := Option.some.inj hp
      rw [hlater.req]
      exact hf.asked i q hq
    · exact hf.asked i p hp
  · intro i p answer hp
    rw [Ctx.put_queue] at hp
    split_ifs at hp with hi
    · subst hi
      obtain rfl := Option.some.inj hp
      rw [hlater.req]
      exact hpool answer
    · exact hf.pool i p answer hp
  · intro i p res hp
    rw [Ctx.put_queue] at hp
    split_ifs at hp with hi
    · obtain rfl := Option.some.inj hp
      exact hgot res
    · exact hf.got i p res hp

theorem FlightInv.step (hstep : ServiceStep m s s') (hT : T s.table)
    (hinv : ∀ f, s.flights id = some f → FlightInv T f) : ∀ f, s'.flights id = some f → FlightInv T f := by
  intro f' hf'
  cases hstep.touch id with
  | untouched hsame _ => exact hinv f' (hsame.symm.trans hf')
  | arrived worker r flags _ hnew _ =>
      obtain rfl := Option.some.inj (hnew.symm.trans hf')
      exact .arrive ⟨_, hT⟩ worker _ r flags
  | handled f op k a c hf hnew _ hjob hstep =>
      obtain rfl := Option.some.inj (hnew.symm.trans hf')
      exact (hinv f hf).handle hjob (hstep.mono fun table htable => htable ▸ hT)
  | answered f h q ask pool acted res hf hnew _ hq hdone hask hpool _ =>
      obtain rfl := Option.some.inj (hnew.symm.trans hf')
      refine (hinv f hf).put hq ⟨rfl, fun _ hanswer => (by rw [hdone] at hanswer; cases hanswer), fun _ h => h⟩ ?_ ?_
      · intro _ _
        obtain ⟨name, hask'⟩ := (hinv f hf).asked h q hq
        obtain rfl : ask = (name, q.req) := Option.some.inj (hask.symm.trans hask')
        exact ⟨name, pool, hask, hpool⟩
      · intro res' hgot
        rcases (hinv f hf).got h q res' hq hgot with ⟨acted', hdone'⟩ | herr
        · rw [hdone] at hdone'
          cases hdone'
        · exact Or.inr herr
  | told f h q res hf hnew _ hq hgot hres =>
      obtain rfl := Option.some.inj (hnew.symm.trans hf')
      refine (hinv f hf).put hq ⟨rfl, fun _ h => h, fun _ hres' => (by rw [hgot] at hres'; cases hres')⟩ ?_ ?_
      · exact fun answer => (hinv f hf).pool h q answer hq
      · rintro res' ⟨⟩
        exact hres res' rfl

/-- `T` has to hold of the registries of the states in between only. -/
theorem FlightInv.steps (hrun : ServiceSteps m s₁ s)
    (hT : ∀ s₀, ServiceSteps m s₁ s₀ → ServiceSteps m s₀ s → T s₀.table)
    (hinv : ∀ f, s₁.flights id = some f → FlightInv T f) : ∀ f, s.flights id = some f → FlightInv T f := by
  induction hrun with
  | refl => exact hinv
  | tail hrun hstep ih =>
      refine FlightInv.step hstep (hT _ hrun (.single hstep)) (ih ?_)
      exact fun s₀ hto hfrom => hT s₀ hto (hfrom.tail hstep)

theorem FlightInv.reached (hrun : ServiceSteps m .init s) :
    ∀ f, s.flights id = some f → FlightInv (fun _ => True) f := by
  apply FlightInv.steps hrun (fun _ _ _ => trivial)
  intro f hf
  cases hf

/-! ### What a response shows -/

/-- The server of a handle has answered. -/
def Service.Answered (m : Memcached P S) (s : Service P S) (id h : ℕ) (v : S) (r : McpRequest) (acted : Bool)
    (res : McpResponse) : Prop :=
  ∃ f name q, s.flights id = some f ∧ f.asks[h]? = some (name, r) ∧ f.server m (name, r) = some v ∧
    f.ctx.queue h = some q ∧ q.req = r ∧ q.done = some (acted, res)

omit [DecidableEq S] in
theorem FlightInv.answered (hinv : FlightInv T f) (hf : s.flights id = some f) (hq : f.ctx.queue h = some q)
    (hdone : q.done = some (acted, res)) : ∃ name v, f.asks[h]? = some (name, q.req) ∧
      f.server m (name, q.req) = some v ∧ s.Answered m id h v q.req acted res := by
  obtain ⟨name, pool, hask, hpool⟩ := hinv.pool h q _ hq hdone
  have hserver : f.server m (name, q.req) = some (m.server pool q.req.key) := by
    simp only [Flight.server, hpool, Option.map_some]
  exact ⟨name, _, hask, hserver, f, name, q, hf, hask, hserver, hq, rfl, hdone⟩

/-- An answer was there before the step, or the step is the one in which the server gives it. -/
theorem ServiceStep.answered (hstep : ServiceStep m s s') {v : S} {r : McpRequest}
    (hanswered : s'.Answered m id h v r acted res) :
    s.Answered m id h v r acted res ∨
      s'.history = (s.append v (m.item r) (edits acted id r)).history ∧
      m.Answers r acted (s.history v (m.item r) ++ edits acted id r) res := by
  obtain ⟨f', name, q', hf', hask', hserver, hq', rfl, hdone'⟩ := hanswered
  cases hstep.touch id with
  | untouched hsame _ => exact Or.inl ⟨f', name, q', hsame.symm.trans hf', hask', hserver, hq', rfl, hdone'⟩
  | arrived worker r flags _ hnew _ =>
      obtain rfl := Option.some.inj (hnew.symm.trans hf')
      cases hq'
  | handled f op k a c hf hnew _ hjob hstep =>
      obtain rfl := Option.some.inj (hnew.symm.trans hf')
      rcases hstep.queue h with hsame | ⟨r, -, hask⟩
      · exact Or.inl ⟨f, name, q', hf, hask', hserver, hsame.symm.trans hq', rfl, hdone'⟩
      · obtain rfl := Option.some.inj (hask.symm.trans hq')
        cases hdone'
  | answered f h' q ask pool acted' res' hf hnew hhistory hq hdone hask hpool hres =>
      obtain rfl := Option.some.inj (hnew.symm.trans hf')
      rw [Ctx.put_queue] at hq'
      split_ifs at hq' with hh
      · subst hh
        obtain rfl := Option.some.inj hq'
        obtain ⟨rfl, rfl⟩ := Prod.mk.inj (Option.some.inj hdone')
        obtain rfl : ask = (name, q.req) := Option.some.inj (hask.symm.trans hask')
        obtain rfl : m.server pool q.req.key = v := by
          simpa only [Flight.server, hpool, Option.map_some, Option.some.injEq] using hserver
        exact Or.inr ⟨hhistory, hres⟩
      · exact Or.inl ⟨f, name, q', hf, hask', hserver, hq', rfl, hdone'⟩
  | told f h' q res' hf hnew _ hq _ _ =>
      obtain rfl := Option.some.inj (hnew.symm.trans hf')
      rw [Ctx.put_queue] at hq'
      split_ifs at hq' with hh
      · subst hh
        obtain rfl := Option.some.inj hq'
        exact Or.inl ⟨f, name, q, hf, hask', hserver, hq, rfl, hdone'⟩
      · exact Or.inl ⟨f, name, q', hf, hask', hserver, hq', rfl, hdone'⟩

/-- Histories only go on, and a request that has arrived since `s₁` gets answers that show items with the
history they had in `s₁`, and more. -/
structure Since (m : Memcached P S) (s₁ s : Service P S) : Prop where
  grows : ∀ v i, s₁.history v i <+: s.history v i
  shown : ∀ id h v r acted res, s₁.flights id = none → s.Answered m id h v r acted res →
    ∃ L, s₁.history v (m.item r) <+: L ∧ L <+: s.history v (m.item r) ∧ m.Answers r acted L res ∧
      (acted = true → .request id r ∈ L)

theorem Since.step (hstep : ServiceStep m s s') (hs : Since m s₁ s) : Since m s₁ s' := by
  refine ⟨fun v i => (hs.grows v i).trans (hstep.grows v i), ?_⟩
  intro id h v r acted res hnone hanswered
  rcases hstep.answered hanswered with hbefore | ⟨hhistory, hres⟩
  · obtain ⟨L, hfrom, hto, hshown⟩ := hs.shown id h v r acted res hnone hbefore
    exact ⟨L, hfrom, hto.trans (hstep.grows _ _), hshown⟩
  · refine ⟨s.history v (m.item r) ++ edits acted id r, ?_, ?_, hres, ?_⟩
    · exact (hs.grows _ _).trans (List.prefix_append _ _)
    · rw [hhistory, Service.append_history, if_pos ⟨rfl, rfl⟩]
    · rintro rfl
      simp [edits]

theorem Since.steps (hrun : ServiceSteps m s₁ s) : Since m s₁ s := by
  induction hrun with
  | refl =>
      refine ⟨fun _ _ => List.prefix_rfl, ?_⟩
      intro id h v r acted res hnone hanswered
      obtain ⟨f, -, -, hf, -⟩ := hanswered
      rw [hnone] at hf
      cases hf
  | tail _ hstep ih => exact ih.step hstep

/-! ### Acknowledged writes -/

theorem countWrite_success {keyPrefix : Bytes} {answer : Answer} {rank : ℤ}
    (hok : (countWrite keyPrefix answer rank).1.success) : answer.success := by
  unfold countWrite at hok
  cases ho : writeOutcome rank with
  | none =>
      rw [ho] at hok
      exact hok.elim
  | some outcome =>
      rw [ho] at hok
      exact hok

/-- A success is that of every pool that was waited for. -/
theorem answerFor_success {table : WasmTable} {route : Route} {r : McpRequest} {row : List (Option McpResponse)}
    (hlen : row.length = waits route r) (hok : (answerFor table route r row).1.success) :
    ∀ res ∈ row, Stored (res.map McpResponse.write) := by
  cases route with
  | constant keyPrefix op outcome msg => exact hok.elim
  | keyspace ks =>
      unfold answerFor at hok
      by_cases hcmd : r.cmd = .mg
      · simp only [hcmd, if_true] at hok
        generalize readRoute table ks r.key (row.map fun res => res.map McpResponse.read) = result at hok
        rcases result with ⟨e | reply, log⟩
        · exact hok.elim
        · exact hok.elim
      · simp only [hcmd, if_false, waits, writeRoute] at hok hlen
        by_cases hfirst : ks.writePolicy = ascii "first"
        · rw [if_pos hfirst] at hok hlen
          obtain ⟨res, rfl⟩ := List.length_eq_one_iff.mp hlen
          obtain ⟨p, ps, hps⟩ := List.exists_cons_of_ne_nil ks.write_ne_nil
          have hstored := countWrite_success hok
          simpa [Answer.success, hps, List.mapIdx_cons] using hstored
        · rw [if_neg hfirst] at hok hlen
          have hstored := countWrite_success hok
          rw [writeRow_eq (by simpa using hlen)] at hstored
          cases row with
          | nil => simp
          | cons first rest =>
              have hstrong := reduceWriteAll_strongest (first.map McpResponse.write)
                (rest.map fun res => res.map McpResponse.write)
              have hall := hstrong.rank_eq_one.mp (hstrong.success_iff.mp hstored)
              intro res hres
              exact hall _ (List.mem_map_of_mem (f := fun res => res.map McpResponse.write) hres)

/-- The servers that an acknowledged write has waited for have done what it asks. -/
theorem acknowledged (hrun : ServiceSteps m .init s) (hf : s.flights id = some f) {a : Answer} (hret : f.job = .ret a)
    (hok : a.success) (hlt : h < f.waits) {name : Bytes} {r : McpRequest} (hask : f.asks[h]? = some (name, r)) :
    ∃ q res, f.ctx.queue h = some q ∧ q.req = r ∧ q.done = some (true, res) := by
  have hinv := FlightInv.reached hrun f hf
  have hjob := hinv.job
  rw [hret] at hjob
  obtain ⟨table, row, -, hheard, hanswer⟩ := hjob.of_ret .refl
  have hlen : row.length = f.waits := by simpa using hheard.length_eq.symm
  have hsuccess : (answerFor table f.route f.req row).1.success := by
    rw [← hanswer]
    exact hok
  have hgot : f.ctx.Got h row[h] := by
    have hget := hheard.get (i := h) (by simpa using hlt) (by omega)
    simpa using hget
  have hstored := answerFor_success hlen hsuccess row[h] (List.getElem_mem _)
  cases hres : row[h] with
  | none =>
      rw [hres] at hstored
      obtain ⟨_, hnone, -⟩ := hstored
      cases hnone
  | some res =>
      rw [hres] at hstored hgot
      obtain ⟨q, hq, hqgot⟩ := hgot
      have hok' : res.ok = true := by
        obtain ⟨_, ⟨⟩, hok', -⟩ := hstored
        exact hok'
      rcases hinv.got h q res hq hqgot with ⟨acted, hdone⟩ | herr
      · obtain ⟨name', v, hask', -, hanswered⟩ := hinv.answered (m := m) hf hq hdone
        obtain ⟨rfl, rfl⟩ := Prod.mk.inj (Option.some.inj (hask.symm.trans hask'))
        obtain ⟨L, -, -, hshown, -⟩ := (Since.steps hrun).shown id h v _ acted res rfl hanswered
        refine ⟨q, res, hq, rfl, ?_⟩
        rw [hdone, hshown.stored hstored]
      · rw [hok'] at herr
        cases herr

/-! ### What is done, counted -/

/-- The answer of the server of a handle. -/
def Ctx.doneAt (c : Ctx) (h : ℕ) : Option (Bool × McpResponse) := (c.queue h).bind Queued.done

/-- A server is asked about this item. -/
def Flight.asksOf (f : Flight P) (m : Memcached P S) (v : S) (i : Bytes) (ask : Bytes × McpRequest) : Bool :=
  decide (f.server m ask = some v ∧ m.item ask.2 = i)

/-- The server of a handle has done what it was asked, about this item. -/
def Flight.didAt (f : Flight P) (m : Memcached P S) (v : S) (i : Bytes) (x : (Bytes × McpRequest) × ℕ) : Bool :=
  f.asksOf m v i x.1 && (f.ctx.doneAt x.2).any Prod.fst

/-- The number of deeds of a request on an item of a server. -/
def Flight.deeds (f : Flight P) (m : Memcached P S) (v : S) (i : Bytes) : ℕ := f.asks.zipIdx.countP (f.didAt m v i)

/-- The number of handles that ask a server about an item. -/
def Flight.handles (f : Flight P) (m : Memcached P S) (v : S) (i : Bytes) : ℕ := f.asks.countP (f.asksOf m v i)

/-- The history of an item has each deed of a request once. -/
def Recorded (m : Memcached P S) (s : Service P S) (id : ℕ) : Prop :=
  ∀ v i, (s.history v i).countP (Edit.of id) = (s.flights id).elim 0 fun f => f.deeds m v i

theorem Flight.handles_eq (f : Flight P) (m : Memcached P S) (v : S) (i : Bytes) :
    f.handles m v i = f.asks.zipIdx.countP fun x => f.asksOf m v i x.1 := by
  have hmap : f.asks.zipIdx.map Prod.fst = f.asks := List.zipIdx_map_fst 0 f.asks
  conv_lhs => rw [Flight.handles, ← hmap, List.countP_map]
  rfl

theorem Flight.deeds_le (f : Flight P) (m : Memcached P S) (v : S) (i : Bytes) : f.deeds m v i ≤ f.handles m v i := by
  rw [f.handles_eq]
  apply List.countP_mono_left
  intro x _ hx
  exact (Bool.and_eq_true_iff.mp hx).1

theorem Flight.deeds_eq {v : S} {i : Bytes}
    (hall : ∀ h name r, f.asks[h]? = some (name, r) → ∃ res, f.ctx.doneAt h = some (true, res)) :
    f.deeds m v i = f.handles m v i := by
  rw [f.handles_eq]
  apply List.countP_congr
  rintro ⟨⟨name, r⟩, h⟩ hx
  obtain ⟨res, hdone⟩ := hall h name r (List.mem_zipIdx_iff_getElem?.mp hx)
  simp [Flight.didAt, hdone]

theorem Flight.deeds_congr {v : S} {i : Bytes} {c : Ctx} {job : Prog Rctx Answer}
    (hdone : ∀ h, c.doneAt h = f.ctx.doneAt h) :
    ({ f with ctx := c, job := job } : Flight P).deeds m v i = f.deeds m v i := by
  have hdid : ∀ x, ({ f with ctx := c, job := job } : Flight P).didAt m v i x = f.didAt m v i x := by
    intro x
    show (f.asksOf m v i x.1 && (c.doneAt x.2).any Prod.fst) = _
    rw [hdone, Flight.didAt]
  exact List.countP_congr fun x _ => by rw [hdid]

/-- The handles of a write. -/
theorem Flight.handles_write {ks : Keyspace} (hcmd : f.req.cmd ≠ .mg) (hroute : f.route = .keyspace ks) (v : S) :
    f.handles m v (m.item f.req) = ks.write.countP fun name => f.server m (name, f.req) = some v := by
  have hasks : f.asks = ks.write.map fun name => (name, f.req) := by simp [Flight.asks, hroute, Read.asks, hcmd]
  rw [Flight.handles, hasks, List.countP_map]
  congr 1
  funext name
  simp [Flight.asksOf]

/-- Counting with one more at one place. -/
theorem countP_change {α : Type*} {a b : α → Bool} {x : α} (hx : b x = false) : ∀ {l : List α}, l.Nodup → x ∈ l →
    (∀ y ∈ l, y ≠ x → a y = b y) → l.countP a = l.countP b + (a x).toNat
  | y :: l, hnodup, hmem, hsame => by
      rw [List.nodup_cons] at hnodup
      by_cases hy : y = x
      · subst hy
        have hrest : l.countP a = l.countP b := by
          apply List.countP_congr
          intro z hz
          rw [hsame z (List.mem_cons_of_mem _ hz) fun heq => hnodup.1 (heq ▸ hz)]
        rw [List.countP_cons, List.countP_cons, hrest, hx]
        cases a y <;> simp
      · have hrest := countP_change hx hnodup.2 ((List.mem_cons.mp hmem).resolve_left (Ne.symm hy))
          fun z hz => hsame z (List.mem_cons_of_mem _ hz)
        rw [List.countP_cons, List.countP_cons, hrest, hsame y List.mem_cons_self hy]
        omega

theorem Ctx.put_doneAt (c : Ctx) (h j : ℕ) (q : Queued) : (c.put h q).doneAt j = if j = h then q.done else c.doneAt j := by
  unfold Ctx.doneAt
  rw [Ctx.put_queue]
  split_ifs <;> rfl

theorem Flight.deeds_put {v : S} {i : Bytes} {ask : Bytes × McpRequest} (hask : f.asks[h]? = some ask)
    (hnone : f.ctx.doneAt h = none) (hdone : q.done = some (acted, res)) :
    ({ f with ctx := f.ctx.put h q } : Flight P).deeds m v i =
      f.deeds m v i + (f.asksOf m v i ask && acted).toNat := by
  have hnodup : f.asks.zipIdx.Nodup := by
    apply List.Nodup.of_map Prod.snd
    rw [List.zipIdx_map_snd]
    exact List.nodup_range'
  have hmem : (ask, h) ∈ f.asks.zipIdx := List.mem_zipIdx_iff_getElem?.mpr hask
  have hfalse : f.didAt m v i (ask, h) = false := by simp [Flight.didAt, hnone]
  have hput : ∀ y, ({ f with ctx := f.ctx.put h q } : Flight P).didAt m v i y =
      (f.asksOf m v i y.1 && ((f.ctx.put h q).doneAt y.2).any Prod.fst) := fun _ => rfl
  have hsame : ∀ y, y ∈ f.asks.zipIdx → y ≠ (ask, h) →
      ({ f with ctx := f.ctx.put h q } : Flight P).didAt m v i y = f.didAt m v i y := by
    rintro ⟨ask', j⟩ hy hne
    have hj : j ≠ h := by
      rintro rfl
      obtain rfl : ask' = ask := Option.some.inj ((List.mem_zipIdx_iff_getElem?.mp hy).symm.trans hask)
      exact hne rfl
    rw [hput, Ctx.put_doneAt, if_neg hj, Flight.didAt]
  have htrue : ({ f with ctx := f.ctx.put h q } : Flight P).didAt m v i (ask, h) = (f.asksOf m v i ask && acted) := by
    rw [hput, Ctx.put_doneAt, if_pos rfl, hdone]
    rfl
  rw [← htrue]
  exact countP_change hfalse hnodup hmem hsame

/-- A step in which no server answers the request. -/
theorem Recorded.of_doneAt {c : Ctx} {job : Prog Rctx Answer} (hs : Recorded m s id) (hf : s.flights id = some f)
    (hf' : s'.flights id = some { f with ctx := c, job := job }) (hhistory : s'.history = s.history)
    (hdone : ∀ h, c.doneAt h = f.ctx.doneAt h) : Recorded m s' id := by
  intro v i
  have hcount := hs v i
  rw [hf] at hcount
  rw [hf', hhistory, hcount, Option.elim_some, Option.elim_some, Flight.deeds_congr hdone]

theorem Recorded.step (hstep : ServiceStep m s s') (hinv : ∀ f, s.flights id = some f → FlightInv (fun _ => True) f)
    (hs : Recorded m s id) : Recorded m s' id := by
  cases hstep.touch id with
  | untouched hsame hquiet =>
      intro v i
      obtain ⟨es, hes, hof⟩ := hquiet v i
      rw [hsame, hes, List.countP_append, hs v i, List.countP_eq_zero.mpr (by simpa using hof), Nat.add_zero]
  | arrived worker r flags hnone hnew hhistory =>
      intro v i
      have hcount := hs v i
      rw [hnone] at hcount
      rw [hnew, hhistory, hcount]
      symm
      apply List.countP_eq_zero.mpr
      intro x _
      simp [Flight.didAt, Ctx.doneAt, Service.arriving]
  | handled f op k a c hf hnew hhistory hjob hstep =>
      refine hs.of_doneAt hf hnew hhistory fun h => ?_
      have hall := (hinv f hf).job
      rw [hjob] at hall
      have honce := (hall.of_call .refl (hstep.mono fun _ _ => trivial)).1
      unfold Ctx.doneAt
      rcases hstep.queue h with hsame | ⟨r, rfl, hask⟩
      · rw [hsame]
      · rw [hask, (honce h r rfl).1]
        rfl
  | answered f h q ask pool acted res hf hnew hhistory hq hdone hask hpool hres =>
      intro v i
      have hcount := hs v i
      obtain ⟨name, hask'⟩ := (hinv f hf).asked h q hq
      obtain rfl : ask = (name, q.req) := Option.some.inj (hask.symm.trans hask')
      have hnone : f.ctx.doneAt h = none := by rw [Ctx.doneAt, hq, Option.bind_some, hdone]
      have hasks : f.asksOf m v i (name, q.req) = decide (v = m.server pool q.req.key ∧ i = m.item q.req) := by
        simp only [Flight.asksOf, Flight.server, hpool, Option.map_some, Option.some.injEq, eq_comm]
      rw [hf] at hcount
      rw [hnew, Option.elim_some, Flight.deeds_put hask hnone rfl, hasks, hhistory, Service.append_history]
      split_ifs with hplace
      · obtain ⟨rfl, rfl⟩ := hplace
        rw [List.countP_append, hcount, Option.elim_some]
        cases acted <;> simp [edits, Edit.of]
      · rw [hcount, Option.elim_some, decide_eq_false hplace]
        rfl
  | told f h q res hf hnew hhistory hq _ _ =>
      refine hs.of_doneAt hf hnew hhistory fun j => ?_
      rw [Ctx.put_doneAt]
      split_ifs with hj
      · rw [hj, Ctx.doneAt, hq, Option.bind_some]
      · rfl

theorem Recorded.steps (hrun : ServiceSteps m .init s) : Recorded m s id := by
  induction hrun with
  | refl => exact fun _ _ => rfl
  | tail hrun hstep ih => exact ih.step hstep (FlightInv.reached hrun)

/-- A deed of a request is what one of its handles was asked. -/
def Attributed (m : Memcached P S) (s : Service P S) (id : ℕ) : Prop :=
  ∀ v i r, .request id r ∈ s.history v i → m.item r = i ∧ ∃ f name, s.flights id = some f ∧ (name, r) ∈ f.asks

omit [DecidableEq S] in
theorem Attributed.asked {v : S} {i : Bytes} {r : McpRequest} (hs : Attributed m s id) (hf : s.flights id = some f)
    (hmem : .request id r ∈ s.history v i) : m.item r = i ∧ ∃ name, (name, r) ∈ f.asks := by
  obtain ⟨hitem, f₀, name, hf₀, hask⟩ := hs v i r hmem
  obtain rfl := Option.some.inj (hf.symm.trans hf₀)
  exact ⟨hitem, name, hask⟩

theorem Attributed.step (hstep : ServiceStep m s s') (hinv : ∀ f, s.flights id = some f → FlightInv (fun _ => True) f)
    (hs : Attributed m s id) : Attributed m s' id := by
  intro v i r hmem
  cases hstep.touch id with
  | untouched hsame hquiet =>
      obtain ⟨es, hes, hof⟩ := hquiet v i
      rw [hes, List.mem_append] at hmem
      rcases hmem with hmem | hmem
      · rw [hsame]
        exact hs v i r hmem
      · have hfalse := hof _ hmem
        simp [Edit.of] at hfalse
  | arrived worker r' flags hnone _ hhistory =>
      rw [hhistory] at hmem
      obtain ⟨-, f, -, hf, -⟩ := hs v i r hmem
      rw [hnone] at hf
      cases hf
  | handled f op k a c hf hnew hhistory _ _ =>
      obtain ⟨hitem, name, hask⟩ := hs.asked hf (hhistory ▸ hmem)
      exact ⟨hitem, _, name, hnew, hask⟩
  | answered f h q ask pool acted res hf hnew hhistory hq _ hask _ _ =>
      obtain ⟨hitem, name, hask⟩ : m.item r = i ∧ ∃ name, (name, r) ∈ f.asks := by
        rw [hhistory, Service.append_history] at hmem
        split_ifs at hmem with hplace
        · obtain ⟨rfl, rfl⟩ := hplace
          rcases List.mem_append.mp hmem with hmem | hmem
          · exact hs.asked hf hmem
          · obtain ⟨name, hask'⟩ := (hinv f hf).asked h q hq
            obtain rfl : r = q.req := by
              cases acted <;> simp_all [edits]
            exact ⟨rfl, name, List.mem_of_getElem? hask'⟩
        · exact hs.asked hf hmem
      exact ⟨hitem, _, name, hnew, hask⟩
  | told f h q res hf hnew hhistory _ _ _ =>
      obtain ⟨hitem, name, hask⟩ := hs.asked hf (hhistory ▸ hmem)
      exact ⟨hitem, _, name, hnew, hask⟩

theorem Attributed.steps (hrun : ServiceSteps m .init s) : Attributed m s id := by
  induction hrun with
  | refl =>
      intro v i r hmem
      cases hmem
  | tail hrun hstep ih => exact ih.step hstep (FlightInv.reached hrun)

end requests

/-! ### The results -/

/-- A request with the responses it has got. -/
def requestOf (r : McpRequest) (row : List (Option McpResponse)) : Request :=
  if r.cmd = .mg then .read r.key (row.map fun res => res.map McpResponse.read)
  else .write (row.map fun res => res.map McpResponse.write)

theorem answerFor_routeFor (names : List Bytes) (cfg : List Keyspace) (table : WasmTable) (r : McpRequest)
    (row : List (Option McpResponse)) :
    answerFor table (routeFor names cfg r) r row = handle names cfg table (routeName r.key) (requestOf r row) := by
  by_cases hcmd : r.cmd = .mg
  · have hroute : routeFor names cfg r = (buildRouters names (buildKeyspaces cfg)).1.select (routeName r.key) := if_pos hcmd
    have hrequest : requestOf r row = .read r.key (row.map fun res => res.map McpResponse.read) := if_pos hcmd
    rw [hroute, hrequest]
    unfold answerFor handle
    dsimp only
    cases (buildRouters names (buildKeyspaces cfg)).1.select (routeName r.key) with
    | constant keyPrefix op outcome msg => rfl
    | keyspace ks => exact if_pos hcmd
  · have hroute : routeFor names cfg r = (buildRouters names (buildKeyspaces cfg)).2.select (routeName r.key) := if_neg hcmd
    have hrequest : requestOf r row = .write (row.map fun res => res.map McpResponse.write) := if_neg hcmd
    rw [hroute, hrequest]
    unfold answerFor handle
    dsimp only
    cases (buildRouters names (buildKeyspaces cfg)).2.select (routeName r.key) with
    | constant keyPrefix op outcome msg => rfl
    | keyspace ks => exact if_neg hcmd

/-! ### A write, and a read after it -/

/-- `mg` without side effects, and the plain modes of `ms` and `md`; a pool is its only server. -/
def plainMemcached : Memcached ℕ ℕ :=
  ⟨fun pool _ => pool, McpRequest.key, fun r old => match r.cmd with
    | .mg => old
    | .ms => r.value
    | .md => none⟩

def pairKeyspace : Keyspace := ⟨ascii "a", [ascii "q"], [ascii "p", ascii "q"], ascii "all", ascii "first-hit", by decide⟩

def pairConfig : Loaded ℕ :=
  ⟨[], [pairKeyspace], fun name => if name = ascii "p" then some 1 else if name = ascii "q" then some 2 else none⟩

/-- The second server under another name. -/
def movedKeyspace : Keyspace := ⟨ascii "a", [ascii "z"], [ascii "z"], ascii "all", ascii "first-hit", by decide⟩

def movedConfig : Loaded ℕ := ⟨[], [movedKeyspace], fun name => if name = ascii "z" then some 2 else none⟩

def writeX : McpRequest := ⟨.ms, ascii "a:x", [], some (ascii "v")⟩
def readX : McpRequest := ⟨.mg, ascii "a:x", [ascii "v"], none⟩

def storedAnswer : McpResponse := ⟨true, false, none, none, none, .stored⟩
def hitAnswer : McpResponse := ⟨true, true, some (ascii "1"), some 1, some (ascii "VA 1\r\nv\r\n"), .ok⟩

theorem storedAnswer_answers (L : List Edit) : plainMemcached.Answers writeX true L storedAnswer :=
  ⟨fun _ => rfl, fun h => (by cases h), fun h => (by cases h)⟩

theorem hitAnswer_answers : plainMemcached.Answers readX true [.request 0 writeX, .request 1 readX] hitAnswer := by
  refine ⟨fun _ => rfl, ?_, fun _ _ h => (by cases h)⟩
  intro _ _ _
  exact ⟨ascii "v", rfl, Or.inr ⟨ascii "VA 1", by decide +kernel, rfl⟩⟩

/-- A write to two pools that is acknowledged. -/
theorem exists_write : ∃ s f, ServiceSteps plainMemcached .init s ∧ s.flights 0 = some f ∧ f.req = writeX ∧
    f.config = pairConfig ∧ f.route = .keyspace pairKeyspace ∧ f.job = .ret (.write (some storedAnswer.write)) ∧
    s.flights 1 = none ∧ s.table = ∅ ∧ s.history 2 (ascii "a:x") = [.request 0 writeX] := by
  have henough : ∀ c : Ctx, (∃ res, c.Got 0 res) → (∃ res, c.Got 1 res) → c.Enough 2 := by
    intro c h₀ h₁
    exact Or.inl ⟨[0, 1], by decide, rfl, by simp [h₀, h₁]⟩
  have hrun := Relation.ReflTransGen.single (ServiceStep.reload (m := plainMemcached) .init 0 pairConfig)
  have hrun := hrun.tail (.arrive _ 0 0 writeX [] rfl)
  have hrun := hrun.tail (.handle _ 0 _ _ _ _ _ rfl rfl (.enqueue _ 0 writeX))
  have hrun := hrun.tail (.handle _ 0 _ _ _ _ _ rfl rfl (.enqueue _ 1 writeX))
  have hrun := hrun.tail (.execute _ 0 _ 0 _ _ 1 true storedAnswer rfl rfl rfl rfl rfl (storedAnswer_answers _))
  have hrun := hrun.tail (.execute _ 0 _ 1 _ _ 2 true storedAnswer rfl rfl rfl rfl rfl (storedAnswer_answers _))
  have hrun := hrun.tail (.deliver _ 0 _ 1 _ true storedAnswer rfl rfl rfl rfl)
  have hrun := hrun.tail (.deliver _ 0 _ 0 _ true storedAnswer rfl rfl rfl rfl)
  have hrun := hrun.tail (.handle _ 0 _ _ _ _ _ rfl rfl (.waitCond _ 2 (henough _ ⟨_, _, rfl, rfl⟩ ⟨_, _, rfl, rfl⟩)))
  have hrun := hrun.tail (.handle _ 0 _ _ _ _ _ rfl rfl (.resAny _ 0))
  have hrun := hrun.tail (.handle _ 0 _ _ _ _ _ rfl rfl (.resAny _ 1))
  have hrun := hrun.tail (.handle _ 0 _ _ _ _ _ rfl rfl (.observe _ _ _ _))
  exact ⟨_, _, hrun, rfl, rfl, rfl, rfl, rfl, rfl, rfl, rfl⟩

/-- The worker has changed to the new name when a read arrives; while it waits, its keyspace goes. -/
theorem exists_read {config : ℕ → Loaded ℕ} {history : ℕ → Bytes → List Edit} {flights : ℕ → Option (Flight ℕ)}
    (hitem : history 2 (ascii "a:x") = [.request 0 writeX]) (hnone : flights 1 = none) :
    ∃ s s₁ s₂ f b, ServiceStep plainMemcached ⟨config, ∅, history, flights⟩ s ∧ s.flights 1 = none ∧
      (s.config 0).cfg = [movedKeyspace] ∧ ServiceStep plainMemcached s s₁ ∧ s₁.flights 1 ≠ none ∧
      ServiceSteps plainMemcached s₁ s₂ ∧ (s₂.config 0).cfg = [] ∧ s₂.flights 1 = some f ∧ f.req = readX ∧
      f.worker = 0 ∧ f.config = movedConfig ∧ f.job = .ret b ∧ b = .read (.response hitAnswer.read) := by
  have henough : ∀ c : Ctx, (∃ res, c.Got 0 res) → c.Enough 1 := by
    intro c h₀
    exact Or.inl ⟨[0], by decide, rfl, by simp [h₀]⟩
  have hanswer : plainMemcached.Answers readX true (history 2 (ascii "a:x") ++ edits true 1 readX) hitAnswer := by
    rw [hitem]
    exact hitAnswer_answers
  have hmove := ServiceStep.reload (m := plainMemcached) ⟨config, ∅, history, flights⟩ 0 movedConfig
  have harrive := ServiceStep.arrive (m := plainMemcached)
    ⟨Function.update config 0 movedConfig, ∅, history, flights⟩ 1 0 readX [] hnone
  have hrun := Relation.ReflTransGen.single (ServiceStep.reload (m := plainMemcached)
    (Service.setFlight ⟨Function.update config 0 movedConfig, ∅, history, flights⟩ 1
      (Service.arriving ⟨Function.update config 0 movedConfig, ∅, history, flights⟩ 0 readX [])) 0 ⟨[], [], fun _ => none⟩)
  have hrun := hrun.tail (.handle _ 1 _ _ _ _ _ rfl rfl (.enqueue _ 0 readX))
  have hrun := hrun.tail (.execute _ 1 _ 0 _ _ 2 true hitAnswer rfl rfl rfl rfl rfl hanswer)
  have hrun := hrun.tail (.deliver _ 1 _ 0 _ true hitAnswer rfl rfl rfl rfl)
  have hrun := hrun.tail (.handle _ 1 _ _ _ _ _ rfl rfl (.waitCond _ 1 (henough _ ⟨_, _, rfl, rfl⟩)))
  have hrun := hrun.tail (.handle _ 1 _ _ _ _ _ rfl rfl (.resAny _ 0))
  have hrun := hrun.tail (.handle _ 1 _ _ _ _ _ rfl rfl (.merge _ _ _ _ ∅ rfl))
  have hmerge : mergeAnswer (build readX.key movedKeyspace.read [some hitAnswer.read]) (nativeMerge ∅ movedKeyspace.mergeName
      (build readX.key movedKeyspace.read [some hitAnswer.read]) movedKeyspace.keyPrefix).1 =
      .read (.response hitAnswer.read) := by
    decide +kernel
  exact ⟨_, _, _, _, _, hmove, hnone, rfl, harrive, Option.some_ne_none _, hrun, rfl, rfl, rfl, rfl, rfl, rfl, hmerge⟩

section results
variable {P S : Type} [DecidableEq S] {m : Memcached P S} {s s' s₁ s₂ : Service P S} {id : ℕ} {f : Flight P}

/-- A request that is there stays what it is. -/
theorem ServiceStep.keeps (hstep : ServiceStep m s s') (hf : s.flights id = some f) :
    ∃ f', s'.flights id = some f' ∧ f'.worker = f.worker ∧ f'.config = f.config := by
  cases hstep.touch id with
  | untouched hsame _ => exact ⟨f, hsame.trans hf, rfl, rfl⟩
  | arrived worker r flags hnone _ _ =>
      rw [hf] at hnone
      cases hnone
  | handled f₀ op k a c hf₀ hnew _ _ _ =>
      obtain rfl := Option.some.inj (hf₀.symm.trans hf)
      exact ⟨_, hnew, rfl, rfl⟩
  | answered f₀ h q ask pool acted res hf₀ hnew _ _ _ _ _ _ | told f₀ h q res hf₀ hnew _ _ _ _ =>
      obtain rfl := Option.some.inj (hf₀.symm.trans hf)
      exact ⟨_, hnew, rfl, rfl⟩

theorem ServiceSteps.keeps (hrun : ServiceSteps m s s') (hf : s.flights id = some f) :
    ∃ f', s'.flights id = some f' ∧ f'.worker = f.worker ∧ f'.config = f.config := by
  induction hrun with
  | refl => exact ⟨f, hf, rfl, rfl⟩
  | tail _ hstep ih =>
      obtain ⟨f₁, hf₁, hworker, hconfig⟩ := ih
      obtain ⟨f₂, hf₂, hworker₂, hconfig₂⟩ := hstep.keeps hf₁
      exact ⟨f₂, hf₂, hworker₂.trans hworker, hconfig₂.trans hconfig⟩

/-- A request that was not there and is there after a step has arrived in it. -/
theorem ServiceStep.arrived (hstep : ServiceStep m s s') (hnone : s.flights id = none) (hsome : s'.flights id ≠ none) :
    ∃ worker r flags, s'.flights id = some (s.arriving worker r flags) := by
  cases hstep.touch id with
  | untouched hsame _ => exact absurd (hsame.trans hnone) hsome
  | arrived worker r flags _ hnew _ => exact ⟨worker, r, flags, hnew⟩
  | handled _ _ _ _ _ hf _ _ _ _ | answered _ _ _ _ _ _ _ hf _ _ _ _ _ _ _ | told _ _ _ _ hf _ _ _ _ _ =>
      rw [hnone] at hf
      cases hf

/-- The registry that a request is answered by is that of a state it has been in flight in. -/
theorem answered_between (hrun : ServiceSteps m s₁ s₂) (hinv : ∀ f, s₁.flights id = some f →
      FlightInv (fun table => ∃ s₃, ServiceSteps m s₁ s₃ ∧ ServiceSteps m s₃ s₂ ∧ s₃.table = table) f)
    (hf : s₂.flights id = some f) {a : Answer} (hret : f.job = .ret a) :
    ∃ (s₃ : Service P S) (row : List (Option McpResponse)), ServiceSteps m s₁ s₃ ∧ ServiceSteps m s₃ s₂ ∧
      f.ctx.Heard f.waits row ∧ (a, f.ctx.counted) = answerFor s₃.table f.route f.req row := by
  have hjob := (FlightInv.steps hrun (fun s₃ hto hfrom => ⟨s₃, hto, hfrom, rfl⟩) hinv f hf).job
  rw [hret] at hjob
  obtain ⟨_, row, ⟨s₃, hto, hfrom, rfl⟩, hheard, hanswer⟩ := hjob.of_ret .refl
  exact ⟨s₃, row, hto, hfrom, hheard, hanswer⟩

/-- Whatever other requests do, however the servers answer, and whatever is reloaded meanwhile: the answer
to a request, and what is counted for it, are those of the configuration that its worker had in the state
`s` in which it arrived, and of the registry of a state `s₃` between its arrival and its answer, for the
responses it has got. -/
theorem answered_under_arrival_config (hnone : s.flights id = none) (hstep : ServiceStep m s s₁)
    (hsome : s₁.flights id ≠ none) (hrun : ServiceSteps m s₁ s₂) (hf : s₂.flights id = some f) (a : Answer)
    (hret : f.job = .ret a) :
    ∃ (s₃ : Service P S) (row : List (Option McpResponse)), ServiceSteps m s₁ s₃ ∧ ServiceSteps m s₃ s₂ ∧
      f.ctx.Heard f.waits row ∧
      (a, f.ctx.counted) = handle (s.config f.worker).names (s.config f.worker).cfg s₃.table (routeName f.req.key)
        (requestOf f.req row) := by
  obtain ⟨worker, r, flags, harrived⟩ := hstep.arrived hnone hsome
  obtain ⟨f', hf', hworker, hconfig⟩ := hrun.keeps harrived
  obtain rfl := Option.some.inj (hf'.symm.trans hf)
  obtain ⟨s₃, row, hto, hfrom, hheard, hanswer⟩ := answered_between hrun (by
    intro f₁ hf₁
    obtain rfl := Option.some.inj (harrived.symm.trans hf₁)
    exact .arrive ⟨_, s₁, .refl, hrun, rfl⟩ worker _ r flags) hf hret
  refine ⟨s₃, row, hto, hfrom, hheard, ?_⟩
  have hroute : f'.route = routeFor (s.config f'.worker).names (s.config f'.worker).cfg f'.req := by
    rw [Flight.route, hconfig, hworker]
    rfl
  rw [hanswer, hroute, answerFor_routeFor]

theorem answered_under_arrival_config_reloaded : ∃ (s s₁ s₂ s₃ : Service ℕ ℕ) (f : Flight ℕ)
    (row : List (Option McpResponse)), ServiceSteps plainMemcached .init s ∧ ServiceStep plainMemcached s s₁ ∧
    (s.config 0).cfg = [movedKeyspace] ∧ (s₂.config 0).cfg = [] ∧ s₂.flights 1 = some f ∧ f.worker = 0 ∧
    ServiceSteps plainMemcached s₁ s₃ ∧ ServiceSteps plainMemcached s₃ s₂ ∧ f.ctx.Heard f.waits row ∧
    (.read (.response hitAnswer.read), f.ctx.counted) =
      handle (s.config f.worker).names (s.config f.worker).cfg s₃.table (routeName f.req.key) (requestOf f.req row) := by
  obtain ⟨⟨config, table, history, flights⟩, -, hrun, -, -, -, -, -, hnone, rfl, hitem⟩ := exists_write
  obtain ⟨s, s₁, s₂, f, b, hmove, hnew, hcfg, hstep, hsome, hrun', hcfg₂, hf, -, hworker, -, hret, rfl⟩ :=
    exists_read hitem hnone
  obtain ⟨s₃, row, hto, hfrom, hheard, hanswer⟩ :=
    answered_under_arrival_config hnew hstep hsome hrun' hf _ hret
  exact ⟨s, s₁, s₂, s₃, f, row, hrun.tail hmove, hstep, hcfg, hcfg₂, hf, hworker, hto, hfrom, hheard, hanswer⟩

/-- A server does for a write only what the client has asked, body included, on that item, and at most
once per write pool that sends the key to it, as listed when the write arrived; for a write that is
acknowledged under the policy `all`, exactly so often. -/
theorem write_applied_once {ks : Keyspace} (hrun : ServiceSteps m .init s) (hf : s.flights id = some f)
    (hcmd : f.req.cmd ≠ .mg) (hroute : f.route = .keyspace ks) (v : S) :
    (∀ i r, .request id r ∈ s.history v i → r = f.req ∧ i = m.item f.req) ∧
    (s.history v (m.item f.req)).countP (Edit.of id) ≤
      ks.write.countP (fun name => f.server m (name, f.req) = some v) ∧
    ∀ a, f.job = .ret a → a.success → ks.writePolicy ≠ ascii "first" →
      (s.history v (m.item f.req)).countP (Edit.of id) =
        ks.write.countP (fun name => f.server m (name, f.req) = some v) := by
  have hrecorded := (Recorded.steps hrun : Recorded m s id) v (m.item f.req)
  rw [hf, Option.elim_some] at hrecorded
  rw [hrecorded, ← Flight.handles_write (m := m) hcmd hroute v]
  refine ⟨?_, f.deeds_le m v _, ?_⟩
  · intro i r hmem
    obtain ⟨rfl, name, hask⟩ := (Attributed.steps hrun).asked hf hmem
    simp only [Flight.asks, hroute, asks, hcmd, if_false, List.mem_map, Prod.mk.injEq] at hask
    obtain ⟨_, -, -, rfl⟩ := hask
    exact ⟨rfl, rfl⟩
  · intro a hret hok hall
    apply Flight.deeds_eq
    intro h name r hask
    have hlt : h < f.waits := by
      have hlen := (List.getElem?_eq_some_iff.mp hask).1
      simpa [Flight.waits, Flight.asks, waits, asks, hroute, hcmd, hall] using hlen
    obtain ⟨q, res, hq, -, hdone⟩ := acknowledged hrun hf hret hok hlt hask
    exact ⟨res, by rw [Ctx.doneAt, hq, Option.bind_some, hdone]⟩

theorem write_applied_once_pair : ∃ s, ServiceSteps plainMemcached .init s ∧
    (s.history 2 (ascii "a:x")).countP (Edit.of 0) = 1 := by
  obtain ⟨s, f, hrun, hf, hreq, hconfig, hroute, hret, -⟩ := exists_write
  have hitem : plainMemcached.item f.req = ascii "a:x" := by rw [hreq]; rfl
  have hcmd : f.req.cmd ≠ .mg := by rw [hreq]; decide
  have hstored : (Answer.write (some storedAnswer.write)).success := ⟨_, rfl, rfl, Or.inl rfl⟩
  obtain ⟨-, -, hexact⟩ := write_applied_once hrun hf hcmd hroute 2
  have hcount := hexact _ hret hstored (by decide)
  rw [hitem] at hcount
  refine ⟨s, hrun, hcount.trans ?_⟩
  simp only [Flight.server, hconfig, hreq]
  decide

/-- The loop without a winner returns a response that it has seen. -/
theorem noWinnerFrom_response : ∀ {es : List LuaEntry} {anyMiss : Bool} {concrete : Option Response} {res : Response},
    noWinnerFrom anyMiss concrete es = .response res → concrete = some res ∨ ∃ e ∈ es, e.res = some res
  | [], anyMiss, concrete, res, h => by
      cases anyMiss <;> cases concrete <;> simp_all [noWinnerFrom]
  | e :: es, anyMiss, concrete, res, h => by
      have hrest : ∀ {anyMiss concrete'}, (concrete' = some res → concrete = some res ∨ e.res = some res) →
          noWinnerFrom anyMiss concrete' es = .response res → concrete = some res ∨ ∃ e' ∈ e :: es, e'.res = some res := by
        intro anyMiss concrete' hconcrete hes
        rcases noWinnerFrom_response hes with hsome | ⟨e', he', hres⟩
        · exact (hconcrete hsome).imp_right fun hres => ⟨e, List.mem_cons_self, hres⟩
        · exact Or.inr ⟨e', List.mem_cons_of_mem _ he', hres⟩
      cases hs : e.status with
      | hit =>
          simp only [noWinnerFrom, hs] at h
          exact hrest Or.inl h
      | miss =>
          cases hr : e.res with
          | none =>
              simp only [noWinnerFrom, hs, hr] at h
              exact hrest Or.inl h
          | some r =>
              simp only [noWinnerFrom, hs, hr, Reply.response.injEq] at h
              exact Or.inr ⟨e, List.mem_cons_self, by rw [hr, h]⟩
      | error =>
          cases hr : e.res with
          | none =>
              simp only [noWinnerFrom, hs, hr] at h
              exact hrest Or.inl h
          | some r =>
              simp only [noWinnerFrom, hs, hr] at h
              refine hrest ?_ h
              cases concrete with
              | none => exact fun heq => Or.inr (hr.trans heq)
              | some c => exact Or.inl

theorem replyFor_response {es : List LuaEntry} {result : MergeResult} {res : Response}
    (h : replyFor es result = .response res) : ∃ e ∈ es, e.res = some res := by
  have hno : noWinner es = .response res → ∃ e ∈ es, e.res = some res := by
    intro hno
    rcases noWinnerFrom_response hno with hnone | hex
    · cases hnone
    · exact hex
  cases result with
  | winner i =>
      cases hi : es[i]?.bind LuaEntry.res with
      | none =>
          simp only [replyFor, hi] at h
          exact hno h
      | some res' =>
          simp only [replyFor, hi, Reply.response.injEq] at h
          subst h
          obtain ⟨e, he, hres⟩ := Option.bind_eq_some_iff.mp hi
          exact ⟨e, List.mem_of_getElem? he, hres⟩
  | synthesized bytes => cases h
  | miss => exact hno h

theorem writeRoute_ne_read (ks : Keyspace) (row : List (Option WriteResponse)) (reply : Reply) :
    (writeRoute ks row).1 ≠ .read reply := by
  have hcount : ∀ answer rank, answer ≠ .read reply → (countWrite ks.keyPrefix answer rank).1 ≠ .read reply := by
    intro answer rank hne
    unfold countWrite
    cases writeOutcome rank with
    | none => simp
    | some outcome => exact hne
  unfold writeRoute
  split_ifs
  · exact hcount _ _ (by simp)
  · apply hcount
    unfold reduceWriteAll
    split <;> simp

/-- The responses of the entries are those of the row. -/
theorem mem_row_of_mem_build {key : Bytes} {pools : List Bytes} {row : List (Option McpResponse)} {e : LuaEntry}
    {reply : Response} (he : e ∈ build key pools (row.map fun res => res.map McpResponse.read))
    (hres : e.res = some reply) : ∃ res, some res ∈ row ∧ McpResponse.read res = reply := by
  obtain ⟨j, hj, rfl⟩ := List.mem_mapIdx.mp he
  rw [make_res, List.getElem?_map] at hres
  cases hrow : row[j]? with
  | none =>
      rw [hrow] at hres
      cases hres
  | some o =>
      rw [hrow] at hres
      obtain ⟨res, rfl, rfl⟩ := Option.map_eq_some_iff.mp hres
      exact ⟨res, List.mem_of_getElem? hrow, rfl⟩

/-- A response that a read answers with is one that it has got. -/
theorem answerFor_response {table : WasmTable} {route : Route} {r : McpRequest} {row : List (Option McpResponse)}
    {reply : Response} (h : (answerFor table route r row).1 = .read (.response reply)) :
    ∃ res, some res ∈ row ∧ McpResponse.read res = reply := by
  cases route with
  | constant keyPrefix op outcome msg => cases h
  | keyspace ks =>
      by_cases hcmd : r.cmd = .mg
      · by_cases hkey : 35 ∈ r.key
        · simp only [answerFor, hcmd, readRoute, hkey, if_true] at h
          cases h
        · rw [answerFor_read hcmd hkey] at h
          generalize (nativeMerge table ks.mergeName _ ks.keyPrefix).1 = merged at h
          cases merged with
          | error e => cases h
          | ok result =>
              obtain ⟨e, he, hres⟩ := replyFor_response (Answer.read.inj h)
              exact mem_row_of_mem_build he hres
      · rw [answerFor, if_neg hcmd] at h
        exact absurd h (writeRoute_ne_read ks _ _)

/-- What the server of a handle has shown of an item: a history that is one of its own, and in which every
deed of the write `w` on that item at that server stands. -/
def ShowsWrite (m : Memcached P S) (s : Service P S) (w : ℕ) (W f : Flight P) (h : ℕ) (res : McpResponse) : Prop :=
  ∃ name r v acted L, f.asks[h]? = some (name, r) ∧ f.server m (name, r) = some v ∧ m.Answers r acted L res ∧
    L <+: s.history v (m.item r) ∧
    ∀ j < W.waits, ∀ name' r', W.asks[j]? = some (name', r') → W.server m (name', r') = some v →
      m.item r' = m.item r → ∃ before after, L = before ++ .request w r' :: after

/-- If a write has been acknowledged before a read arrives, the read gets from every server that the write
has waited for the item as the write has left it, or as it was changed after that, whatever the pools of
the two are called and whatever is reloaded in between: each response that the merge sees shows a history
of the item with the write in it, and what the client gets verbatim is one of these responses. -/
theorem acknowledged_write_seen {w : ℕ} {W : Flight P} (hrun : ServiceSteps m .init s₁) (hrun' : ServiceSteps m s₁ s₂)
    (hW : s₁.flights w = some W) (a : Answer) (hacked : W.job = .ret a) (hok : a.success)
    (hnone : s₁.flights id = none) (hf : s₂.flights id = some f) (b : Answer) (hret : f.job = .ret b) :
    ∃ (s₃ : Service P S) (row : List (Option McpResponse)), ServiceSteps m s₁ s₃ ∧ ServiceSteps m s₃ s₂ ∧
      f.ctx.Heard f.waits row ∧ (b, f.ctx.counted) = answerFor s₃.table f.route f.req row ∧
      (∀ h res, row[h]? = some (some res) → res.ok = true → ShowsWrite m s₂ w W f h res) ∧
      ∀ reply, b = .read (.response reply) → ∃ res, some res ∈ row ∧ McpResponse.read res = reply := by
  have hinv := FlightInv.reached (hrun.trans hrun') f hf
  obtain ⟨s₃, row, hto, hfrom, hheard, hanswer⟩ := answered_between hrun' (by
    intro f₁ hf₁
    rw [hnone] at hf₁
    cases hf₁) hf hret
  refine ⟨s₃, row, hto, hfrom, hheard, hanswer, ?_, ?_⟩
  · intro h res hrow hresok
    obtain ⟨q, hq, hgot⟩ : f.ctx.Got h (some res) := by
      obtain ⟨hlt, hget⟩ := List.getElem?_eq_some_iff.mp hrow
      have hheard' := hheard.get (i := h) (by rw [hheard.length_eq]; exact hlt) hlt
      simpa [hget] using hheard'
    rcases hinv.got h q res hq hgot with ⟨acted, hdone⟩ | herr
    · obtain ⟨name, v, hask, hserver, hanswered⟩ := hinv.answered hf hq hdone
      obtain ⟨L, hsince, hupto, hshown, -⟩ := (Since.steps hrun').shown id h v _ acted res hnone hanswered
      refine ⟨name, q.req, v, acted, L, hask, hserver, hshown, hupto, ?_⟩
      intro j hj name' r' hask' hserver' hitem
      -- the server had done what the write asks before the read arrived
      obtain ⟨q', res', hq', hreq', hdone'⟩ := acknowledged hrun hW hacked hok hj hask'
      obtain ⟨L', -, hupto', -, hdid⟩ := (Since.steps hrun).shown w j _ r' true res' rfl
        ⟨W, name', q', hW, hask', hserver', hq', hreq', hdone'⟩
      have hmem : Edit.request w r' ∈ L := by
        apply hsince.subset
        rw [← hitem]
        exact hupto'.subset (hdid rfl)
      exact List.append_of_mem hmem
    · rw [hresok] at herr
      cases herr
  · intro reply hreply
    have hfst : (answerFor s₃.table f.route f.req row).1 = .read (.response reply) := by
      rw [← hanswer]
      exact hreply
    exact answerFor_response hfst

/-- The read gets what the write has stored, from a server that has another name by then. -/
theorem acknowledged_write_seen_pair : ∃ (s₁ s₂ : Service ℕ ℕ) (W f : Flight ℕ), ServiceSteps plainMemcached .init s₁ ∧
    ServiceSteps plainMemcached s₁ s₂ ∧ s₁.flights 0 = some W ∧ W.req = writeX ∧ W.config = pairConfig ∧
    s₂.flights 1 = some f ∧ f.req = readX ∧ f.config = movedConfig ∧
    ∃ h res, ShowsWrite plainMemcached s₂ 0 W f h res ∧ res.read = hitAnswer.read := by
  obtain ⟨⟨config, table, history, flights⟩, W, hrun, hW, hreqW, hconfigW, -, hacked, hnone, rfl, hitem⟩ := exists_write
  obtain ⟨s, s₁, s₂, f, b, hmove, -, -, hstep, -, hrun', -, hf, hreq, -, hconfig, hret, rfl⟩ := exists_read hitem hnone
  have hstored : (Answer.write (some storedAnswer.write)).success := ⟨_, rfl, rfl, Or.inl rfl⟩
  have hafter := (hrun'.head hstep).head hmove
  obtain ⟨-, row, -, -, hheard, -, hshows, hreply⟩ :=
    acknowledged_write_seen hrun hafter hW _ hacked hstored hnone hf _ hret
  obtain ⟨res, hres, heq⟩ := hreply _ rfl
  obtain ⟨h, hget⟩ := List.mem_iff_getElem?.mp hres
  have hok : res.ok = true := congrArg Response.ok heq
  exact ⟨_, s₂, W, f, hrun, hafter, hW, hreqW, hconfigW, hf, hreq, hconfig, h, res, hshows h res hget hok, heq⟩

end results

end McGateway.Read
