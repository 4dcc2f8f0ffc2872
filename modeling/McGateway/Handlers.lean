import McGateway.EntryViews
import McGateway.Writes
import McGateway.Interference

/-! # The handlers as programs (`make_read_handler`, `make_write_handler`)

`Routes` has a handler as a function of the responses it has collected.  Here it is the coroutine that
collects them: it queues a request on the handle of each pool, waits, and looks at what has arrived.
While it waits, responses arrive in any order, late or not at all (`Arrives`).

A request queued on several handles is sent to each with its header, but its body goes to the first
handle only; so a write is queued as one request of its own per handle.

`serve_withstands` says that none of this shows: however the responses arrive, the answer and what is
counted are those of `Routes`, for the responses that have arrived; and every pool is asked once. -/

namespace McGateway.Read

open McGateway.Core
open Bytes (ascii)

/-! ### Requests and responses -/

inductive Cmd where
  | mg
  | ms
  | md
deriving DecidableEq, Repr

/-- An `mcp.request`. -/
structure McpRequest where
  cmd : Cmd
  key : Bytes
  flags : List Bytes
  /-- The body, of a write that has one. -/
  value : Option Bytes
deriving DecidableEq, Repr

/-- `r:flag_add(f)`. -/
def McpRequest.flagAdd (r : McpRequest) (f : UInt8) : McpRequest :=
  if r.flags.any fun t => t.head? = some f then r else { r with flags := r.flags ++ [[f]] }

/-- An `mcp.response`. -/
structure McpResponse where
  ok : Bool
  hit : Bool
  line : Option Bytes
  vlen : Option ℕ
  raw : Option Bytes
  code : WriteCode
deriving DecidableEq, Repr

/-- What the read handler can ask of it. -/
def McpResponse.read (r : McpResponse) : Response := ⟨r.ok, r.hit, r.line, r.vlen, r.raw⟩

/-- What the write handler can ask of it. -/
def McpResponse.write (r : McpResponse) : WriteResponse := ⟨r.ok, r.code⟩

/-! ### Request contexts -/

inductive RctxOp where
  | enqueue (handle : ℕ) (r : McpRequest)
  | waitCond (n : ℕ)
  | waitHandle (handle : ℕ)
  | resAny (handle : ℕ)
  | observe (keyPrefix op outcome : Bytes)
  | merge (name : Bytes) (entries : List LuaEntry) (keyPrefix : Bytes)
deriving DecidableEq, Repr

@[reducible] def RctxOp.Answer : RctxOp → Type
  | waitHandle _ => Option McpResponse
  | resAny _ => Option McpResponse
  | merge _ _ _ => Except NativeError MergeResult
  | _ => Unit

abbrev Rctx : Interface := ⟨RctxOp, RctxOp.Answer⟩

/-- A request queued on a handle. -/
structure Queued where
  req : McpRequest
  /-- What the pool has answered, and whether it has done what was asked. -/
  done : Option (Bool × McpResponse)
  /-- What has arrived; `nil` when there was no response. -/
  got : Option (Option McpResponse)

structure Ctx where
  queue : ℕ → Option Queued
  counted : List RequestLabels

/-- The response of the handle has arrived. -/
def Ctx.Got (c : Ctx) (h : ℕ) (res : Option McpResponse) : Prop := ∃ q, c.queue h = some q ∧ q.got = some res

/-- `n` responses have arrived, or all that can. -/
def Ctx.Enough (c : Ctx) (n : ℕ) : Prop :=
  (∃ hs : List ℕ, hs.Nodup ∧ hs.length = n ∧ ∀ h ∈ hs, ∃ res, c.Got h res) ∨
    ∀ h q, c.queue h = some q → ∃ res, q.got = some res

/-- What an operation of a handler does; `T` holds of the registries that there are while it runs. -/
inductive RctxStep (T : WasmTable → Prop) : (op : RctxOp) → Ctx → op.Answer → Ctx → Prop where
  | enqueue (c : Ctx) (h : ℕ) (r : McpRequest) :
      RctxStep T (.enqueue h r) c () { c with queue := Function.update c.queue h (some ⟨r, none, none⟩) }
  | waitCond (c : Ctx) (n : ℕ) (hn : c.Enough n) : RctxStep T (.waitCond n) c () c
  | waitHandle (c : Ctx) (h : ℕ) (res : Option McpResponse) (hgot : c.Got h res) :
      RctxStep T (.waitHandle h) c res c
  | resAny (c : Ctx) (h : ℕ) :
      RctxStep T (.resAny h) c (((c.queue h).bind Queued.got).bind id) c
  | observe (c : Ctx) (keyPrefix op outcome : Bytes) :
      RctxStep T (.observe keyPrefix op outcome) c () { c with counted := c.counted ++ [observe keyPrefix op outcome] }
  | merge (c : Ctx) (name : Bytes) (entries : List LuaEntry) (keyPrefix : Bytes) (table : WasmTable)
      (htable : T table) :
      RctxStep T (.merge name entries keyPrefix) c (nativeMerge table name entries keyPrefix).1
        { c with counted := c.counted ++ (nativeMerge table name entries keyPrefix).2 }

/-- A request that is out: a pool answers it, the answer arrives, or the wait for it ends. -/
structure Queued.Later (q q' : Queued) : Prop where
  req : q'.req = q.req
  done : ∀ answer, q.done = some answer → q'.done = some answer
  got : ∀ res, q.got = some res → q'.got = some res

/-- What happens to a context while its handler waits. -/
structure Arrives (c c' : Ctx) : Prop where
  queue : ∀ h, (c.queue h = none ∧ c'.queue h = none) ∨
    ∃ q q', c.queue h = some q ∧ c'.queue h = some q' ∧ q.Later q'
  counted : c'.counted = c.counted

/-! ### The handlers -/

/-- Queue a request on each of the handles. -/
def enqueueEach (f : ℕ → McpRequest) : List ℕ → Prog Rctx Unit
  | [] => pure ()
  | h :: hs => do
      Prog.ask (S := Rctx) (.enqueue h (f h))
      enqueueEach f hs

/-- `rctx:enqueue(r, handles)`. -/
def broadcast (r : McpRequest) (n : ℕ) : Prog Rctx Unit :=
  enqueueEach (fun h => if h = 0 then r else { r with value := none }) (List.range n)

/-- `fanout_write`: the line and the body of the request, once more for each handle. -/
def fanoutWrite (r : McpRequest) (n : ℕ) : Prog Rctx Unit := enqueueEach (fun _ => r) (List.range n)

/-- The loop that fills `row`. -/
def collectRow : List ℕ → Prog Rctx (List (Option McpResponse))
  | [] => pure []
  | h :: hs => do
      let res ← Prog.ask (S := Rctx) (.resAny h)
      let row ← collectRow hs
      pure (res :: row)

/-- The loop of `reduce_write_all`. -/
def reduceLoop : List ℕ → Option WriteResponse × ℤ → Prog Rctx (Option WriteResponse × ℤ)
  | [], acc => pure acc
  | h :: hs, acc => do
      let res ← Prog.ask (S := Rctx) (.resAny h)
      reduceLoop hs (reduceStep acc (res.map McpResponse.write))

/-- The request as it is sent to the pools of a read. -/
def McpRequest.withFlags (r : McpRequest) (flags : Bytes) : McpRequest := flags.foldl McpRequest.flagAdd r

/-- The answer of a read whose merge has returned; what `merge` raises ends the coroutine. -/
def mergeAnswer (entries : List LuaEntry) : Except NativeError MergeResult → Answer
  | .error e => .raised (.native e)
  | .ok result => .read (replyFor entries result)

/-- The coroutine of `make_read_handler`. -/
def readHandlerProg (ks : Keyspace) (flags : Bytes) (r : McpRequest) : Prog Rctx Answer :=
  if 35 ∈ r.key then do
    Prog.ask (S := Rctx) (.observe ks.keyPrefix (ascii "read") (ascii "error"))
    pure (.read (.text multikeyUnsupported))
  else do
    broadcast (r.withFlags flags) ks.read.length
    Prog.ask (S := Rctx) (.waitCond ks.read.length)
    let row ← collectRow (List.range ks.read.length)
    let entries := build r.key ks.read (row.map fun res => res.map McpResponse.read)
    let result ← Prog.ask (S := Rctx) (.merge ks.mergeName entries ks.keyPrefix)
    pure (mergeAnswer entries result)

/-- The metric and the answer of a write. -/
def countWriteProg (keyPrefix : Bytes) (answer : Answer) (rank : ℤ) : Prog Rctx Answer :=
  match writeOutcome rank with
  | some outcome => do
      Prog.ask (S := Rctx) (.observe keyPrefix (ascii "write") outcome)
      pure answer
  | none => pure (.raised .badOutcome)

/-- The coroutines of `make_write_handler`. -/
def writeHandlerProg (ks : Keyspace) (r : McpRequest) : Prog Rctx Answer := do
  fanoutWrite r ks.write.length
  if ks.writePolicy = ascii "first" then do
    let res ← Prog.ask (S := Rctx) (.waitHandle 0)
    countWriteProg ks.keyPrefix (.write (res.map McpResponse.write)) (writeRank (res.map McpResponse.write))
  else do
    Prog.ask (S := Rctx) (.waitCond ks.write.length)
    match ← reduceLoop (List.range ks.write.length) (none, -1) with
    | (some res, rank) => countWriteProg ks.keyPrefix (.write (some res)) rank
    | (none, _) => countWriteProg ks.keyPrefix (.text noBackends) 3

/-- The handler of a route; `flags` are those the merge of the keyspace asks for. -/
def serve (route : Route) (flags : Bytes) (r : McpRequest) : Prog Rctx Answer :=
  match route with
  | .constant keyPrefix op outcome msg => do
      Prog.ask (S := Rctx) (.observe keyPrefix op outcome)
      pure (.text msg)
  | .keyspace ks => if r.cmd = .mg then readHandlerProg ks flags r else writeHandlerProg ks r

/-! ### What is asked and what is heard -/

/-- The pool of each handle, with what it is asked. -/
def asks (route : Route) (flags : Bytes) (r : McpRequest) : List (Bytes × McpRequest) :=
  match route with
  | .constant _ _ _ _ => []
  | .keyspace ks =>
      if r.cmd = .mg then
        if 35 ∈ r.key then []
        else ks.read.mapIdx fun j p =>
          (p, if j = 0 then r.withFlags flags else { r.withFlags flags with value := none })
      else ks.write.map fun p => (p, r)

/-- The number of responses that the answer is made of. -/
def waits (route : Route) (r : McpRequest) : ℕ :=
  match route with
  | .constant _ _ _ _ => 0
  | .keyspace ks =>
      if r.cmd = .mg then if 35 ∈ r.key then 0 else ks.read.length
      else if ks.writePolicy = ascii "first" then 1 else ks.write.length

/-- The answer of `Routes` for these responses. -/
def answerFor (table : WasmTable) (route : Route) (r : McpRequest) (row : List (Option McpResponse)) :
    Answer × List RequestLabels :=
  match route with
  | .constant keyPrefix op outcome msg => (.text msg, [observe keyPrefix op outcome])
  | .keyspace ks =>
      if r.cmd = .mg then
        match readRoute table ks r.key (row.map fun res => res.map McpResponse.read) with
        | (.ok reply, log) => (.read reply, log)
        | (.error e, log) => (.raised (.native e), log)
      else writeRoute ks (row.map fun res => res.map McpResponse.write)

/-- The responses of the first handles. -/
def Ctx.Heard (c : Ctx) (n : ℕ) (row : List (Option McpResponse)) : Prop :=
  List.Forall₂ c.Got (List.range n) row

/-- The handles of `hs` have been asked, and no others. -/
structure Asked (f : ℕ → McpRequest) (hs : List ℕ) (c : Ctx) : Prop where
  asked : ∀ h ∈ hs, ∃ q, c.queue h = some q ∧ q.req = f h
  others : ∀ h, h ∉ hs → c.queue h = none

/-- A handle is asked what is meant for it, and only once. -/
def Once (f : ℕ → McpRequest) (n : ℕ) (op : RctxOp) (c _c' : Ctx) : Prop :=
  ∀ h r, op = .enqueue h r → c.queue h = none ∧ h < n ∧ r = f h

section contexts
variable {T : WasmTable → Prop} {c c' c'' : Ctx} {f : ℕ → McpRequest} {hs : List ℕ} {n : ℕ}

theorem Queued.Later.refl (q : Queued) : q.Later q := ⟨rfl, fun _ => id, fun _ => id⟩

theorem Queued.Later.trans {q q' q'' : Queued} (h : q.Later q') (h' : q'.Later q'') : q.Later q'' :=
  ⟨h'.req.trans h.req, fun res hres => h'.done res (h.done res hres), fun res hres => h'.got res (h.got res hres)⟩

theorem Arrives.refl (c : Ctx) : Arrives c c := by
  refine ⟨fun h => ?_, rfl⟩
  cases hq : c.queue h with
  | none => exact Or.inl ⟨rfl, rfl⟩
  | some q => exact Or.inr ⟨q, q, rfl, rfl, .refl q⟩

theorem Arrives.trans (h : Arrives c c') (h' : Arrives c' c'') : Arrives c c'' := by
  refine ⟨fun i => ?_, h'.counted.trans h.counted⟩
  rcases h.queue i with ⟨hnone, hnone'⟩ | ⟨q, q', hq, hq', hlater⟩
  · rcases h'.queue i with ⟨-, hnone''⟩ | ⟨q, -, hq, -⟩
    · exact Or.inl ⟨hnone, hnone''⟩
    · rw [hnone'] at hq
      cases hq
  · rcases h'.queue i with ⟨hnone, -⟩ | ⟨p, q'', hp, hq'', hlater'⟩
    · rw [hq'] at hnone
      cases hnone
    · obtain rfl : q' = p := Option.some.inj (hq'.symm.trans hp)
      exact Or.inr ⟨q, q'', hq, hq'', hlater.trans hlater'⟩

theorem Arrives.got (h : Arrives c c') {i : ℕ} {res : Option McpResponse} (hgot : c.Got i res) : c'.Got i res := by
  obtain ⟨q, hq, hres⟩ := hgot
  rcases h.queue i with ⟨hnone, -⟩ | ⟨p, q', hp, hq', hlater⟩
  · rw [hq] at hnone
    cases hnone
  · obtain rfl : q = p := Option.some.inj (hq.symm.trans hp)
    exact ⟨q', hq', hlater.got res hres⟩

theorem Arrives.heard (h : Arrives c c') {row : List (Option McpResponse)} (hrow : List.Forall₂ c.Got hs row) :
    List.Forall₂ c'.Got hs row :=
  hrow.imp fun _ _ => h.got

theorem Asked.arrives (h : Asked f hs c) (harr : Arrives c c') : Asked f hs c' := by
  refine ⟨?_, ?_⟩
  · intro i hi
    obtain ⟨q, hq, hreq⟩ := h.asked i hi
    rcases harr.queue i with ⟨hnone, -⟩ | ⟨p, q', hp, hq', hlater⟩
    · rw [hq] at hnone
      cases hnone
    · obtain rfl : q = p := Option.some.inj (hq.symm.trans hp)
      exact ⟨q', hq', hlater.req.trans hreq⟩
  · intro i hi
    rcases harr.queue i with ⟨-, hnone⟩ | ⟨q, -, hq, -⟩
    · exact hnone
    · rw [h.others i hi] at hq
      cases hq

/-- All have answered that were asked. -/
theorem Asked.all_got (h : Asked f (List.range n) c) (hn : c.Enough n) : ∀ i < n, ∃ res, c.Got i res := by
  intro i hi
  rcases hn with ⟨hs, hnodup, hlen, hgot⟩ | hall
  · -- `n` different handles out of `n` are all of them
    have hsub : hs ⊆ List.range n := by
      intro j hj
      by_contra hnot
      obtain ⟨res, q, hq, -⟩ := hgot j hj
      rw [h.others j hnot] at hq
      cases hq
    have hperm : hs.Perm (List.range n) := by
      apply (List.subperm_of_subset hnodup hsub).perm_of_length_le
      rw [List.length_range, hlen]
    exact hgot i (hperm.mem_iff.mpr (List.mem_range.mpr hi))
  · obtain ⟨q, hq, -⟩ := h.asked i (List.mem_range.mpr hi)
    obtain ⟨res, hres⟩ := hall i q hq
    exact ⟨res, q, hq, hres⟩

/-! ### The handlers answer as `Routes` does -/

theorem enqueueEach_withstands (hn : ∀ h ∈ hs, h < n) : ∀ (todo earlier : List ℕ) (c : Ctx), earlier ++ todo = hs →
    hs.Nodup → Asked f earlier c → (enqueueEach f todo).Withstands (RctxStep T) Arrives (Once f n)
      (fun _ c' => Asked f hs c' ∧ c'.counted = c.counted) c
  | [], earlier, c, heq, _, hc => by
      rw [List.append_nil] at heq
      subst heq
      exact fun c' harr => ⟨hc.arrives harr, harr.counted⟩
  | h :: todo, earlier, c, heq, hnodup, hc => by
      intro c₁ harr _ c₂ hstep
      have hc₁ := hc.arrives harr
      cases hstep
      have hfresh : h ∉ earlier := by
        rw [← heq] at hnodup
        exact fun hmem => (List.nodup_append.mp hnodup).2.2 h hmem h List.mem_cons_self rfl
      refine ⟨?_, ?_⟩
      · rintro h' r' ⟨⟩
        exact ⟨hc₁.others h hfresh, hn h (heq ▸ by simp), rfl⟩
      · have hasked : Asked f (earlier ++ [h])
            { c₁ with queue := Function.update c₁.queue h (some ⟨f h, none, none⟩) } := by
          refine ⟨?_, ?_⟩
          · intro i hi
            by_cases hih : i = h
            · subst hih
              exact ⟨_, Function.update_self .., rfl⟩
            · have hmem : i ∈ earlier := by simpa [hih] using hi
              obtain ⟨q, hq, hreq⟩ := hc₁.asked i hmem
              exact ⟨q, (Function.update_of_ne hih _ _).trans hq, hreq⟩
          · intro i hi
            rw [List.mem_append, List.mem_singleton, not_or] at hi
            exact (Function.update_of_ne hi.2 _ _).trans (hc₁.others i hi.1)
        apply (enqueueEach_withstands hn todo (earlier ++ [h]) _ (by simpa using heq) hnodup hasked).mono
        rintro _ c' ⟨hall, hcounted⟩
        exact ⟨hall, hcounted.trans harr.counted⟩

/-- Every handle is asked, and then all have answered. -/
theorem asked_and_waited (hempty : ∀ h, c.queue h = none) {k : Prog Rctx Answer} {Q : Answer → Ctx → Prop}
    (hk : ∀ c', Asked f (List.range n) c' → (∀ i < n, ∃ res, c'.Got i res) → c'.counted = c.counted →
      k.Withstands (RctxStep T) Arrives (Once f n) Q c') :
    (enqueueEach f (List.range n) >>= fun _ => Prog.ask (S := Rctx) (.waitCond n) >>= fun _ => k).Withstands (RctxStep T)
      Arrives (Once f n) Q c := by
  have hnone : Asked f [] c := ⟨fun h hh => absurd hh List.not_mem_nil, fun h _ => hempty h⟩
  apply Prog.Withstands.seq .refl
    (enqueueEach_withstands (fun h => List.mem_range.mp) (List.range n) [] c rfl List.nodup_range hnone)
  rintro _ c₁ ⟨hasked, hcounted⟩ c₂ harr _ c₃ hstep
  cases hstep with
  | waitCond _ _ hn =>
      refine ⟨fun _ _ h => (by cases h), ?_⟩
      have hasked' := hasked.arrives harr
      exact hk c₂ hasked' (hasked'.all_got hn) (harr.counted.trans hcounted)

/-- What `res_any` returns of a handle that has answered. -/
theorem Ctx.Got.resAny {i : ℕ} {res : Option McpResponse} (h : c.Got i res) :
    ((c.queue i).bind Queued.got).bind id = res := by
  obtain ⟨q, hq, hres⟩ := h
  rw [hq, Option.bind_some, hres]
  rfl

theorem collectRow_withstands : ∀ (hs : List ℕ) (c : Ctx), (∀ h ∈ hs, ∃ res, c.Got h res) →
    (collectRow hs).Withstands (RctxStep T) Arrives (Once f n)
      (fun row c' => List.Forall₂ c'.Got hs row ∧ Arrives c c') c
  | [], c, _ => fun c' harr => ⟨.nil, harr⟩
  | h :: hs, c, hgot => by
      obtain ⟨⟨res, hres⟩, hgot'⟩ := List.forall_mem_cons.mp hgot
      intro c₁ harr a c₂ hstep
      cases hstep
      refine ⟨fun _ _ h => (by cases h), ?_⟩
      rw [(harr.got hres).resAny]
      have hall : ∀ i ∈ hs, ∃ res, c₁.Got i res := by
        intro i hi
        obtain ⟨res', hres'⟩ := hgot' i hi
        exact ⟨res', harr.got hres'⟩
      apply Prog.Withstands.seq .refl (collectRow_withstands hs c₁ hall)
      rintro row c₂ ⟨hrow, harr₂⟩ c₃ harr₃
      have hlater := harr.trans (harr₂.trans harr₃)
      exact ⟨.cons (hlater.got hres) (harr₃.heard hrow), hlater⟩

theorem reduceLoop_withstands : ∀ (hs : List ℕ) (acc : Option WriteResponse × ℤ) (c : Ctx),
    (∀ h ∈ hs, ∃ res, c.Got h res) → (reduceLoop hs acc).Withstands (RctxStep T) Arrives (Once f n)
      (fun acc' c' => ∃ row, List.Forall₂ c'.Got hs row ∧
        acc' = (row.map fun res => res.map McpResponse.write).foldl reduceStep acc ∧ Arrives c c') c
  | [], acc, c, _ => fun c' harr => ⟨[], .nil, rfl, harr⟩
  | h :: hs, acc, c, hgot => by
      obtain ⟨⟨res, hres⟩, hgot'⟩ := List.forall_mem_cons.mp hgot
      intro c₁ harr a c₂ hstep
      cases hstep
      refine ⟨fun _ _ h => (by cases h), ?_⟩
      rw [(harr.got hres).resAny]
      have hall : ∀ i ∈ hs, ∃ res, c₁.Got i res := by
        intro i hi
        obtain ⟨res', hres'⟩ := hgot' i hi
        exact ⟨res', harr.got hres'⟩
      apply (reduceLoop_withstands hs _ c₁ hall).mono
      rintro acc' c' ⟨row, hrow, hacc, harr'⟩
      have hlater := harr.trans harr'
      exact ⟨res :: row, .cons (hlater.got hres) hrow, hacc, hlater⟩

/-- A handler that counts once and is done. -/
theorem observe_withstands {keyPrefix op outcome : Bytes} {answer : Answer} {Q : Answer → Ctx → Prop}
    (hQ : ∀ c', c'.counted = c.counted ++ [observe keyPrefix op outcome] →
      (∀ hs row, List.Forall₂ c.Got hs row → List.Forall₂ c'.Got hs row) → Q answer c') :
    (Prog.ask (S := Rctx) (.observe keyPrefix op outcome) >>= fun _ => (pure answer : Prog Rctx Answer)).Withstands
      (RctxStep T) Arrives (Once f n) Q c := by
  intro c₁ harr _ c₂ hstep
  cases hstep
  refine ⟨fun _ _ h => (by cases h), ?_⟩
  intro c' harr'
  apply hQ c'
  · rw [harr'.counted, harr.counted]
  · intro hs row hrow
    exact harr'.heard (harr.heard hrow)

theorem countWriteProg_withstands {keyPrefix : Bytes} {answer : Answer} {rank : ℤ} {Q : Answer → Ctx → Prop}
    (hempty : c.counted = [])
    (hQ : ∀ a c', (a, c'.counted) = countWrite keyPrefix answer rank →
      (∀ hs row, List.Forall₂ c.Got hs row → List.Forall₂ c'.Got hs row) → Q a c') :
    (countWriteProg keyPrefix answer rank).Withstands (RctxStep T) Arrives (Once f n) Q c := by
  unfold countWriteProg
  unfold countWrite at hQ
  cases ho : writeOutcome rank with
  | none =>
      intro c' harr
      apply hQ
      · rw [ho, harr.counted, hempty]
      · exact fun hs row => harr.heard
  | some outcome =>
      apply observe_withstands
      intro c' hcounted hheard
      apply hQ _ _ _ hheard
      rw [ho, hcounted, hempty]
      rfl

end contexts

section handlers
variable {T : WasmTable → Prop} {c : Ctx} {ks : Keyspace} {flags : Bytes} {r : McpRequest}

/-- What is asked of the handle. -/
def askOf (route : Route) (flags : Bytes) (r : McpRequest) (h : ℕ) : McpRequest :=
  (((asks route flags r)[h]?).map Prod.snd).getD r

theorem enqueueEach_congr {f g : ℕ → McpRequest} : ∀ {hs : List ℕ}, (∀ h ∈ hs, f h = g h) →
    enqueueEach f hs = enqueueEach g hs
  | [], _ => rfl
  | h :: hs, heq => by
      obtain ⟨hh, hrest⟩ := List.forall_mem_cons.mp heq
      unfold enqueueEach
      rw [hh, enqueueEach_congr hrest]

theorem broadcast_eq (hcmd : r.cmd = .mg) (hkey : 35 ∉ r.key) : broadcast (r.withFlags flags) ks.read.length =
    enqueueEach (askOf (.keyspace ks) flags r) (List.range ks.read.length) := by
  apply enqueueEach_congr
  intro h hh
  have hlt : h < ks.read.length := List.mem_range.mp hh
  simp [askOf, asks, hcmd, hkey, hlt]

theorem fanoutWrite_eq (hcmd : r.cmd ≠ .mg) : fanoutWrite r ks.write.length =
    enqueueEach (askOf (.keyspace ks) flags r) (List.range ks.write.length) := by
  apply enqueueEach_congr
  intro h hh
  have hlt : h < ks.write.length := List.mem_range.mp hh
  simp [askOf, asks, hcmd, hlt]

theorem answerFor_read (hcmd : r.cmd = .mg) (hkey : 35 ∉ r.key) (table : WasmTable) (row : List (Option McpResponse)) :
    let entries := build r.key ks.read (row.map fun res => res.map McpResponse.read)
    let merged := nativeMerge table ks.mergeName entries ks.keyPrefix
    answerFor table (.keyspace ks) r row = (mergeAnswer entries merged.1, merged.2) := by
  simp only [answerFor, hcmd, if_true, readRoute, hkey, if_false]
  rcases nativeMerge table ks.mergeName _ ks.keyPrefix with ⟨e | result, log⟩ <;> rfl

theorem readHandlerProg_withstands (hT : ∃ table, T table) (hcmd : r.cmd = .mg) (hempty : ∀ h, c.queue h = none)
    (hcounted : c.counted = []) :
    (readHandlerProg ks flags r).Withstands (RctxStep T) Arrives
      (Once (askOf (.keyspace ks) flags r) (asks (.keyspace ks) flags r).length)
      (fun a c' => ∃ table row, T table ∧ c'.Heard (waits (.keyspace ks) r) row ∧
        (a, c'.counted) = answerFor table (.keyspace ks) r row) c := by
  unfold readHandlerProg
  by_cases hkey : 35 ∈ r.key
  · rw [if_pos hkey]
    apply observe_withstands
    intro c' hcounted' _
    obtain ⟨table, htable⟩ := hT
    refine ⟨table, [], htable, ?_, ?_⟩
    · simp only [waits, hcmd, hkey, if_true]
      exact .nil
    · simp only [answerFor, hcmd, if_true, readRoute, hkey, hcounted', hcounted]
      rfl
  · have hn : (asks (.keyspace ks) flags r).length = ks.read.length := by simp [asks, hcmd, hkey]
    have hwaits : waits (.keyspace ks) r = ks.read.length := by simp [waits, hcmd, hkey]
    rw [if_neg hkey, hn, hwaits, broadcast_eq hcmd hkey]
    apply asked_and_waited hempty
    intro c₁ _ hgot hcounted₁
    apply Prog.Withstands.seq .refl
      (collectRow_withstands (List.range ks.read.length) c₁ fun h hh => hgot h (List.mem_range.mp hh))
    rintro row c₂ ⟨hrow, harr₂⟩ c₃ harr₃ a c₄ hstep
    cases hstep with
    | merge _ _ _ _ table htable =>
        refine ⟨fun _ _ h => (by cases h), ?_⟩
        intro c₅ harr₅
        have hnone : c₃.counted = [] := by rw [harr₃.counted, harr₂.counted, hcounted₁, hcounted]
        refine ⟨table, row, htable, ?_, ?_⟩
        · exact harr₅.heard (harr₃.heard hrow)
        · rw [answerFor_read hcmd hkey, harr₅.counted, hnone]
          rfl

/-- The row of a write that has all its responses. -/
theorem writeRow_eq {row : List (Option WriteResponse)} (hlen : row.length = ks.write.length) :
    (ks.write.mapIdx fun j _ => row[j]?.getD none) = row := by
  apply List.ext_getElem
  · simp [hlen]
  · intro i hi hi'
    simp [hi']

theorem writeHandlerProg_withstands (hcmd : r.cmd ≠ .mg) (hempty : ∀ h, c.queue h = none) (hcounted : c.counted = []) :
    (writeHandlerProg ks r).Withstands (RctxStep T) Arrives
      (Once (askOf (.keyspace ks) flags r) (asks (.keyspace ks) flags r).length)
      (fun a c' => ∃ row, c'.Heard (waits (.keyspace ks) r) row ∧
        (a, c'.counted) = writeRoute ks (row.map fun res => res.map McpResponse.write)) c := by
  have hn : (asks (.keyspace ks) flags r).length = ks.write.length := by simp [asks, hcmd]
  unfold writeHandlerProg
  rw [hn, fanoutWrite_eq hcmd]
  by_cases hfirst : ks.writePolicy = ascii "first"
  · have hwaits : waits (.keyspace ks) r = 1 := by simp [waits, hcmd, hfirst]
    rw [if_pos hfirst, hwaits]
    have hnone : Asked (askOf (.keyspace ks) flags r) [] c :=
      ⟨fun h hh => absurd hh List.not_mem_nil, fun h _ => hempty h⟩
    apply Prog.Withstands.seq .refl (enqueueEach_withstands (fun h => List.mem_range.mp) _ [] c rfl List.nodup_range hnone)
    rintro _ c₁ ⟨hasked, hcounted₁⟩ c₂ harr₂ res c₃ hstep
    cases hstep with
    | waitHandle _ _ _ hgot =>
        refine ⟨fun _ _ h => (by cases h), ?_⟩
        apply countWriteProg_withstands
        · rw [harr₂.counted, hcounted₁, hcounted]
        intro a c' ha hheard
        refine ⟨[res], hheard _ _ (.cons hgot .nil), ?_⟩
        obtain ⟨p, ps, hps⟩ := List.exists_cons_of_ne_nil ks.write_ne_nil
        simp [writeRoute, hfirst, ha, hps, List.mapIdx_cons]
  · have hwaits : waits (.keyspace ks) r = ks.write.length := by simp [waits, hcmd, hfirst]
    rw [if_neg hfirst, hwaits]
    apply asked_and_waited hempty
    intro c₁ _ hgot hcounted₁
    apply Prog.Withstands.seq .refl
      (reduceLoop_withstands (List.range ks.write.length) (none, -1) c₁ fun h hh => hgot h (List.mem_range.mp hh))
    rintro ⟨worst, rank⟩ c₂ ⟨row, hrow, hacc, harr₂⟩
    have hlen : (row.map fun res => res.map McpResponse.write).length = ks.write.length := by
      simpa using hrow.length_eq.symm
    have hreduce : writeRoute ks (row.map fun res => res.map McpResponse.write) =
        match worst with
        | some res => countWrite ks.keyPrefix (.write (some res)) rank
        | none => countWrite ks.keyPrefix (.text noBackends) 3 := by
      simp only [writeRoute, if_neg hfirst, writeRow_eq hlen, reduceWriteAll, ← hacc]
      cases worst <;> rfl
    have hnone : c₂.counted = [] := by rw [harr₂.counted, hcounted₁, hcounted]
    cases worst with
    | some res =>
        apply countWriteProg_withstands hnone
        intro a c' ha hheard
        exact ⟨row, hheard _ _ hrow, ha.trans hreduce.symm⟩
    | none =>
        apply countWriteProg_withstands hnone
        intro a c' ha hheard
        exact ⟨row, hheard _ _ hrow, ha.trans hreduce.symm⟩

/-- However the responses arrive, a request is answered, and counted, as `Routes` says for the responses
that have arrived and a registry that there is, and every pool of its route is asked once. -/
theorem serve_withstands {route : Route} (hT : ∃ table, T table) (hempty : ∀ h, c.queue h = none)
    (hcounted : c.counted = []) :
    (serve route flags r).Withstands (RctxStep T) Arrives (Once (askOf route flags r) (asks route flags r).length)
      (fun a c' => ∃ table row, T table ∧ c'.Heard (waits route r) row ∧
        (a, c'.counted) = answerFor table route r row) c := by
  cases route with
  | constant keyPrefix op outcome msg =>
      apply observe_withstands
      intro c' hcounted' _
      obtain ⟨table, htable⟩ := hT
      refine ⟨table, [], htable, .nil, ?_⟩
      rw [hcounted', hcounted]
      rfl
  | keyspace ks =>
      unfold serve
      by_cases hcmd : r.cmd = .mg
      · simp only [hcmd, if_true]
        exact readHandlerProg_withstands hT hcmd hempty hcounted
      · simp only [hcmd, if_false]
        apply (writeHandlerProg_withstands hcmd hempty hcounted).mono
        rintro a c' ⟨row, hheard, ha⟩
        obtain ⟨table, htable⟩ := hT
        refine ⟨table, row, htable, hheard, ?_⟩
        rw [ha, answerFor, if_neg hcmd]

end handlers

end McGateway.Read
