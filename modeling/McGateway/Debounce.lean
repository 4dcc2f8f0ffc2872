import McGateway.Watcher

/-! # What the debounce loop acts on (the thread of `spawn`)

A notification says what happened and to which paths; the loop looks at the paths only.  Backends
also report accesses: under inotify the reads of a rescan and of a reload come back as
`Access(Open)` notifications of the very paths that the loop waits for.

`acts_only_on_changes_iff` says for which notifications the loop acts on changes only, however it
splits them into batches; `never_quiescent` says what the opens lead to: once something is due, the
process keeps itself busy. -/

namespace McGateway.Watcher

open McGateway.Core
open Config (Chunk)
open Lua (LengthOp)

/-! ### Notifications and batches -/

inductive AccessKind where
  | any
  | read
  | opened
  | closed
  | other
deriving DecidableEq, Repr

/-- The event kinds of `notify`; a rename is one of its modifications. -/
inductive EventKind where
  | any
  | access (kind : AccessKind)
  | create
  | modify
  | rename
  | remove
  | other
deriving DecidableEq, Repr

structure Notification where
  kind : EventKind
  paths : Event
deriving DecidableEq, Repr

inductive ReloadTrigger where
  | config
  | udfSwap
deriving DecidableEq, Repr

inductive Action where
  | rescan
  | reload (trigger : ReloadTrigger)
deriving DecidableEq, Repr

/-- The flags of a batch, as the loop collects them. -/
def collect (flags : Bool × Bool) (ev : Notification) : Bool × Bool :=
  (flags.1 || touchesConfig ev.paths, flags.2 || touchesUdf ev.paths)

/-- What the loop does when it closes the batch. -/
def act (configDirty udfDirty : Bool) : List Action :=
  (if udfDirty then [.rescan] else []) ++
    if configDirty || udfDirty then [.reload (if udfDirty then .udfSwap else .config)] else []

def flagsOf (batch : List Notification) : Bool × Bool := batch.foldl collect (false, false)

def actions (batch : List Notification) : List Action := act (flagsOf batch).1 (flagsOf batch).2

/-! ### The flags -/

def Notification.touches (ev : Notification) : Bool := touchesConfig ev.paths || touchesUdf ev.paths

theorem foldl_collect (batch : List Notification) (flags : Bool × Bool) :
    batch.foldl collect flags =
      (flags.1 || batch.any fun ev => touchesConfig ev.paths,
        flags.2 || batch.any fun ev => touchesUdf ev.paths) := by
  induction batch generalizing flags with
  | nil => simp
  | cons ev batch ih =>
      rw [List.foldl_cons, ih]
      simp [collect, Bool.or_assoc]

theorem flagsOf_eq (batch : List Notification) :
    flagsOf batch = (batch.any fun ev => touchesConfig ev.paths, batch.any fun ev => touchesUdf ev.paths) := by
  rw [flagsOf, foldl_collect]
  simp

theorem act_eq_nil {c u : Bool} : act c u = [] ↔ (c || u) = false := by
  cases c <;> cases u <;> simp [act]

theorem actions_ne_nil {batch : List Notification} :
    actions batch ≠ [] ↔ ∃ ev ∈ batch, ev.touches = true := by
  rw [actions, ne_eq, act_eq_nil, flagsOf_eq, Bool.not_eq_false, Bool.or_eq_true, List.any_eq_true,
    List.any_eq_true]
  simp only [Notification.touches, Bool.or_eq_true]
  constructor
  · intro h
    cases h with
    | inl h =>
        obtain ⟨ev, hmem, hc⟩ := h
        exact ⟨ev, hmem, Or.inl hc⟩
    | inr h =>
        obtain ⟨ev, hmem, hu⟩ := h
        exact ⟨ev, hmem, Or.inr hu⟩
  · intro h
    obtain ⟨ev, hmem, h⟩ := h
    exact h.imp (fun hc => ⟨ev, hmem, hc⟩) fun hu => ⟨ev, hmem, hu⟩

section machine
variable {load : Bytes → Bytes → Option Merge} {loadfile : Option Bytes → Chunk} {L : LengthOp}

theorem absorb_run (m : Mount) (s : State) (q : List Event) :
    ∀ (batch : List Notification) (flags : Bool × Bool),
    Relation.ReflTransGen (GatewayStep load loadfile L m)
      { s with queue := batch.map Notification.paths ++ q, phase := .batch flags.1 flags.2 }
      { s with queue := q
               phase := .batch (batch.foldl collect flags).1 (batch.foldl collect flags).2 }
  | [], _ => .refl
  | ev :: batch, flags =>
      .head (.absorb _ flags.1 flags.2 ev.paths (batch.map Notification.paths ++ q) rfl rfl)
        (absorb_run m s q batch (collect flags ev))

/-- The thread collects a batch from its queue with these flags. -/
theorem collect_run (m : Mount) (s : State) (q : List Event) (ev : Notification)
    (batch : List Notification) :
    Relation.ReflTransGen (GatewayStep load loadfile L m)
      { s with queue := (ev :: batch).map Notification.paths ++ q, phase := .idle }
      { s with queue := q, phase := .batch (flagsOf (ev :: batch)).1 (flagsOf (ev :: batch)).2 } := by
  have hflags : flagsOf (ev :: batch) =
      batch.foldl collect (touchesConfig ev.paths, touchesUdf ev.paths) := by
    simp [flagsOf, collect]
  rw [hflags]
  exact .head (.receive _ ev.paths (batch.map Notification.paths ++ q) rfl rfl)
    (absorb_run m s q batch (touchesConfig ev.paths, touchesUdf ev.paths))

end machine

/-! ### Changes and accesses -/

/-- The notification reports a creation, modification, rename or removal. -/
def EventKind.isChange : EventKind → Bool
  | .create | .modify | .rename | .remove => true
  | _ => false

/-- However the loop splits the notifications into batches, it acts on a batch only if that holds
a change of the configuration file, a module or the UDF directory. -/
def ActsOnlyOnChanges (evs : List Notification) : Prop :=
  ∀ batches : List (List Notification), (∀ b ∈ batches, b ≠ []) → batches.flatten = evs →
    ∀ b ∈ batches, actions b ≠ [] → ∃ ev ∈ b, ev.touches = true ∧ ev.kind.isChange = true

/-- The loop acts only on changes exactly when every notification it looks at is one. -/
theorem acts_only_on_changes_iff (evs : List Notification) :
    ActsOnlyOnChanges evs ↔ ∀ ev ∈ evs, ev.touches = true → ev.kind.isChange = true := by
  constructor
  · intro h ev hev htouch
    -- the split with one notification in each batch
    have hsplit := h (evs.map fun e => [e]) (by simp) (by simp [← List.flatMap_def]) [ev]
      (List.mem_map.mpr ⟨ev, hev, rfl⟩) (actions_ne_nil.mpr ⟨ev, List.mem_singleton_self ev, htouch⟩)
    obtain ⟨e, he, -, hchange⟩ := hsplit
    rwa [List.mem_singleton.mp he] at hchange
  · intro h batches _ hflat b hb hact
    obtain ⟨ev, hev, htouch⟩ := actions_ne_nil.mp hact
    have hmem : ev ∈ evs := by
      rw [← hflat]
      exact List.mem_flatten.mpr ⟨b, hb, hev⟩
    exact ⟨ev, hev, htouch, h ev hmem htouch⟩

/-- The read of the configuration file by a reload leads to another reload. -/
theorem not_acts_only_on_changes_open :
    actions [⟨.access .opened, [.config]⟩] = [.reload .config] ∧
      ¬ActsOnlyOnChanges [⟨.access .opened, [.config]⟩] := by
  refine ⟨rfl, ?_⟩
  intro h
  obtain ⟨ev, hev, -, hchange⟩ := h [[⟨.access .opened, [.config]⟩]] (by simp) rfl _
    (List.mem_singleton_self _) (by decide)
  rw [List.mem_singleton.mp hev] at hchange
  cases hchange

/-! ### The process under a backend that reports opens -/

section feedback
variable (load : Bytes → Bytes → Option Merge) (loadfile : Option Bytes → Chunk) (L : LengthOp)

/-- A step of the process on a mount that nobody changes, where a read of a module or of the
configuration enqueues its notification. -/
inductive ReadingStep (m : Mount) : State → State → Prop where
  | visit (s : State) (file : Bytes) (todo : List Bytes) (out : WasmTable)
      (hphase : s.phase = .rescanning (file :: todo) out) :
      ReadingStep m s
        { s with queue := s.queue ++ [[.udfEntry file]]
                 phase := .rescanning todo (scanStep load out file (m.udf.lookup file)) }
  | reload (s : State) (hpending : s.pending = true) :
      ReadingStep m s
        { s with queue := s.queue ++ [[.config]]
                 pending := false
                 gateway := reload loadfile L m s }
  /-- A step that reads neither. -/
  | other (s s' : State) (hstep : GatewayStep load loadfile L m s s')
      (hvisit : ∀ file todo out, s.phase ≠ .rescanning (file :: todo) out)
      (hreload : s.pending = true → s'.pending = true) : ReadingStep m s s'

variable {load loadfile L}

/-- The notifications of the reads are among those the process may receive. -/
theorem ReadingStep.gateway {m : Mount} {s s' : State} (h : ReadingStep load loadfile L m s s') :
    Relation.ReflTransGen (GatewayStep load loadfile L m) s s' := by
  cases h with
  | visit file todo out hphase =>
      exact .tail (.single (.visit s file todo out hphase)) (.notify _ [.udfEntry file])
  | reload hpending => exact .tail (.single (.reload s hpending)) (.notify _ [.config])
  | other _ hstep hvisit hreload => exact .single hstep

/-- A step that leaves a requested reload alone leaves a due one due. -/
theorem GatewayStep.reloadDue {m : Mount} {s s' : State} (hstep : GatewayStep load loadfile L m s s')
    (hreload : s.pending = true → s'.pending = true) (h : ReloadDue s = true) :
    ReloadDue s' = true := by
  cases hstep with
  | receive ev q hphase hq | absorb c u ev q hphase hq =>
      simp only [ReloadDue, hphase, hq, Phase.reloadDue, List.any_cons, Bool.or_eq_true] at h ⊢
      tauto
  | closeRescan c todo hphase htodo => simp [ReloadDue, Phase.reloadDue]
  | closeConfig hphase => simp [ReloadDue, Phase.reloadDue]
  | closeClean hphase => simpa [ReloadDue, hphase, Phase.reloadDue] using h
  | visit file todo out hphase => simp [ReloadDue, Phase.reloadDue]
  | swap out hphase => simp [ReloadDue, Phase.reloadDue]
  | request hphase => simp [ReloadDue]
  | reload hpending => cases hreload hpending
  | notify ev => exact reloadDue_append ev h

theorem ReadingStep.reloadDue {m : Mount} {s s' : State} (hstep : ReadingStep load loadfile L m s s')
    (h : ReloadDue s = true) : ReloadDue s' = true := by
  cases hstep with
  | visit file todo out hphase => simp [ReloadDue, Phase.reloadDue]
  | reload hpending => simp [ReloadDue, touchesConfig]
  | other _ hstep hvisit hreload => exact hstep.reloadDue hreload h

/-- Once a reload is due, another one always is: the process never becomes quiescent, although
nothing on the mount changes. -/
theorem never_quiescent {m : Mount} {s s' : State}
    (hsteps : Relation.ReflTransGen (ReadingStep load loadfile L m) s s') (h : ReloadDue s = true) :
    ¬Quiescent s' := by
  have hdue : ReloadDue s' = true := by
    induction hsteps with
    | refl => exact h
    | tail _ hstep ih => exact hstep.reloadDue ih
  intro hq
  simp [ReloadDue, hq.queue, hq.phase, hq.pending, Phase.reloadDue] at hdue

end feedback

end McGateway.Watcher
