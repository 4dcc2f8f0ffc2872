import McGateway.WasmHost

/-! # Host buffers for guest data (`mcgw.log`, `decode_result`, `read_required_flags`)

Three places of the host copy bytes out of a guest's memory.  Each takes a pointer and a length from
the guest, allocates a buffer of that length, and then reads; the memory checks its bounds only at
the read.  The allocation is an operation of its own here (`HostOp.reserve`), so that its size can be
bounded; apart from that the decoding is that of `WasmHost`.

The log import truncates the length and the decoding refuses a length beyond the memory cap.
`readRequiredFlags`, which runs once when a module is loaded, does neither: the lengths are capped
for exactly those modules whose `mcgw_required_flags` states no length beyond the cap
(`lengths_capped_iff`). -/

namespace McGateway.Wasm

open McGateway.Core
open LinearMemory (ofLE)
open Bytes (validUtf8 fromUtf8Lossy)

def logMaxBytes : ℕ := 4096

/-! ### Operations -/

inductive LogLevel where
  | trace
  | debug
  | info
  | warn
  | error
deriving DecidableEq, Repr

inductive HostOp where
  | guest (op : GuestOp)
  /-- `mcgw_required_flags` -/
  | requiredFlags
  /-- `vec![0u8; len]` -/
  | reserve (len : ℕ)
  /-- `log::log!` -/
  | log (level : LogLevel) (message : Bytes)
deriving DecidableEq, Repr

@[reducible] def HostOp.Answer : HostOp → Type
  | .guest op => op.Answer
  | .requiredFlags => Except Fault UInt64
  | .reserve _ => Unit
  | .log _ _ => Unit

abbrev HostCalls : Interface := ⟨HostOp, HostOp.Answer⟩

abbrev Buffered := ExceptT HostError (Prog HostCalls)

/-- A program of guest calls. -/
def onGuest {α : Type} : Prog GuestCalls α → Prog HostCalls α
  | .ret a => .ret a
  | .call op k => .call (.guest op) fun r => onGuest (k r)

def onInstance {α : Type} (x : Host α) : Buffered α := ExceptT.mk (onGuest x.run)

/-- A read into a new buffer. -/
def readVec (offset len : ℕ) : Buffered Bytes := do
  ExceptT.mk (Prog.ask (S := HostCalls) (.reserve len) >>= fun _ => pure (.ok ()))
  onInstance (memoryRead offset len)

/-- What a module exports beside the functions that every module must have. -/
structure Exports where
  memory : Bool
  requiredFlags : Bool

/-! ### The log import -/

def logLevel (level : UInt32) : LogLevel :=
  if level = 0 then .trace
  else if level = 1 then .debug
  else if level = 2 then .info
  else if level = 3 then .warn
  else .error

/-- The import `mcgw.log`, with the budget that is left before and after it. -/
def logImport (exports : Exports) (budget : ℕ) (level ptr len : UInt32) : Prog HostCalls ℕ :=
  if !exports.memory then pure budget
  else do
    let len := min len.toNat logMaxBytes
    let _ ← Prog.ask (S := HostCalls) (.reserve len)
    let r ← Prog.ask (S := HostCalls) (.guest (.read ptr.toNat len))
    match r with
    | none => pure budget
    | some buf =>
        if budget = 0 then pure budget
        else do
          let _ ← Prog.ask (S := HostCalls) (.log (logLevel level) (fromUtf8Lossy buf))
          pure (budget - 1)

/-! ### Results -/

/-- `decode_result`, with its buffer. -/
def decodeResultBuffered (packed : UInt64) : Buffered MergeResult := decodeResultWith onInstance readVec packed

/-! ### Required flags -/

inductive FlagsError where
  | host (e : HostError)
  /-- `missing memory` -/
  | missingMemory
  /-- `required_flags not utf-8` -/
  | notUtf8
deriving DecidableEq, Repr

/-- The length that a packed answer states. -/
def statedLen (packed : UInt64) : UInt32 := (packed &&& 0xFFFFFFFF).toUInt32

/-- `read_required_flags`, once the guest has answered. -/
def readFlags (exports : Exports) (packed : UInt64) : ExceptT FlagsError (Prog HostCalls) Bytes :=
  if packed = 0 then pure []
  else if !exports.memory then throw .missingMemory
  else do
    let buf ← Prog.embed .host (readVec (packed >>> 32).toUInt32.toNat (statedLen packed).toNat)
    if validUtf8 buf then pure buf else throw .notUtf8

/-- `read_required_flags`. -/
def readRequiredFlags (exports : Exports) : ExceptT FlagsError (Prog HostCalls) Bytes :=
  if !exports.requiredFlags then pure []
  else do
    let packed ← ExceptT.mk (Prog.ask (S := HostCalls) .requiredFlags >>= fun r =>
      pure (r.mapError fun f => .host (.fault f)))
    readFlags exports packed

/-! ### Capped buffers -/

section
variable {α σ : Type}

/-- A guest: an answer to every call, in any state. -/
abbrev GuestModule (σ : Type) := (op : HostOp) → σ → op.Answer × σ

/-- The calls on a guest. -/
def GuestModule.effect (guest : GuestModule σ) : Effect HostCalls σ := fun op s r s' => guest op s = (r, s')

/-- A buffer has at most `cap` bytes. -/
def AtMost (cap : ℕ) (op : HostOp) (_ _ : σ) : Prop := ∀ len, op = .reserve len → len ≤ cap

/-- Every buffer of the program has at most `cap` bytes. -/
def Capped (guest : GuestModule σ) (cap : ℕ) (p : Prog HostCalls α) (s : σ) : Prop :=
  p.Guarantees guest.effect (AtMost cap) (fun _ _ => True) s

variable {guest : GuestModule σ} {cap : ℕ}

theorem guarantees_onGuest (p : Prog GuestCalls α) (s : σ) :
    (onGuest p).Guarantees guest.effect (AtMost cap) (fun _ _ => True) s := by
  induction p generalizing s with
  | ret a => trivial
  | call op k ih => exact fun r s' _ => ⟨fun len hlen => (nomatch hlen), ih r s'⟩

theorem onInstance_normally (x : Host α) (s : σ) :
    Prog.Normally guest.effect (AtMost cap) (fun _ _ => True) (onInstance x) s :=
  (guarantees_onGuest x.run s).mono fun _ _ _ _ _ => trivial

theorem onInstance_require_normally (ok : Bool) (err : HostError) (s : σ) :
    Prog.Normally guest.effect (AtMost cap) (fun _ _ => ok = true) (onInstance (require ok err)) s := by
  cases ok with
  | true => exact fun _ _ => rfl
  | false => exact fun _ h => (nomatch h)

theorem readVec_normally {offset len : ℕ} (h : len ≤ cap) (s : σ) :
    Prog.Normally guest.effect (AtMost cap) (fun _ _ => True) (readVec offset len) s := by
  refine Prog.Normally.bind (P := fun _ _ => True) ?_ fun _ s' _ => onInstance_normally _ s'
  intro r s' _
  refine ⟨?_, fun _ _ => trivial⟩
  intro len' hlen
  obtain rfl := HostOp.reserve.inj hlen
  exact h

theorem capped_logImport (exports : Exports) (budget : ℕ) (level ptr len : UInt32) (s : σ) :
    Capped guest logMaxBytes (logImport exports budget level ptr len) s := by
  unfold logImport
  by_cases hmemory : (!exports.memory) = true
  · rw [if_pos hmemory]
    trivial
  rw [if_neg hmemory]
  intro _ s₁ _
  refine ⟨?_, ?_⟩
  · intro len' hlen
    obtain rfl := HostOp.reserve.inj hlen
    exact min_le_right _ _
  intro r s₂ _
  refine ⟨fun len' hlen => (nomatch hlen), ?_⟩
  match r with
  | none => trivial
  | some buf =>
      by_cases hbudget : budget = 0
      · subst hbudget
        trivial
      · simp only [hbudget, if_false]
        exact fun _ s₃ _ => ⟨fun len' hlen => (nomatch hlen), trivial⟩

theorem capped_decodeResult (packed : UInt64) (s : σ) :
    Capped guest maxGuestMemoryBytes (decodeResultBuffered packed).run s := by
  unfold decodeResultBuffered decodeResultWith
  simp only
  split_ifs
  · trivial
  · trivial
  · unfold decodeSynthesizedWith
    refine (?_ : Prog.Normally guest.effect _ (fun _ _ => True) _ s).mono fun _ _ _ => trivial
    refine Prog.Normally.bind (onInstance_normally _ s) fun desc s₁ _ => ?_
    refine Prog.Normally.bind (onInstance_require_normally _ _ s₁) fun _ s₂ hlen => ?_
    refine Prog.Normally.bind (readVec_normally (of_decide_eq_true hlen) s₂) fun buf s₃ _ => ?_
    refine Prog.Normally.bind (onInstance_normally _ s₃) fun _ s₄ _ => ?_
    refine Prog.Normally.bind (onInstance_normally _ s₄) fun _ s₅ _ => ?_
    exact fun _ _ => trivial
  · trivial
  · trivial

theorem capped_readFlags_iff (exports : Exports) (packed : UInt64) (s : σ) :
    Capped guest cap (readFlags exports packed).run s ↔
      (packed ≠ 0 → exports.memory = true → (statedLen packed).toNat ≤ cap) := by
  unfold readFlags
  by_cases hzero : packed = 0
  · rw [if_pos hzero]
    exact ⟨fun _ hne => absurd hzero hne, fun _ => trivial⟩
  rw [if_neg hzero]
  cases hmemory : exports.memory with
  | false =>
      rw [if_pos (by decide)]
      exact ⟨fun _ _ h => (nomatch h), fun _ => trivial⟩
  | true =>
      rw [if_neg (by decide)]
      constructor
      · intro h _ _
        exact (h () (guest (.reserve (statedLen packed).toNat) s).2 rfl).1 _ rfl
      · intro h
        have hread := @readVec_normally σ guest cap (packed >>> 32).toUInt32.toNat _ (h hzero rfl) s
        refine Prog.Guarantees.bind (Prog.Guarantees.bind (hread.mono ?_))
        intro r s' _
        cases r with
        | error err => trivial
        | ok buf =>
            change (if validUtf8 buf = true then (pure buf : ExceptT FlagsError (Prog HostCalls) Bytes)
              else throw .notUtf8).run.Guarantees _ _ _ s'
            split_ifs
            · trivial
            · trivial

theorem capped_readRequiredFlags_iff (exports : Exports) :
    (∀ s, Capped guest cap (readRequiredFlags exports).run s) ↔
      (exports.requiredFlags = true → exports.memory = true →
        ∀ s packed, (guest .requiredFlags s).1 = .ok packed → (statedLen packed).toNat ≤ cap) := by
  unfold readRequiredFlags
  cases exports.requiredFlags with
  | false =>
      rw [if_pos (by decide)]
      exact ⟨fun _ h => (nomatch h), fun _ _ => trivial⟩
  | true =>
      rw [if_neg (by decide)]
      constructor
      · intro h _ hmemory s packed hanswer
        have hrest := (h s (.ok packed) (guest .requiredFlags s).2 (Prod.ext hanswer rfl)).2
        by_cases hzero : packed = 0
        · subst hzero
          exact Nat.zero_le cap
        · exact (capped_readFlags_iff exports packed _).mp hrest hzero hmemory
      · intro h s r s' hr
        refine ⟨fun len hlen => (nomatch hlen), ?_⟩
        cases r with
        | error f => trivial
        | ok packed =>
            have hanswer : (guest .requiredFlags s).1 = .ok packed := congrArg Prod.fst hr
            exact (capped_readFlags_iff exports packed s').mpr fun _ hmemory => h rfl hmemory s packed hanswer

/-- Every buffer that the host allocates for a length stated by the guest is capped: for log
messages, for results and for flags. -/
def LengthsCapped (guest : GuestModule σ) (exports : Exports) : Prop :=
  (∀ s budget level ptr len, Capped guest logMaxBytes (logImport exports budget level ptr len) s) ∧
  (∀ s packed, Capped guest maxGuestMemoryBytes (decodeResultBuffered packed).run s) ∧
  (∀ s, Capped guest maxGuestMemoryBytes (readRequiredFlags exports).run s)

/-- The buffers are capped for exactly those guests whose `mcgw_required_flags`, where it is exported
next to a memory, states no length beyond the memory cap. -/
theorem lengths_capped_iff (guest : GuestModule σ) (exports : Exports) :
    LengthsCapped guest exports ↔
      (exports.requiredFlags = true → exports.memory = true →
        ∀ s packed, (guest .requiredFlags s).1 = .ok packed → (statedLen packed).toNat ≤ maxGuestMemoryBytes) := by
  rw [← capped_readRequiredFlags_iff]
  constructor
  · intro h
    exact h.2.2
  · intro h
    exact ⟨fun s budget level ptr len => capped_logImport exports budget level ptr len s,
      fun s packed => capped_decodeResult packed s, h⟩

end

/-- A guest that answers `packed` when it is asked for its flags, and traps otherwise. -/
def statesFlags (packed : UInt64) : GuestModule Unit
  | .guest (.alloc _ _), s => (.error .trap, s)
  | .guest (.dealloc _ _ _), s => (.error .trap, s)
  | .guest (.merge _ _), s => (.error .trap, s)
  | .guest (.read _ _), s => (none, s)
  | .guest (.write _ _), s => (none, s)
  | .requiredFlags, s => (.ok packed, s)
  | .reserve _, s => ((), s)
  | .log _ _, s => ((), s)

/-- A module that states 4 GiB of flags makes the host allocate them when it is loaded. -/
theorem four_gigabytes_of_flags :
    ¬LengthsCapped (statesFlags 0xFFFFFFFF) ⟨true, true⟩ ∧
    ¬Capped (statesFlags 0xFFFFFFFF) (2 ^ 32 - 2) (readRequiredFlags ⟨true, true⟩).run () := by
  constructor
  · intro h
    have hlen := (capped_readRequiredFlags_iff ⟨true, true⟩).mp h.2.2 rfl rfl () 0xFFFFFFFF rfl
    revert hlen
    decide
  · intro h
    have hlen := (h _ _ rfl).2 _ _ rfl
    have hle := hlen.1 _ rfl
    revert hle
    decide

end McGateway.Wasm
