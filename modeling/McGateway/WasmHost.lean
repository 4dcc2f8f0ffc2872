import McGateway.LinearMemory
import McGateway.Merges
import McGateway.Programs

/-! # Merges in a guest: the host side (`mcgateway-wasm-host`)

`runWithPre` marshals the entries into the linear memory of a guest instance, calls the exported
`mcgw_merge`, decodes the packed result and releases what it must.  It is a program over the calls
the host can make on an instance (`GuestCalls`), from a fresh instance on; what the instance does
with them is left open here, so the same program can be run against a well-behaved guest or a
hostile one.

Pointers and lengths on the wire are 32-bit numbers, and sums of them wrap around as in a release
build; offsets handed to the memory are host-side numbers, and the memory checks its bounds. -/

namespace McGateway.Wasm

open McGateway.Core
open LinearMemory (toLE ofLE)

def entrySize : UInt32 := 48

def statusHit : UInt32 := 0
def statusMiss : UInt32 := 1
def statusError : UInt32 := 2

def resultTagMiss : UInt8 := 0
def resultTagWinner : UInt8 := 1
def resultTagSynthesized : UInt8 := 2
def resultTagGuestError : UInt8 := 0xFF

def maxGuestMemoryBytes : ℕ := 16 * 1024 * 1024

/-- The memory of an instance. -/
abbrev GuestMemory := LinearMemory.Memory maxGuestMemoryBytes

/-! ### The calls on an instance -/

/-- How a call into the guest can end early. -/
inductive Fault where
  | deadline
  | trap
deriving DecidableEq, Repr

inductive GuestOp where
  /-- `mcgw_alloc` -/
  | alloc (size align : UInt32)
  /-- `mcgw_dealloc` -/
  | dealloc (ptr size align : UInt32)
  /-- `mcgw_merge` -/
  | merge (ptr count : UInt32)
  /-- `Memory::read` -/
  | read (offset len : ℕ)
  /-- `Memory::write` -/
  | write (offset : ℕ) (bytes : Bytes)
deriving DecidableEq, Repr

@[reducible] def GuestOp.Answer : GuestOp → Type
  | .alloc _ _ => Except Fault UInt32
  | .dealloc _ _ _ => Except Fault Unit
  | .merge _ _ => Except Fault UInt64
  | .read _ _ => Option Bytes
  | .write _ _ => Option Unit

abbrev GuestCalls : Interface := ⟨GuestOp, GuestOp.Answer⟩

inductive HostError where
  /-- A wasmtime trap, deadlines included. -/
  | fault (f : Fault)
  /-- A `MemoryAccessError`. -/
  | memoryAccess
  /-- `too many entries for u32 count` -/
  | tooManyEntries
  /-- `entry array size overflow` -/
  | arrayTooLarge
  /-- `guest mcgw_alloc returned null` -/
  | allocNull
  /-- `key too large for u32` -/
  | keyTooLarge
  /-- `pool too large for u32` -/
  | poolTooLarge
  /-- `value too large for u32` -/
  | valueTooLarge
  /-- `line too large for u32` -/
  | lineTooLarge
  /-- `entry field total size overflow u32` -/
  | fieldsTooLarge
  /-- `guest synthesized payload length <len> exceeds guest memory cap` -/
  | payloadTooLarge (len : UInt32)
  /-- `guest returned error code <code>` -/
  | guest (code : UInt8)
  /-- `guest returned unknown result tag <tag>` -/
  | unknownTag (tag : UInt8)
  /-- `guest returned out-of-range winner index <i> (entries=<entries>)` -/
  | winnerOutOfRange (i entries : ℕ)
deriving DecidableEq, Repr

abbrev Host := ExceptT HostError (Prog GuestCalls)

def callAlloc (size align : UInt32) : Host UInt32 :=
  ExceptT.mk (Prog.ask (S := GuestCalls) (.alloc size align) >>= fun r => pure (r.mapError .fault))

def callDealloc (ptr size align : UInt32) : Host Unit :=
  ExceptT.mk (Prog.ask (S := GuestCalls) (.dealloc ptr size align) >>= fun r =>
    pure (r.mapError .fault))

def callMerge (ptr count : UInt32) : Host UInt64 :=
  ExceptT.mk (Prog.ask (S := GuestCalls) (.merge ptr count) >>= fun r => pure (r.mapError .fault))

def memoryRead (offset len : ℕ) : Host Bytes :=
  ExceptT.mk (Prog.ask (S := GuestCalls) (.read offset len) >>= fun r =>
    pure (r.elim (.error .memoryAccess) .ok))

def memoryWrite (offset : ℕ) (bytes : Bytes) : Host Unit :=
  ExceptT.mk (Prog.ask (S := GuestCalls) (.write offset bytes) >>= fun r =>
    pure (r.elim (.error .memoryAccess) .ok))

/-- `u32::try_from`. -/
def tryU32 (n : ℕ) (err : HostError) : Host UInt32 :=
  if n < 2 ^ 32 then pure (UInt32.ofNat n) else throw err

def require (ok : Bool) (err : HostError) : Host Unit := if ok then pure () else throw err

/-! ### Encoding -/

/-- The pointer and length of each field. -/
structure FieldPtrs where
  key : UInt32 × UInt32
  pool : UInt32 × UInt32
  value : UInt32 × UInt32
  line : UInt32 × UInt32

/-- The length of an optional field. -/
def optionalLen (err : HostError) : Option Bytes → Host UInt32
  | some b => tryU32 b.length err
  | none => pure 0

/-- Write a field at an address. -/
def putField (address len : UInt32) (bytes : Bytes) : Host (UInt32 × UInt32) := do
  memoryWrite address.toNat bytes
  pure (address, len)

/-- Write an optional field; an absent one has a null pointer. -/
def putOptional (address len : UInt32) : Option Bytes → Host (UInt32 × UInt32)
  | some b => putField address len b
  | none => pure (0, 0)

/-- The writes of `FieldPtrs::write`: the fields one after the other, from `base` on.  An absent
field has length `0`, so the offset does not move past it. -/
def FieldPtrs.place (base keyLen poolLen valueLen lineLen : UInt32) (e : Entry) : Host FieldPtrs := do
  let key ← putField base keyLen e.key
  let pool ← putField (base + keyLen) poolLen e.pool
  let value ← putOptional (base + (keyLen + poolLen)) valueLen e.value
  let line ← putOptional (base + (keyLen + poolLen + valueLen)) lineLen e.line
  pure ⟨key, pool, value, line⟩

/-- `FieldPtrs::write`.  The lengths are summed in 64 bits. -/
def FieldPtrs.write (e : Entry) : Host FieldPtrs := do
  let keyLen ← tryU32 e.key.length .keyTooLarge
  let poolLen ← tryU32 e.pool.length .poolTooLarge
  let valueLen ← optionalLen .valueTooLarge e.value
  let lineLen ← optionalLen .lineTooLarge e.line
  let allocSize ←
    tryU32 (max (keyLen.toNat + poolLen.toNat + valueLen.toNat + lineLen.toNat) 1) .fieldsTooLarge
  let base ← callAlloc allocSize 1
  require (base != 0) .allocNull
  FieldPtrs.place base keyLen poolLen valueLen lineLen e

def le32 (x : UInt32) : Bytes := toLE 4 x.toNat

def le64 (x : Int64) : Bytes := toLE 8 x.toUInt64.toNat

def statusCode : Status → UInt32
  | .hit => statusHit
  | .miss => statusMiss
  | .error => statusError

/-- `encode_entry`: the record of an entry, field after field. -/
def encodeEntry (e : Entry) (fields : FieldPtrs) : Bytes :=
  le32 fields.key.1 ++ le32 fields.key.2 ++
  le32 fields.pool.1 ++ le32 fields.pool.2 ++
  le32 fields.value.1 ++ le32 fields.value.2 ++
  le32 fields.line.1 ++ le32 fields.line.2 ++
  le32 (statusCode e.status) ++
  le32 (if e.t.isSome then 1 else 0) ++
  le64 (e.t.getD 0)

structure EncodedEntries where
  ptr : UInt32
  count : UInt32
  totalSize : UInt32

/-- The first loop of `EncodedEntries::write`. -/
def writeFields : List Entry → Host (List FieldPtrs)
  | [] => pure []
  | e :: es => do
      let fields ← FieldPtrs.write e
      let rest ← writeFields es
      pure (fields :: rest)

/-- The second loop of `EncodedEntries::write`, from index `i`. -/
def writeRecords (ptr : UInt32) : ℕ → List (Entry × FieldPtrs) → Host Unit
  | _, [] => pure ()
  | i, (e, fields) :: rest => do
      memoryWrite (ptr.toNat + i * entrySize.toNat) (encodeEntry e fields)
      writeRecords ptr (i + 1) rest

/-- `EncodedEntries::write`. -/
def EncodedEntries.write (entries : List Entry) : Host EncodedEntries := do
  let count ← tryU32 entries.length .tooManyEntries
  let fieldAllocs ← writeFields entries
  let totalSize ← tryU32 (count.toNat * entrySize.toNat) .arrayTooLarge
  let allocSize := if totalSize = 0 then 1 else totalSize
  let ptr ← callAlloc allocSize 8
  require (ptr != 0) .allocNull
  writeRecords ptr 0 (entries.zip fieldAllocs)
  pure ⟨ptr, count, allocSize⟩

/-! ### Decoding -/

/-- The synthesized payload that a descriptor names.  `call` makes a call on the instance, and
`readVec` reads into a buffer of the host. -/
def decodeSynthesizedWith {m : Type → Type} [Monad m] (call : {α : Type} → Host α → m α)
    (readVec : ℕ → ℕ → m Bytes) (descPtr : UInt32) : m MergeResult := do
  let desc ← call (memoryRead descPtr.toNat 8)
  let ptr := UInt32.ofNat (ofLE (desc.take 4))
  let len := UInt32.ofNat (ofLE ((desc.drop 4).take 4))
  call (require (len.toNat ≤ maxGuestMemoryBytes) (.payloadTooLarge len))
  let buf ← readVec ptr.toNat len.toNat
  call (callDealloc ptr (max len 1) 1)
  call (callDealloc descPtr 8 4)
  pure (.synthesized buf)

/-- `decode_result`, over any calls on the instance. -/
def decodeResultWith {m : Type → Type} [Monad m] (call : {α : Type} → Host α → m α)
    (readVec : ℕ → ℕ → m Bytes) (packed : UInt64) : m MergeResult :=
  let tag := (packed &&& 0xFF).toUInt8
  let high := (packed >>> 32).toUInt32
  if tag = resultTagMiss then pure .miss
  else if tag = resultTagWinner then pure (.winner high.toNat)
  else if tag = resultTagSynthesized then decodeSynthesizedWith call readVec high
  else if tag = resultTagGuestError then call (throw (.guest ((packed >>> 8) &&& 0xFF).toUInt8))
  else call (throw (.unknownTag tag))

def decodeSynthesized (descPtr : UInt32) : Host MergeResult := decodeSynthesizedWith (fun x => x) memoryRead descPtr

/-- `decode_result`. -/
def decodeResult (packed : UInt64) : Host MergeResult := decodeResultWith (fun x => x) memoryRead packed

/-! ### Running -/

/-- The part of `run_with_pre` that talks to the guest. -/
def invoke (entries : List Entry) : Host MergeResult := do
  let encoded ← EncodedEntries.write entries
  let packed ← callMerge encoded.ptr encoded.count
  let result ← decodeResult packed
  callDealloc encoded.ptr encoded.totalSize 8
  pure result

/-- A winner must be one of the entries. -/
def checkWinner (entries : ℕ) : MergeResult → Except HostError MergeResult
  | .winner i => if entries ≤ i then .error (.winnerOutOfRange i entries) else .ok (.winner i)
  | other => .ok other

/-- `run_with_pre`. -/
def runWithPre (entries : List Entry) : Host MergeResult := do
  let result ← invoke entries
  ExceptT.mk (pure (checkWinner entries.length result))

/-- `Merge::apply` of a `WasmMerge`. -/
def applyOutcome : Except HostError MergeResult → MergeResult
  | .ok r => r
  | .error _ => .miss

/-! ### Numbers on the wire -/

@[simp] theorem length_le32 (x : UInt32) : (le32 x).length = 4 := LinearMemory.length_toLE 4 _

@[simp] theorem length_le64 (x : Int64) : (le64 x).length = 8 := LinearMemory.length_toLE 8 _

theorem ofLE_le32 (x : UInt32) : UInt32.ofNat (ofLE (le32 x)) = x := by
  have hx : x.toNat < 256 ^ 4 := x.toNat_lt
  unfold le32
  rw [LinearMemory.ofLE_toLE hx, UInt32.ofNat_toNat]

theorem ofLE_le64 (x : Int64) : (UInt64.ofNat (ofLE (le64 x))).toInt64 = x := by
  have hx : x.toUInt64.toNat < 256 ^ 8 := x.toUInt64.toNat_lt
  unfold le64
  rw [LinearMemory.ofLE_toLE hx, UInt64.ofNat_toNat, Int64.toInt64_toUInt64]

theorem toNat_ofNat_of_lt {n : ℕ} (hn : n < 2 ^ 32) : (UInt32.ofNat n).toNat = n :=
  UInt32.toNat_ofNat_of_lt' hn

theorem toNat_add_of_lt {a b : UInt32} (hlt : a.toNat + b.toNat < 2 ^ 32) :
    (a + b).toNat = a.toNat + b.toNat := by
  rw [UInt32.toNat_add, Nat.mod_eq_of_lt hlt]

theorem cap_lt : maxGuestMemoryBytes < 2 ^ 32 := by decide

theorem tryU32_eq {n : ℕ} (hn : n < 2 ^ 32) (err : HostError) : tryU32 n err = pure (UInt32.ofNat n) :=
  if_pos hn

theorem length_encodeEntry (e : Entry) (fields : FieldPtrs) : (encodeEntry e fields).length = 48 := by
  unfold encodeEntry
  simp only [List.length_append, length_le32, length_le64]

/-! ### Rules for any instance -/

section rules
variable {σ : Type} {E : Effect GuestCalls σ} {G : GuestOp → σ → σ → Prop} {s : σ}

theorem tryU32_normally (n : ℕ) (err : HostError) :
    Prog.Normally E G (fun x s' => x.toNat = n ∧ s = s') (tryU32 n err) s := by
  unfold tryU32
  split_ifs with hn
  · exact Prog.Normally.pure ⟨toNat_ofNat_of_lt hn, rfl⟩
  · exact Prog.Normally.throw

theorem optionalLen_normally (field : Option Bytes) (err : HostError) :
    Prog.Normally E G (fun x s' => x.toNat = (field.getD []).length ∧ s = s') (optionalLen err field) s := by
  cases field with
  | none => exact Prog.Normally.pure ⟨rfl, rfl⟩
  | some bytes => exact tryU32_normally bytes.length err

theorem require_normally (ok : Bool) (err : HostError) :
    Prog.Normally E G (fun _ s' => ok = true ∧ s = s') (require ok err) s := by
  unfold require
  split_ifs with hok
  · exact Prog.Normally.pure ⟨hok, rfl⟩
  · exact Prog.Normally.throw

end rules

end McGateway.Wasm
