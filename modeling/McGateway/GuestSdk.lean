import McGateway.WasmHost

/-! # Merges in a guest: the guest side (`mcgateway-sdk`, `merge_fn`)

The exports that `#[merge_fn]` generates around a user function.  `mcgwMerge` decodes the entries
the host wrote, runs the function and encodes its result; the guest's own view of its memory and
its allocator are the calls `SdkCalls`.  Addresses are 32 bits wide, as on `wasm32`. -/

namespace McGateway.Wasm

open McGateway.Core
open Bytes (validUtf8)
open LinearMemory (Memory Block ofLE)

namespace Sdk

/-- What a user function returns. -/
inductive MergeResult where
  | winner (i : UInt32)
  | synthesized (bytes : Bytes)
  | miss
deriving DecidableEq, Repr

/-- The same result in the types of the host. -/
def MergeResult.native : Sdk.MergeResult → Core.MergeResult
  | .winner i => .winner i.toNat
  | .synthesized bytes => .synthesized bytes
  | .miss => .miss

end Sdk

/-! ### Decoding entries -/

def readU32 (m : GuestMemory) (record : UInt32) (off : UInt32) : Option UInt32 :=
  (m.read (record + off).toNat 4).map fun bs => UInt32.ofNat (ofLE bs)

def readI64 (m : GuestMemory) (record : UInt32) (off : UInt32) : Option Int64 :=
  (m.read (record + off).toNat 8).map fun bs => (UInt64.ofNat (ofLE bs)).toInt64

/-- `slice::from_raw_parts`. -/
def rawSlice (m : GuestMemory) (ptr len : UInt32) : Option Bytes := m.read ptr.toNat len.toNat

/-- A field whose null pointer means that it is absent. -/
def optionalSlice (m : GuestMemory) (ptr len : UInt32) : Option (Option Bytes) :=
  if ptr = 0 then some none else (rawSlice m ptr len).map some

def statusOfCode (code : UInt32) : Status :=
  if code = 0 then .hit else if code = 1 then .miss else .error

/-- One round of the loop of `decode_entries`; `none` when a load is out of bounds. -/
def decodeEntry (m : GuestMemory) (record : UInt32) : Option Entry := do
  let keyPtr ← readU32 m record 0
  let keyLen ← readU32 m record 4
  let poolPtr ← readU32 m record 8
  let poolLen ← readU32 m record 12
  let valuePtr ← readU32 m record 16
  let valueLen ← readU32 m record 20
  let linePtr ← readU32 m record 24
  let lineLen ← readU32 m record 28
  let status ← readU32 m record 32
  let tPresent ← readU32 m record 36
  let tRaw ← readI64 m record 40
  let key ← rawSlice m keyPtr keyLen
  let poolBytes ← rawSlice m poolPtr poolLen
  let value ← optionalSlice m valuePtr valueLen
  let line ← optionalSlice m linePtr lineLen
  pure ⟨key, if validUtf8 poolBytes then poolBytes else [], statusOfCode status,
    if tPresent ≠ 0 then some tRaw else none, value, line⟩

/-- The loop of `decode_entries`: `n` records from index `i`. -/
def decodeFrom (m : GuestMemory) (base : UInt32) : ℕ → ℕ → Option (List Entry)
  | _, 0 => some []
  | i, n + 1 => do
      let e ← decodeEntry m (base + UInt32.ofNat (i * entrySize.toNat))
      let es ← decodeFrom m base (i + 1) n
      pure (e :: es)

def decodeEntries (m : GuestMemory) (ptr count : UInt32) : Option (List Entry) :=
  if count = 0 then some [] else decodeFrom m ptr 0 count.toNat

/-! ### The exports -/

inductive SdkOp where
  /-- The allocator. -/
  | alloc (size align : UInt32)
  /-- Look at the memory. -/
  | peek
  | store (address : UInt32) (bytes : Bytes)
  /-- Code that has no effect on what the host and the SDK have stored; it answers with the blocks of
  the vector that it leaves behind. -/
  | compute
  /-- The vector with these blocks is dropped. -/
  | drop (blocks : List Block)
deriving DecidableEq, Repr

@[reducible] def SdkOp.Answer : SdkOp → Type
  | .alloc _ _ => Except Fault UInt32
  | .peek => GuestMemory
  | .store _ _ => Except Fault Unit
  | .compute => Except Fault (List Block)
  | .drop _ => Except Fault Unit

abbrev SdkCalls : Interface := ⟨SdkOp, SdkOp.Answer⟩

abbrev Guest := ExceptT Fault (Prog SdkCalls)

def sdkAlloc (size align : UInt32) : Guest UInt32 :=
  ExceptT.mk (Prog.ask (S := SdkCalls) (.alloc size align))

def sdkStore (address : UInt32) (bytes : Bytes) : Guest Unit :=
  ExceptT.mk (Prog.ask (S := SdkCalls) (.store address bytes))

def sdkCompute : Guest (List Block) := ExceptT.mk (Prog.ask (S := SdkCalls) .compute)

def sdkDrop (blocks : List Block) : Guest Unit := ExceptT.mk (Prog.ask (S := SdkCalls) (.drop blocks))

/-- `decode_entries` on the memory as it is. -/
def sdkDecode (ptr count : UInt32) : Guest (List Entry) :=
  ExceptT.mk (Prog.ask (S := SdkCalls) .peek >>= fun m =>
    pure ((decodeEntries m ptr count).elim (.error .trap) .ok))

/-- A tag with a 32-bit number above it. -/
def pack (high : UInt32) (tag : UInt8) : UInt64 := (high.toUInt64 <<< 32) ||| tag.toUInt64

theorem toNat_pack (high : UInt32) (tag : UInt8) :
    (pack high tag).toNat = 2 ^ 32 * high.toNat + tag.toNat := by
  have hhigh := high.toNat_lt
  have htag := tag.toNat_lt
  have hor := Nat.two_pow_add_eq_or_of_lt (i := 32) (b := tag.toNat) (by omega) high.toNat
  unfold pack
  rw [UInt64.toNat_or, UInt64.toNat_shiftLeft, UInt32.toNat_toUInt64, UInt8.toNat_toUInt64,
    Nat.shiftLeft_eq]
  simp only [UInt64.toNat_ofNat, Nat.reducePow, Nat.reduceMod] at hor ⊢
  rw [Nat.mod_eq_of_lt (by omega), Nat.mul_comm, ← hor]

theorem tag_pack (high : UInt32) (tag : UInt8) : (pack high tag &&& 0xFF).toUInt8 = tag := by
  have htag := tag.toNat_lt
  apply UInt8.toNat_inj.mp
  have hmask : (pack high tag).toNat &&& 255 = (pack high tag).toNat % 256 :=
    Nat.and_two_pow_sub_one_eq_mod _ 8
  rw [UInt64.toNat_toUInt8, UInt64.toNat_and]
  simp only [UInt64.toNat_ofNat, Nat.reducePow, Nat.reduceMod] at hmask ⊢
  rw [hmask, toNat_pack]
  omega

theorem high_pack (high : UInt32) (tag : UInt8) : (pack high tag >>> 32).toUInt32 = high := by
  have hhigh := high.toNat_lt
  have htag := tag.toNat_lt
  apply UInt32.toNat_inj.mp
  rw [UInt64.toNat_toUInt32, UInt64.toNat_shiftRight, Nat.shiftRight_eq_div_pow, toNat_pack]
  simp only [UInt64.toNat_ofNat, Nat.reducePow, Nat.reduceMod]
  omega

/-- Copy the payload into its buffer; an empty payload is not copied. -/
def copyPayload (payload : UInt32) (bytes : Bytes) : Guest Unit :=
  if bytes ≠ [] then sdkStore payload bytes else pure ()

/-- Write the descriptor of a payload. -/
def writeDescriptor (desc payload len : UInt32) : Guest Unit := do
  sdkStore desc (le32 payload)
  sdkStore (desc + 4) (le32 len)

/-- `encode_synthesized`. -/
def encodeSynthesized (bytes : Bytes) : Guest UInt64 := do
  let len := UInt32.ofNat bytes.length
  let payload ← sdkAlloc len 1
  copyPayload payload bytes
  let desc ← sdkAlloc 8 4
  writeDescriptor desc payload len
  pure (pack desc 2)

/-- `encode_result`. -/
def encodeResult : Sdk.MergeResult → Guest UInt64
  | .miss => pure 0
  | .winner i => pure (pack i 1)
  | .synthesized bytes => encodeSynthesized bytes

/-- The export `mcgw_merge` around the user function `f`.  The first computation makes room for
the decoded entries, the second one is the user function's.  The bytes that it returned are dropped
once they have been encoded, and the entries when the call returns. -/
def mcgwMerge (f : List Entry → Sdk.MergeResult) (ptr count : UInt32) : Guest UInt64 := do
  let entriesVec ← sdkCompute
  let entries ← sdkDecode ptr count
  let resultVec ← sdkCompute
  let packed ← encodeResult (f entries)
  sdkDrop resultVec
  sdkDrop entriesVec
  pure packed

end McGateway.Wasm
