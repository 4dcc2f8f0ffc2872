import McGateway.WasmHost

/-! # A hostile guest

A guest module is code of unknown origin.  Here nothing at all is assumed of it: its exports return
any number or trap, and every call into it may leave any memory of at most `maxGuestMemoryBytes`
behind (`HostileStep`).  What the host can rely on is the memory's bounds check alone.

The host still stays within what it asked for: each of its writes is inside the buffer that the
guest handed out last (`WritesInBuffer`), it accepts a result only if the packed number says so and
the memory has what the number points to (`Decoded`), and after a null buffer, a trap or an access
out of bounds it returns no result (`Contained`).

The pointers of an entry's fields are sums of 32-bit numbers that the guest chose.
`FieldPtrs.writeChecked` is `FieldPtrs::write` with every one of its sums checked, as in a debug
build.  It makes the same calls and returns the same as the wrapping version: no sum ever overflows,
because a write that succeeds bounds the address of the next one. -/

namespace McGateway.Wasm

open McGateway.Core
open LinearMemory

/-! ### Steps -/

/-- The memory of an instance, and what has happened to it so far. -/
structure GuestState where
  memory : GuestMemory
  /-- The buffer that the last `mcgw_alloc` returned, with the size that was asked for. -/
  buffer : Option (UInt32 × UInt32)
  /-- What the last `mcgw_merge` returned, with the memory it left. -/
  merged : Option (UInt64 × GuestMemory)
  /-- A buffer was null, a call trapped or an access was out of bounds. -/
  failed : Bool

/-- A fresh instance. -/
def GuestState.fresh (memory : GuestMemory) : GuestState := ⟨memory, none, none, false⟩

/-- What the calls of the host may do. -/
inductive HostileStep : (op : GuestOp) → GuestState → op.Answer → GuestState → Prop where
  | alloc {size align : UInt32} {s : GuestState} (base : UInt32) (memory : GuestMemory) :
      HostileStep (.alloc size align) s (.ok base)
        { s with memory, buffer := some (base, size), failed := s.failed || base == 0 }
  | allocFault {size align : UInt32} {s : GuestState} (f : Fault) (memory : GuestMemory) :
      HostileStep (.alloc size align) s (.error f) { s with memory, failed := true }
  | dealloc {ptr size align : UInt32} {s : GuestState} (memory : GuestMemory) :
      HostileStep (.dealloc ptr size align) s (.ok ()) { s with memory }
  | deallocFault {ptr size align : UInt32} {s : GuestState} (f : Fault) (memory : GuestMemory) :
      HostileStep (.dealloc ptr size align) s (.error f) { s with memory, failed := true }
  | merge {ptr count : UInt32} {s : GuestState} (packed : UInt64) (memory : GuestMemory) :
      HostileStep (.merge ptr count) s (.ok packed) { s with memory, merged := some (packed, memory) }
  | mergeFault {ptr count : UInt32} {s : GuestState} (f : Fault) (memory : GuestMemory) :
      HostileStep (.merge ptr count) s (.error f) { s with memory, failed := true }
  | read {offset len : ℕ} {s : GuestState} {bytes : Bytes} :
      s.memory.read offset len = some bytes → HostileStep (.read offset len) s (some bytes) s
  | readFault {offset len : ℕ} {s : GuestState} :
      s.memory.read offset len = none → HostileStep (.read offset len) s none { s with failed := true }
  | write {offset : ℕ} {bytes : Bytes} {s : GuestState} :
      offset + bytes.length ≤ s.memory.size →
      HostileStep (.write offset bytes) s (some ()) { s with memory := s.memory.patch offset bytes }
  | writeFault {offset : ℕ} {bytes : Bytes} {s : GuestState} :
      s.memory.size < offset + bytes.length →
      HostileStep (.write offset bytes) s none { s with failed := true }

/-- The bytes go to the last buffer. -/
def InBuffer (s : GuestState) (offset : ℕ) (bytes : Bytes) : Prop :=
  ∃ base size, s.buffer = some (base, size) ∧ base.toNat ≤ offset ∧
    offset + bytes.length ≤ base.toNat + size.toNat

/-- The host writes to the last buffer only. -/
def WritesInBuffer (op : GuestOp) (s _ : GuestState) : Prop :=
  ∀ offset bytes, op = .write offset bytes → InBuffer s offset bytes

/-! ### What a result must be -/

/-- The result that a packed number stands for, in the memory that it was returned with. -/
inductive Decoded (entries : ℕ) (packed : UInt64) (memory : GuestMemory) : MergeResult → Prop where
  | miss : (packed &&& 0xFF).toUInt8 = resultTagMiss → Decoded entries packed memory .miss
  | winner : (packed &&& 0xFF).toUInt8 = resultTagWinner → (packed >>> 32).toUInt32.toNat < entries →
      Decoded entries packed memory (.winner (packed >>> 32).toUInt32.toNat)
  /-- The descriptor is 8 bytes: the address and the length of the payload. -/
  | synthesized {desc bytes : Bytes} : (packed &&& 0xFF).toUInt8 = resultTagSynthesized →
      memory.read (packed >>> 32).toUInt32.toNat 8 = some desc →
      memory.read (ofLE (desc.take 4)) (ofLE (desc.drop 4)) = some bytes →
      bytes.length ≤ maxGuestMemoryBytes → Decoded entries packed memory (.synthesized bytes)

/-- A result is returned only if nothing has failed and the guest's number stands for it; every
error is a miss. -/
def Contained (entries : ℕ) (r : Except HostError MergeResult) (s : GuestState) : Prop :=
  match r with
  | .ok result =>
      s.failed = false ∧ ∃ packed memory, s.merged = some (packed, memory) ∧
        Decoded entries packed memory result
  | .error _ => applyOutcome r = .miss

/-! ### Checked sums -/

inductive CheckedError where
  /-- A 32-bit sum overflowed. -/
  | overflow
  | host (err : HostError)

abbrev CheckedHost := ExceptT CheckedError (Prog GuestCalls)

def checkedAdd (a b : UInt32) : CheckedHost UInt32 :=
  if a.toNat + b.toNat < 2 ^ 32 then pure (a + b) else throw .overflow

/-- A step of the host without sums. -/
abbrev exactly {α : Type} (x : Host α) : CheckedHost α := Prog.embed .host x

/-- Write a field at `base + off`; the source forms the sum again for the pointer. -/
def putFieldChecked (base off len : UInt32) (bytes : Bytes) : CheckedHost (UInt32 × UInt32) := do
  let address ← checkedAdd base off
  exactly (memoryWrite address.toNat bytes)
  let ptr ← checkedAdd base off
  pure (ptr, len)

def putOptionalChecked (base off len : UInt32) : Option Bytes → CheckedHost (UInt32 × UInt32)
  | some b => putFieldChecked base off len b
  | none => pure (0, 0)

/-- The offset behind an optional field. -/
def advance (off len : UInt32) : Option Bytes → CheckedHost UInt32
  | some _ => checkedAdd off len
  | none => pure off

/-- The writes of `FieldPtrs::write`, sum by sum. -/
def FieldPtrs.placeChecked (base keyLen poolLen valueLen lineLen : UInt32) (e : Entry) :
    CheckedHost FieldPtrs := do
  let key ← putFieldChecked base 0 keyLen e.key
  let off ← checkedAdd 0 keyLen
  let pool ← putFieldChecked base off poolLen e.pool
  let off ← checkedAdd off poolLen
  let value ← putOptionalChecked base off valueLen e.value
  let off ← advance off valueLen e.value
  let line ← putOptionalChecked base off lineLen e.line
  pure ⟨key, pool, value, line⟩

/-- `FieldPtrs::write` with checked sums. -/
def FieldPtrs.writeChecked (e : Entry) : CheckedHost FieldPtrs := do
  let keyLen ← exactly (tryU32 e.key.length .keyTooLarge)
  let poolLen ← exactly (tryU32 e.pool.length .poolTooLarge)
  let valueLen ← exactly (optionalLen .valueTooLarge e.value)
  let lineLen ← exactly (optionalLen .lineTooLarge e.line)
  let allocSize ← exactly
    (tryU32 (max (keyLen.toNat + poolLen.toNat + valueLen.toNat + lineLen.toNat) 1) .fieldsTooLarge)
  let base ← exactly (callAlloc allocSize 1)
  exactly (require (base != 0) .allocNull)
  FieldPtrs.placeChecked base keyLen poolLen valueLen lineLen e

theorem checkedAdd_eq {a b : UInt32} (h : a.toNat + b.toNat < 2 ^ 32) : checkedAdd a b = pure (a + b) :=
  if_pos h

/-! ### Rules -/

section rules
variable {s : GuestState}

theorem callAlloc_normally (size align : UInt32) :
    Prog.Normally HostileStep WritesInBuffer
      (fun base s' => s'.buffer = some (base, size) ∧ s'.failed = (s.failed || base == 0))
      (callAlloc size align) s := by
  intro r s' hstep
  refine ⟨by simp [WritesInBuffer], ?_⟩
  cases hstep with
  | alloc base memory =>
      rintro _ ⟨⟩
      exact ⟨rfl, rfl⟩
  | allocFault f memory => exact fun _ h => nomatch h

/-- A buffer that is not null is no failure. -/
theorem failed_eq_of_nonnull {s' : GuestState} {base : UInt32} (hfailed : s'.failed = (s.failed || base == 0))
    (hbase : (base != 0) = true) : s'.failed = s.failed := by
  have hne : base ≠ 0 := by simpa using hbase
  simp [hfailed, hne]

theorem callDealloc_normally (ptr size align : UInt32) :
    Prog.Normally HostileStep WritesInBuffer
      (fun _ s' => s'.merged = s.merged ∧ s'.failed = s.failed) (callDealloc ptr size align) s := by
  intro r s' hstep
  refine ⟨by simp [WritesInBuffer], ?_⟩
  cases hstep with
  | dealloc memory => exact fun _ _ => ⟨rfl, rfl⟩
  | deallocFault f memory => exact fun _ h => nomatch h

theorem callMerge_normally (ptr count : UInt32) :
    Prog.Normally HostileStep WritesInBuffer
      (fun packed s' => s'.merged = some (packed, s'.memory) ∧ s'.failed = s.failed)
      (callMerge ptr count) s := by
  intro r s' hstep
  refine ⟨by simp [WritesInBuffer], ?_⟩
  cases hstep with
  | merge packed memory =>
      rintro _ ⟨⟩
      exact ⟨rfl, rfl⟩
  | mergeFault f memory => exact fun _ h => nomatch h

theorem memoryRead_normally (offset len : ℕ) :
    Prog.Normally HostileStep WritesInBuffer (fun bytes s' => s.memory.read offset len = some bytes ∧ s = s')
      (memoryRead offset len) s := by
  intro r s' hstep
  refine ⟨by simp [WritesInBuffer], ?_⟩
  cases hstep with
  | read hread =>
      rintro _ ⟨⟩
      exact ⟨hread, rfl⟩
  | readFault hread => exact fun _ h => nomatch h

/-- A write that succeeds says how large the memory is. -/
theorem memoryWrite_normally {offset : ℕ} {bytes : Bytes} (hin : InBuffer s offset bytes) :
    Prog.Normally HostileStep WritesInBuffer
      (fun _ s' => offset + bytes.length ≤ s'.memory.size ∧ s'.buffer = s.buffer ∧ s'.failed = s.failed)
      (memoryWrite offset bytes) s := by
  intro r s' hstep
  refine ⟨?_, ?_⟩
  · rintro _ _ ⟨⟩
    exact hin
  · cases hstep with
    | write hfit => exact fun _ _ => ⟨hfit, rfl, rfl⟩
    | writeFault hfit => exact fun _ h => nomatch h

end rules

/-! ### The fields of an entry -/

/-- The writes have come to `off` in the buffer at `base`: the memory reaches that far. -/
structure Placing (base size off : UInt32) (failed : Bool) (s : GuestState) : Prop where
  buffer : s.buffer = some (base, size)
  reached : off = 0 ∨ base.toNat + off.toNat ≤ s.memory.size
  failed : s.failed = failed

section fields
variable {base size off len : UInt32} {failed : Bool} {s : GuestState}

/-- The address of the next field does not overflow: the guest's memory is far smaller than the
range of addresses. -/
theorem Placing.address_lt (hs : Placing base size off failed s) : base.toNat + off.toNat < 2 ^ 32 := by
  obtain rfl | hreached := hs.reached
  · exact base.toNat_lt
  · exact (hreached.trans s.memory.size_le).trans_lt cap_lt

theorem toNat_add_of_le (hfit : off.toNat + len.toNat ≤ size.toNat) :
    (off + len).toNat = off.toNat + len.toNat :=
  toNat_add_of_lt (hfit.trans_lt size.toNat_lt)

theorem putField_agree (hs : Placing base size off failed s) {bytes : Bytes}
    (hlen : len.toNat = bytes.length) (hfit : off.toNat + len.toNat ≤ size.toNat) :
    Prog.Agree HostileStep WritesInBuffer .host
      (fun slot slot' s' => slot = slot' ∧ Placing base size (off + len) failed s')
      (putField (base + off) len bytes) (putFieldChecked base off len bytes) s := by
  have haddress := toNat_add_of_lt hs.address_lt
  have hin : InBuffer s (base + off).toNat bytes := ⟨base, size, hs.buffer, by omega, by omega⟩
  unfold putFieldChecked
  rw [checkedAdd_eq hs.address_lt]
  refine ((memoryWrite_normally hin).agree_embed CheckedError.host).bind ?_
  rintro _ _ s' ⟨-, hsize, hbuffer, hfailed⟩
  refine Prog.Agree.pure ⟨rfl, hbuffer.trans hs.buffer, Or.inr ?_, hfailed.trans hs.failed⟩
  rw [toNat_add_of_le hfit]
  omega

theorem putOptional_agree (hs : Placing base size off failed s) {field : Option Bytes}
    (hlen : len.toNat = (field.getD []).length) (hfit : off.toNat + len.toNat ≤ size.toNat) :
    Prog.Agree HostileStep WritesInBuffer .host
      (fun slot slot' s' => slot = slot' ∧ Placing base size (off + len) failed s')
      (putOptional (base + off) len field) (putOptionalChecked base off len field) s := by
  cases field with
  | none =>
      have hzero : len = 0 := UInt32.toNat_inj.mp hlen
      rw [hzero, UInt32.add_zero]
      exact Prog.Agree.pure ⟨rfl, hs⟩
  | some bytes => exact putField_agree hs hlen hfit

theorem advance_eq {field : Option Bytes} (hlen : len.toNat = (field.getD []).length)
    (hfit : off.toNat + len.toNat ≤ size.toNat) : advance off len field = pure (off + len) := by
  cases field with
  | none =>
      have hzero : len = 0 := UInt32.toNat_inj.mp hlen
      rw [hzero, UInt32.add_zero]
      rfl
  | some bytes => exact checkedAdd_eq (hfit.trans_lt size.toNat_lt)

/-- The addresses of the fields, with the offsets as the source accumulates them. -/
theorem FieldPtrs.place_eq (base keyLen poolLen valueLen lineLen : UInt32) (e : Entry) :
    FieldPtrs.place base keyLen poolLen valueLen lineLen e = (do
      let key ← putField (base + 0) keyLen e.key
      let pool ← putField (base + (0 + keyLen)) poolLen e.pool
      let value ← putOptional (base + (0 + keyLen + poolLen)) valueLen e.value
      let line ← putOptional (base + (0 + keyLen + poolLen + valueLen)) lineLen e.line
      pure ⟨key, pool, value, line⟩) := by
  rw [UInt32.add_zero, UInt32.zero_add]
  rfl

theorem FieldPtrs.place_agree {keyLen poolLen valueLen lineLen : UInt32} {e : Entry}
    (hs : Placing base size 0 failed s) (hkey : keyLen.toNat = e.key.length)
    (hpool : poolLen.toNat = e.pool.length) (hvalue : valueLen.toNat = (e.value.getD []).length)
    (hline : lineLen.toNat = (e.line.getD []).length)
    (hfit : keyLen.toNat + poolLen.toNat + valueLen.toNat + lineLen.toNat ≤ size.toNat) :
    Prog.Agree HostileStep WritesInBuffer .host
      (fun fields fields' s' => fields = fields' ∧ s'.failed = failed)
      (FieldPtrs.place base keyLen poolLen valueLen lineLen e)
      (FieldPtrs.placeChecked base keyLen poolLen valueLen lineLen e) s := by
  -- each offset is the sum of the lengths before it, and the sums fit in the buffer
  have hkeyFit : (0 : UInt32).toNat + keyLen.toNat ≤ size.toNat := by
    rw [UInt32.toNat_zero]
    omega
  have hoff₁ := toNat_add_of_le hkeyFit
  rw [UInt32.toNat_zero] at hoff₁
  have hpoolFit : (0 + keyLen).toNat + poolLen.toNat ≤ size.toNat := by omega
  have hoff₂ := toNat_add_of_le hpoolFit
  have hvalueFit : (0 + keyLen + poolLen).toNat + valueLen.toNat ≤ size.toNat := by omega
  have hoff₃ := toNat_add_of_le hvalueFit
  have hlineFit : (0 + keyLen + poolLen + valueLen).toNat + lineLen.toNat ≤ size.toNat := by omega
  rw [FieldPtrs.place_eq]
  unfold FieldPtrs.placeChecked
  refine (putField_agree hs hkey hkeyFit).bind ?_
  rintro key _ s₁ ⟨rfl, hs₁⟩
  rw [checkedAdd_eq (hkeyFit.trans_lt size.toNat_lt)]
  refine (putField_agree hs₁ hpool hpoolFit).bind ?_
  rintro pool _ s₂ ⟨rfl, hs₂⟩
  rw [checkedAdd_eq (hpoolFit.trans_lt size.toNat_lt)]
  refine (putOptional_agree hs₂ hvalue hvalueFit).bind ?_
  rintro value _ s₃ ⟨rfl, hs₃⟩
  rw [advance_eq hvalue hvalueFit]
  refine (putOptional_agree hs₃ hline hlineFit).bind ?_
  rintro line _ s₄ ⟨rfl, hs₄⟩
  exact Prog.Agree.pure ⟨rfl, hs₄.failed⟩

end fields

/-- `FieldPtrs::write` with wrapping and with checked sums make the same calls and return the
same. -/
theorem FieldPtrs.write_agree (e : Entry) (s : GuestState) :
    Prog.Agree HostileStep WritesInBuffer .host
      (fun fields fields' s' => fields = fields' ∧ s'.failed = s.failed)
      (FieldPtrs.write e) (FieldPtrs.writeChecked e) s := by
  unfold FieldPtrs.write FieldPtrs.writeChecked
  refine ((tryU32_normally _ _).agree_embed CheckedError.host).bind ?_
  rintro keyLen _ _ ⟨rfl, hkey, rfl⟩
  refine ((tryU32_normally _ _).agree_embed CheckedError.host).bind ?_
  rintro poolLen _ _ ⟨rfl, hpool, rfl⟩
  refine ((optionalLen_normally _ _).agree_embed CheckedError.host).bind ?_
  rintro valueLen _ _ ⟨rfl, hvalue, rfl⟩
  refine ((optionalLen_normally _ _).agree_embed CheckedError.host).bind ?_
  rintro lineLen _ _ ⟨rfl, hline, rfl⟩
  refine ((tryU32_normally _ _).agree_embed CheckedError.host).bind ?_
  rintro allocSize _ _ ⟨rfl, hsize, rfl⟩
  refine ((callAlloc_normally _ _).agree_embed CheckedError.host).bind ?_
  rintro base _ s₁ ⟨rfl, hbuffer, hfailed⟩
  refine ((require_normally _ _).agree_embed CheckedError.host).bind ?_
  rintro _ _ _ ⟨-, hbase, rfl⟩
  have hs₁ : Placing base allocSize 0 s.failed s₁ :=
    ⟨hbuffer, Or.inl rfl, failed_eq_of_nonnull hfailed hbase⟩
  exact FieldPtrs.place_agree hs₁ hkey hpool hvalue hline (by omega)

/-! ### The encoded entries -/

section entries
variable {s : GuestState}

theorem writeFields_normally (es : List Entry) :
    Prog.Normally HostileStep WritesInBuffer (fun _ s' => s'.failed = s.failed) (writeFields es) s := by
  induction es generalizing s with
  | nil => exact Prog.Normally.pure rfl
  | cons e es ih =>
      unfold writeFields
      refine (FieldPtrs.write_agree e s).normally.bind ?_
      rintro fields s₁ ⟨_, -, h₁⟩
      refine ih.bind ?_
      intro rest s₂ h₂
      exact Prog.Normally.pure (h₂.trans h₁)

/-- The records go to the buffer one after the other. -/
theorem writeRecords_normally {ptr size : UInt32} (ps : List (Entry × FieldPtrs)) {i : ℕ}
    (hbuffer : s.buffer = some (ptr, size)) (hfit : (i + ps.length) * 48 ≤ size.toNat) :
    Prog.Normally HostileStep WritesInBuffer (fun _ s' => s'.failed = s.failed)
      (writeRecords ptr i ps) s := by
  induction ps generalizing s i with
  | nil => exact Prog.Normally.pure rfl
  | cons p ps ih =>
      obtain ⟨e, fields⟩ := p
      rw [List.length_cons] at hfit
      have hentry : entrySize.toNat = 48 := rfl
      have hin : InBuffer s (ptr.toNat + i * entrySize.toNat) (encodeEntry e fields) := by
        refine ⟨ptr, size, hbuffer, Nat.le_add_right _ _, ?_⟩
        rw [length_encodeEntry, hentry]
        omega
      unfold writeRecords
      refine (memoryWrite_normally hin).bind ?_
      rintro _ s₁ ⟨-, hbuffer₁, hfailed₁⟩
      rw [← hfailed₁]
      exact ih (hbuffer₁.trans hbuffer) (by omega)

theorem encodedEntries_normally (entries : List Entry) :
    Prog.Normally HostileStep WritesInBuffer (fun _ s' => s'.failed = s.failed)
      (EncodedEntries.write entries) s := by
  unfold EncodedEntries.write
  refine (tryU32_normally _ _).bind ?_
  rintro count _ ⟨hcount, rfl⟩
  refine (writeFields_normally entries).bind ?_
  intro fields s₁ h₁
  refine (tryU32_normally _ _).bind ?_
  rintro total _ ⟨htotal, rfl⟩
  refine (callAlloc_normally _ _).bind ?_
  rintro ptr s₂ ⟨hbuffer, hfailed⟩
  refine (require_normally _ _).bind ?_
  rintro _ _ ⟨hptr, rfl⟩
  have h₂ := failed_eq_of_nonnull hfailed hptr
  have hfit : (0 + (entries.zip fields).length) * 48 ≤ (if total = 0 then 1 else total).toNat := by
    have hzip : (entries.zip fields).length ≤ entries.length := by
      rw [List.length_zip]
      exact Nat.min_le_left _ _
    have hentry : entrySize.toNat = 48 := rfl
    rw [hcount, hentry] at htotal
    split_ifs with h0
    · rw [h0, UInt32.toNat_zero] at htotal
      omega
    · omega
  refine (writeRecords_normally _ hbuffer hfit).bind ?_
  intro _ s₃ h₃
  exact Prog.Normally.pure (h₃.trans (h₂.trans h₁))

end entries

/-! ### The result -/

section result
variable {s : GuestState}

/-- The two numbers of a descriptor. -/
theorem descriptor_numbers {desc : Bytes} (hdesc : desc.length = 8) :
    (UInt32.ofNat (ofLE (desc.take 4))).toNat = ofLE (desc.take 4) ∧
      (UInt32.ofNat (ofLE ((desc.drop 4).take 4))).toNat = ofLE (desc.drop 4) := by
  have hptr : (desc.take 4).length = 4 := by simp [hdesc]
  have hlen : (desc.drop 4).length = 4 := by simp [hdesc]
  have hptr_lt := ofLE_lt (desc.take 4)
  have hlen_lt := ofLE_lt (desc.drop 4)
  rw [hptr] at hptr_lt
  rw [hlen] at hlen_lt
  rw [List.take_of_length_le hlen.le]
  exact ⟨toNat_ofNat_of_lt hptr_lt, toNat_ofNat_of_lt hlen_lt⟩

theorem decodeSynthesized_normally {entries : ℕ} {packed : UInt64} {memory : GuestMemory}
    (hmerged : s.merged = some (packed, memory)) (hmemory : s.memory = memory)
    (htag : (packed &&& 0xFF).toUInt8 = resultTagSynthesized) :
    Prog.Normally HostileStep WritesInBuffer
      (fun result s' => s'.merged = some (packed, memory) ∧ s'.failed = s.failed ∧
        Decoded entries packed memory result)
      (decodeSynthesized (packed >>> 32).toUInt32) s := by
  subst hmemory
  unfold decodeSynthesized decodeSynthesizedWith
  refine (memoryRead_normally _ _).bind ?_
  rintro desc _ ⟨hdesc, rfl⟩
  obtain ⟨hptr, hlen⟩ := descriptor_numbers (Memory.length_of_read hdesc)
  refine (require_normally _ _).bind ?_
  rintro _ _ ⟨hcap, rfl⟩
  refine (memoryRead_normally _ _).bind ?_
  rintro bytes _ ⟨hbytes, rfl⟩
  rw [hptr, hlen] at hbytes
  rw [hlen, decide_eq_true_iff] at hcap
  have hdecoded : Decoded entries packed s.memory (.synthesized bytes) :=
    .synthesized htag hdesc hbytes (by rwa [Memory.length_of_read hbytes])
  refine (callDealloc_normally _ _ _).bind ?_
  rintro _ s₁ ⟨hmerged₁, h₁⟩
  refine (callDealloc_normally _ _ _).bind ?_
  rintro _ s₂ ⟨hmerged₂, h₂⟩
  exact Prog.Normally.pure ⟨hmerged₂.trans (hmerged₁.trans hmerged), h₂.trans h₁, hdecoded⟩

/-- Any index is accepted here: it is compared with the number of entries later. -/
theorem decodeResult_normally {packed : UInt64} {memory : GuestMemory}
    (hmerged : s.merged = some (packed, memory)) (hmemory : s.memory = memory) :
    Prog.Normally HostileStep WritesInBuffer
      (fun result s' => s'.merged = some (packed, memory) ∧ s'.failed = s.failed ∧
        Decoded (2 ^ 32) packed memory result)
      (decodeResult packed) s := by
  unfold decodeResult decodeResultWith
  simp only
  split_ifs with hmiss hwinner hsynthesized hguest
  · exact Prog.Normally.pure ⟨hmerged, rfl, .miss hmiss⟩
  · exact Prog.Normally.pure ⟨hmerged, rfl, .winner hwinner (UInt32.toNat_lt _)⟩
  · exact decodeSynthesized_normally hmerged hmemory hsynthesized
  · exact Prog.Normally.throw
  · exact Prog.Normally.throw

theorem Decoded.of_checkWinner {entries : ℕ} {packed : UInt64} {memory : GuestMemory}
    {result checked : MergeResult} (h : Decoded (2 ^ 32) packed memory result)
    (hcheck : checkWinner entries result = .ok checked) : Decoded entries packed memory checked := by
  cases h with
  | miss htag =>
      cases hcheck
      exact .miss htag
  | winner htag _ =>
      simp only [checkWinner] at hcheck
      split_ifs at hcheck with hrange
      cases hcheck
      exact .winner htag (by omega)
  | synthesized htag hdesc hbytes hlen =>
      cases hcheck
      exact .synthesized htag hdesc hbytes hlen

theorem invoke_normally (entries : List Entry) :
    Prog.Normally HostileStep WritesInBuffer
      (fun result s' => s'.failed = s.failed ∧ ∃ packed memory, s'.merged = some (packed, memory) ∧
        Decoded (2 ^ 32) packed memory result)
      (invoke entries) s := by
  unfold invoke
  refine (encodedEntries_normally entries).bind ?_
  intro encoded s₁ h₁
  refine (callMerge_normally _ _).bind ?_
  rintro packed s₂ ⟨hmerged, h₂⟩
  refine (decodeResult_normally hmerged rfl).bind ?_
  rintro result s₃ ⟨hmerged₃, h₃, hdecoded⟩
  refine (callDealloc_normally _ _ _).bind ?_
  rintro _ s₄ ⟨hmerged₄, h₄⟩
  have hfailed : s₄.failed = s.failed := h₄.trans (h₃.trans (h₂.trans h₁))
  exact Prog.Normally.pure ⟨hfailed, packed, s₂.memory, hmerged₄.trans hmerged₃, hdecoded⟩

end result

/-- A hostile guest is contained.  The sums of `FieldPtrs::write` never overflow: with every sum
checked it makes the same calls and returns the same, from any state.  And whatever the guest does
from a fresh instance on, the host writes to the buffers it was given only, and returns a result
only if nothing has failed and the guest's number stands for it. -/
theorem hostile_guest_contained (memory : GuestMemory) (entries : List Entry) :
    (∀ e s, Prog.Agree HostileStep WritesInBuffer .host (fun fields fields' _ => fields = fields')
      (FieldPtrs.write e) (FieldPtrs.writeChecked e) s) ∧
    (∀ e s r s', (FieldPtrs.writeChecked e).run.Returns HostileStep s r s' → r ≠ .error .overflow) ∧
    (runWithPre entries).run.Guarantees HostileStep WritesInBuffer (Contained entries.length)
      (.fresh memory) := by
  refine ⟨?_, ?_, ?_⟩
  · intro e s
    exact (FieldPtrs.write_agree e s).mono fun _ _ _ h => h.1
  · rintro e s _ s' hreturns rfl
    obtain ⟨err, herr⟩ := (FieldPtrs.write_agree e s).errors.returns hreturns _ rfl
    cases herr
  · have hrun : Prog.Normally HostileStep WritesInBuffer
        (fun result s' => s'.failed = false ∧ ∃ packed memory, s'.merged = some (packed, memory) ∧
          Decoded entries.length packed memory result)
        (runWithPre entries) (.fresh memory) := by
      unfold runWithPre
      refine (invoke_normally entries).bind ?_
      rintro result s' ⟨hfailed, packed, m, hmerged, hdecoded⟩ checked hcheck
      exact ⟨hfailed, packed, m, hmerged, hdecoded.of_checkWinner hcheck⟩
    refine Prog.Guarantees.mono hrun ?_
    intro r s' hr
    cases r with
    | ok result => exact hr result rfl
    | error err => exact rfl

end McGateway.Wasm
