import McGateway.Boundary

/-! # The allocation ledger of a guest

A `Ledger` is the guest's heap together with the blocks that were handed out and those that the
host has released.  The steps are those of `GuestSteps` without the assumption that every call
succeeds: any call into the guest may trap or overrun its deadline, wherever it has come to, and
`mcgw_alloc` may answer with a null pointer.  Only the SDK's own allocations do not return null: as
`encode_synthesized` notes, it relies on an allocator that aborts instead.

`releases_held`: whatever the entries are and whatever the user function returns, every
`mcgw_dealloc` of the host names a block with exactly the pointer and the normalised layout it was
handed out with, that is live at that moment and that the host has not released before. -/

namespace McGateway.Wasm

open McGateway.Core
open LinearMemory

/-- The guest's heap with the blocks handed out so far, to the host or to the SDK, and those that
the host has released. -/
structure Ledger where
  heap : GuestHeap
  granted : List Block
  released : List Block

namespace Ledger

/-! ### Steps -/

/-- The block `b` has been handed out. -/
def grant (l : Ledger) (b : Block) (heap : GuestHeap) : Ledger := ⟨heap, b :: l.granted, l.released⟩

/-- The block `b` has been released. -/
def release (l : Ledger) (b : Block) (heap : GuestHeap) : Ledger := ⟨heap, l.granted, b :: l.released⟩

/-- What the calls of the SDK may do.  After a fault nothing is known of the heap. -/
inductive SdkStep : (op : SdkOp) → Ledger → op.Answer → Ledger → Prop where
  | alloc {size align ptr : UInt32} {l : Ledger} {h' : GuestHeap} :
      l.heap.Allocates (blockOf ptr size align) h' →
      SdkStep (.alloc size align) l (.ok ptr) (l.grant (blockOf ptr size align) h')
  | allocFault {size align : UInt32} (fault : Fault) (l : Ledger) (h' : GuestHeap) :
      SdkStep (.alloc size align) l (.error fault) { l with heap := h' }
  | peek (l : Ledger) : SdkStep .peek l l.heap.mem l
  | store {address : UInt32} {bytes : Bytes} {l : Ledger} {h' : GuestHeap} :
      l.heap.write address.toNat bytes = some h' →
      SdkStep (.store address bytes) l (.ok ()) { l with heap := h' }
  | storeFault {address : UInt32} {bytes : Bytes} (fault : Fault) (l : Ledger) :
      SdkStep (.store address bytes) l (.error fault) l
  | compute {l : Ledger} {h' : GuestHeap} {own : List Block} :
      l.heap.Extends h' → (∀ b ∈ own, b ∈ h'.live ∧ b ∉ l.heap.live) →
      SdkStep .compute l (.ok own) { l with heap := h' }
  | computeFault (fault : Fault) (l : Ledger) (h' : GuestHeap) :
      SdkStep .compute l (.error fault) { l with heap := h' }
  | drop {blocks : List Block} {l : Ledger} {h' : GuestHeap} :
      l.heap.Drops blocks h' → SdkStep (.drop blocks) l (.ok ()) { l with heap := h' }
  | dropFault {blocks : List Block} (fault : Fault) (l : Ledger) (h' : GuestHeap) :
      SdkStep (.drop blocks) l (.error fault) { l with heap := h' }

/-- What the calls of the host may do, for a guest built around `f`. -/
inductive Step (f : List Entry → Sdk.MergeResult) :
    (op : GuestOp) → Ledger → op.Answer → Ledger → Prop where
  | alloc {size align ptr : UInt32} {l : Ledger} {h' : GuestHeap} :
      l.heap.Allocates (blockOf ptr size align) h' →
      Step f (.alloc size align) l (.ok ptr) (l.grant (blockOf ptr size align) h')
  | allocNull {size align : UInt32} {l : Ledger} {h' : GuestHeap} :
      l.heap.Extends h' → Step f (.alloc size align) l (.ok 0) { l with heap := h' }
  | allocFault {size align : UInt32} (fault : Fault) (l : Ledger) (h' : GuestHeap) :
      Step f (.alloc size align) l (.error fault) { l with heap := h' }
  | dealloc {ptr size align : UInt32} {l : Ledger} {h' : GuestHeap} :
      (blockOf ptr size align ∈ l.heap.live → l.heap.Frees (blockOf ptr size align) h') →
      Step f (.dealloc ptr size align) l (.ok ()) (l.release (blockOf ptr size align) h')
  | deallocFault {ptr size align : UInt32} (fault : Fault) (l : Ledger) (h' : GuestHeap) :
      Step f (.dealloc ptr size align) l (.error fault) (l.release (blockOf ptr size align) h')
  | merge {ptr count : UInt32} {l l' : Ledger} {r : Except Fault UInt64} :
      (mcgwMerge f ptr count).run.Returns SdkStep l r l' → Step f (.merge ptr count) l r l'
  | read {offset len : ℕ} (l : Ledger) : Step f (.read offset len) l (l.heap.mem.read offset len) l
  | write {offset : ℕ} {bytes : Bytes} {l : Ledger} {h' : GuestHeap} :
      l.heap.write offset bytes = some h' →
      Step f (.write offset bytes) l (some ()) { l with heap := h' }
  | writeFault {offset : ℕ} {bytes : Bytes} {l : Ledger} :
      l.heap.write offset bytes = none → Step f (.write offset bytes) l none l

/-! ### Blocks held by the host -/

/-- The block was handed out, is live and has not been released. -/
structure Held (b : Block) (l : Ledger) : Prop where
  live : b ∈ l.heap.live
  granted : b ∈ l.granted
  unreleased : b ∉ l.released

/-- Every release names a held block. -/
def Disciplined (op : GuestOp) (l _ : Ledger) : Prop :=
  ∀ ptr size align, op = .dealloc ptr size align → Held (blockOf ptr size align) l

/-- The SDK's own calls are not restricted. -/
def Unrestricted (_ : SdkOp) (_ _ : Ledger) : Prop := True

theorem Held.write {b : Block} {l : Ledger} {p : ℕ} {bytes : Bytes} {h' : GuestHeap} (hb : Held b l)
    (hw : l.heap.write p bytes = some h') : Held b { l with heap := h' } :=
  ⟨Heap.live_of_write hw ▸ hb.live, hb.granted, hb.unreleased⟩

/-- A held block other than the released one is still held. -/
theorem Held.release {b c : Block} {l : Ledger} {h' : GuestHeap} (hc : Held c l) (hfree : l.heap.Frees b h')
    (hne : c ≠ b) : Held c (l.release b h') := by
  refine ⟨hfree.mem hc.live hne, hc.granted, ?_⟩
  intro hmem
  cases List.mem_cons.mp hmem with
  | inl heq => exact hne heq
  | inr hold => exact hc.unreleased hold

/-! ### Rules -/

section rules
variable {f : List Entry → Sdk.MergeResult} {l : Ledger}

theorem sdkAlloc_normally {size align : UInt32} {P : UInt32 → Ledger → Prop}
    (hP : ∀ ptr h', l.heap.Allocates (blockOf ptr size align) h' →
      P ptr (l.grant (blockOf ptr size align) h')) :
    Prog.Normally SdkStep Unrestricted P (sdkAlloc size align) l := by
  intro r l' hstep
  refine ⟨trivial, ?_⟩
  cases hstep with
  | alloc ha =>
      rintro _ ⟨⟩
      exact hP _ _ ha
  | allocFault fault _ h' => exact fun _ h => nomatch h

theorem sdkStore_normally {address : UInt32} {bytes : Bytes} {P : Unit → Ledger → Prop}
    (hP : ∀ h', l.heap.write address.toNat bytes = some h' → P () { l with heap := h' }) :
    Prog.Normally SdkStep Unrestricted P (sdkStore address bytes) l := by
  intro r l' hstep
  refine ⟨trivial, ?_⟩
  cases hstep with
  | store hw => exact fun _ _ => hP _ hw
  | storeFault fault _ => exact fun _ h => nomatch h

theorem sdkCompute_normally {P : List Block → Ledger → Prop}
    (hP : ∀ own h', l.heap.Extends h' → (∀ b ∈ own, b ∈ h'.live ∧ b ∉ l.heap.live) → P own { l with heap := h' }) :
    Prog.Normally SdkStep Unrestricted P sdkCompute l := by
  intro r l' hstep
  refine ⟨trivial, ?_⟩
  cases hstep with
  | compute hx hown =>
      rintro _ ⟨⟩
      exact hP _ _ hx hown
  | computeFault fault _ h' => exact fun _ h => nomatch h

theorem sdkDrop_normally {blocks : List Block} {P : Unit → Ledger → Prop}
    (hP : ∀ h', l.heap.Drops blocks h' → P () { l with heap := h' }) :
    Prog.Normally SdkStep Unrestricted P (sdkDrop blocks) l := by
  intro r l' hstep
  refine ⟨trivial, ?_⟩
  cases hstep with
  | drop hd => exact fun _ _ => hP _ hd
  | dropFault fault _ h' => exact fun _ h => nomatch h

theorem sdkDecode_normally (ptr count : UInt32) :
    Prog.Normally SdkStep Unrestricted (fun _ l' => l = l') (sdkDecode ptr count) l := by
  intro r l' hstep
  cases hstep with
  | peek => exact ⟨trivial, fun _ _ => rfl⟩

theorem callAlloc_normally {size align : UInt32} {P : UInt32 → Ledger → Prop}
    (hP : ∀ ptr h', l.heap.Allocates (blockOf ptr size align) h' →
      P ptr (l.grant (blockOf ptr size align) h'))
    (hnull : ∀ h', l.heap.Extends h' → P 0 { l with heap := h' }) :
    Prog.Normally (Step f) Disciplined P (callAlloc size align) l := by
  intro r l' hstep
  refine ⟨by simp [Disciplined], ?_⟩
  cases hstep with
  | alloc ha =>
      rintro _ ⟨⟩
      exact hP _ _ ha
  | allocNull hx =>
      rintro _ ⟨⟩
      exact hnull _ hx
  | allocFault fault _ h' => exact fun _ h => nomatch h

theorem callDealloc_normally {ptr size align : UInt32} {P : Unit → Ledger → Prop}
    (hb : Held (blockOf ptr size align) l)
    (hP : ∀ h', l.heap.Frees (blockOf ptr size align) h' → P () (l.release (blockOf ptr size align) h')) :
    Prog.Normally (Step f) Disciplined P (callDealloc ptr size align) l := by
  intro r l' hstep
  constructor
  · rintro _ _ _ ⟨⟩
    exact hb
  · cases hstep with
    | dealloc hfree => exact fun _ _ => hP _ (hfree hb.live)
    | deallocFault fault _ h' => exact fun _ h => nomatch h

theorem callMerge_normally {ptr count : UInt32} {P : UInt64 → Ledger → Prop}
    (hguest : Prog.Normally SdkStep Unrestricted P (mcgwMerge f ptr count) l) :
    Prog.Normally (Step f) Disciplined P (callMerge ptr count) l := by
  intro r l' hstep
  refine ⟨by simp [Disciplined], ?_⟩
  cases hstep with
  | merge hrun =>
      have hres := Prog.Guarantees.returns hguest hrun
      cases r with
      | ok packed =>
          rintro _ ⟨⟩
          exact hres packed rfl
      | error fault => exact fun _ h => nomatch h

theorem memoryRead_normally {offset len : ℕ} {P : Bytes → Ledger → Prop}
    (hP : ∀ bytes, l.heap.mem.read offset len = some bytes → P bytes l) :
    Prog.Normally (Step f) Disciplined P (memoryRead offset len) l := by
  intro r l' hstep
  refine ⟨by simp [Disciplined], ?_⟩
  cases hstep with
  | read =>
      cases hread : l.heap.mem.read offset len with
      | none => exact fun _ h => nomatch h
      | some bytes =>
          rintro _ ⟨⟩
          exact hP bytes hread

theorem memoryWrite_normally {offset : ℕ} {bytes : Bytes} {P : Unit → Ledger → Prop}
    (hP : ∀ h', l.heap.write offset bytes = some h' → P () { l with heap := h' }) :
    Prog.Normally (Step f) Disciplined P (memoryWrite offset bytes) l := by
  intro r l' hstep
  refine ⟨by simp [Disciplined], ?_⟩
  cases hstep with
  | write hw => exact fun _ _ => hP _ hw
  | writeFault hw => exact fun _ h => nomatch h

end rules

/-! ### Encoding -/

/-- Nothing is released, whatever the program does. -/
def KeepsAll (f : List Entry → Sdk.MergeResult) {α : Type} (x : Host α) : Prop :=
  ∀ l : Ledger, l.released = [] → Prog.Normally (Step f) Disciplined (fun _ l' => l'.released = []) x l

section encoding
variable {f : List Entry → Sdk.MergeResult} {α β : Type}

theorem KeepsAll.pure (a : α) : KeepsAll f (Pure.pure a : Host α) :=
  fun _ hl => Prog.Normally.pure hl

theorem KeepsAll.bind {x : Host α} {k : α → Host β} (hx : KeepsAll f x) (hk : ∀ a, KeepsAll f (k a)) :
    KeepsAll f (x >>= k) :=
  fun l hl => (hx l hl).bind fun a l' hl' => hk a l' hl'

/-- A program that leaves the ledger as it is. -/
theorem KeepsAll.of_same {x : Host α} {P : Ledger → α → Prop}
    (hx : ∀ l, Prog.Normally (Step f) Disciplined (fun a l' => P l a ∧ l = l') x l) : KeepsAll f x := by
  intro l hl
  refine Prog.Guarantees.mono (hx l) ?_
  rintro r l' hr a rfl
  exact (hr a rfl).2 ▸ hl

theorem keepsAll_tryU32 (n : ℕ) (err : HostError) : KeepsAll f (tryU32 n err) :=
  .of_same fun _ => tryU32_normally n err

theorem keepsAll_optionalLen (field : Option Bytes) (err : HostError) : KeepsAll f (optionalLen err field) :=
  .of_same fun _ => optionalLen_normally field err

theorem keepsAll_require (ok : Bool) (err : HostError) : KeepsAll f (require ok err) :=
  .of_same fun _ => require_normally ok err

theorem keepsAll_callAlloc (size align : UInt32) : KeepsAll f (callAlloc size align) :=
  fun _ hl => callAlloc_normally (fun _ _ _ => hl) fun _ _ => hl

theorem keepsAll_putField (address len : UInt32) (bytes : Bytes) : KeepsAll f (putField address len bytes) :=
  KeepsAll.bind (fun _ hl => memoryWrite_normally fun _ _ => hl) fun _ => .pure _

theorem keepsAll_putOptional (address len : UInt32) (field : Option Bytes) :
    KeepsAll f (putOptional address len field) := by
  cases field with
  | none => exact .pure _
  | some bytes => exact keepsAll_putField address len bytes

theorem keepsAll_writeField (e : Entry) : KeepsAll f (FieldPtrs.write e) := by
  refine (keepsAll_tryU32 _ _).bind fun keyLen => ?_
  refine (keepsAll_tryU32 _ _).bind fun poolLen => ?_
  refine (keepsAll_optionalLen _ _).bind fun valueLen => ?_
  refine (keepsAll_optionalLen _ _).bind fun lineLen => ?_
  refine (keepsAll_tryU32 _ _).bind fun allocSize => ?_
  refine (keepsAll_callAlloc _ _).bind fun base => ?_
  refine (keepsAll_require _ _).bind fun _ => ?_
  refine (keepsAll_putField _ _ _).bind fun key => ?_
  refine (keepsAll_putField _ _ _).bind fun pool => ?_
  refine (keepsAll_putOptional _ _ _).bind fun value => ?_
  exact (keepsAll_putOptional _ _ _).bind fun line => .pure _

theorem keepsAll_writeFields : ∀ es : List Entry, KeepsAll f (writeFields es)
  | [] => .pure _
  | e :: es => (keepsAll_writeField e).bind fun _ => (keepsAll_writeFields es).bind fun _ => .pure _

/-- The host holds `b`, and nothing has been released. -/
structure Start (b : Block) (l : Ledger) : Prop where
  held : Held b l
  released : l.released = []

theorem writeRecords_normally {b : Block} {ptr : UInt32} :
    ∀ {ps : List (Entry × FieldPtrs)} {i : ℕ} {l : Ledger}, Start b l →
      Prog.Normally (Step f) Disciplined (fun _ => Start b) (writeRecords ptr i ps) l
  | [], _, _, hb => Prog.Normally.pure hb
  | (_, _) :: _, _, _, hb => by
      refine (memoryWrite_normally (P := fun _ => Start b) ?_).bind ?_
      · intro h' hw
        exact ⟨hb.held.write hw, hb.released⟩
      · intro _ l' hb'
        exact writeRecords_normally hb'

/-- Once the entries are encoded, the host holds the array of their records, with the layout it will
release it with. -/
theorem writeEntries_normally (es : List Entry) {l : Ledger} (hl : l.released = []) :
    Prog.Normally (Step f) Disciplined (fun enc => Start (blockOf enc.ptr enc.totalSize 8))
      (EncodedEntries.write es) l := by
  refine (keepsAll_tryU32 _ _ l hl).bind fun count l₁ hl₁ => ?_
  refine (keepsAll_writeFields es l₁ hl₁).bind fun fields l₂ hl₂ => ?_
  refine (keepsAll_tryU32 _ _ l₂ hl₂).bind fun totalSize l₃ hl₃ => ?_
  generalize (if totalSize = 0 then 1 else totalSize) = allocSize
  refine Prog.Normally.bind (P := fun ptr l' => ptr ≠ 0 → Start (blockOf ptr allocSize 8) l') ?_ ?_
  · refine callAlloc_normally ?_ ?_
    · intro ptr h' ha _
      refine ⟨⟨?_, List.mem_cons_self, ?_⟩, hl₃⟩
      · exact ha.1 ▸ List.mem_cons_self
      · exact hl₃ ▸ List.not_mem_nil
    · intro _ _ hne
      exact absurd rfl hne
  · intro ptr l₄ hptr
    refine (require_normally _ _).bind ?_
    rintro _ _ ⟨hne, rfl⟩
    have hstart := hptr (by simpa using hne)
    refine (writeRecords_normally hstart).bind ?_
    intro _ l₅ hstart₅
    exact Prog.Normally.pure hstart₅

end encoding

/-! ### The result -/

/-- What the guest has handed over with a synthesized payload: a descriptor in a block of its own
and the block it names, both above the blocks that have survived the call. -/
structure Payload (kept : List Block) (l : Ledger) (payload desc len : UInt32) : Prop where
  holds : l.heap.mem.Holds desc.toNat (le32 payload ++ le32 len)
  live : ∃ older, l.heap.live = blockOf desc 8 4 :: blockOf payload len 1 :: older ∧ kept ⊆ older
  desc : blockOf desc 8 4 ∈ l.granted
  payload : blockOf payload len 1 ∈ l.granted

/-- The state in which `mcgw_merge`, called in `l₀`, returns `packed`, with the blocks that have
survived the call. -/
structure Merged (l₀ : Ledger) (kept : List Block) (packed : UInt64) (l : Ledger) : Prop where
  granted : l₀.granted ⊆ l.granted
  released : l.released = l₀.released
  result : (packed = 0 ∨ ∃ i, packed = pack i 1) ∧ kept ⊆ l.heap.live ∨
    ∃ payload desc len, packed = pack desc 2 ∧ Payload kept l payload desc len

section guest
variable {f : List Entry → Sdk.MergeResult} {l₀ l : Ledger}

theorem copyPayload_normally (payload : UInt32) (bytes : Bytes) :
    Prog.Normally SdkStep Unrestricted
      (fun _ l' => ∃ h', l' = { l with heap := h' } ∧ h'.live = l.heap.live) (copyPayload payload bytes) l := by
  unfold copyPayload
  split_ifs with hne
  · apply sdkStore_normally
    intro h' hw
    exact ⟨h', rfl, Heap.live_of_write hw⟩
  · exact Prog.Normally.pure ⟨l.heap, rfl, rfl⟩

theorem writeDescriptor_normally {h₀ : GuestHeap} {desc payload len : UInt32}
    (ha : h₀.Allocates (blockOf desc 8 4) l.heap) :
    Prog.Normally SdkStep Unrestricted
      (fun _ l' => ∃ h', l' = { l with heap := h' } ∧
        Heap.Filling h₀ (blockOf desc 8 4) (le32 payload ++ le32 len) h')
      (writeDescriptor desc payload len) l := by
  obtain ⟨g₁, g₂, hwrite₁, hwrite₂, hf⟩ := @descriptor_writes h₀ l.heap desc payload len ha
  refine Prog.Normally.bind (P := fun _ l' => l' = { l with heap := g₁ }) ?_ ?_
  · apply sdkStore_normally
    intro h' hw
    rw [hwrite₁, Option.some.injEq] at hw
    subst hw
    rfl
  · rintro _ _ rfl
    apply sdkStore_normally
    intro h' hw
    rw [hwrite₂, Option.some.injEq] at hw
    subst hw
    exact ⟨g₂, rfl, hf⟩

/-- The blocks of `encode_synthesized`; no bound on the payload is needed, since only the layout
of its block matters here. -/
theorem encodeSynthesized_normally (bytes : Bytes) (hgranted : l₀.granted ⊆ l.granted)
    (hreleased : l.released = l₀.released) :
    Prog.Normally SdkStep Unrestricted (Merged l₀ l.heap.live) (encodeSynthesized bytes) l := by
  refine (sdkAlloc_normally (P := fun payload l' => ∃ h', l' =
    l.grant (blockOf payload (UInt32.ofNat bytes.length) 1) h' ∧
    h'.live = blockOf payload (UInt32.ofNat bytes.length) 1 :: l.heap.live) ?_).bind ?_
  · intro payload h' ha
    exact ⟨h', rfl, ha.1⟩
  rintro payload _ ⟨g₁, rfl, hlive₁⟩
  refine (copyPayload_normally payload bytes).bind ?_
  rintro _ _ ⟨g₂, rfl, hlive₂⟩
  refine (sdkAlloc_normally (P := fun desc l' => ∃ h', l' =
    ⟨h', blockOf desc 8 4 :: blockOf payload (UInt32.ofNat bytes.length) 1 :: l.granted, l.released⟩ ∧
    g₂.Allocates (blockOf desc 8 4) h') ?_).bind ?_
  · intro desc h' ha
    exact ⟨h', rfl, ha⟩
  rintro desc _ ⟨g₃, rfl, ha⟩
  refine (writeDescriptor_normally ha).bind ?_
  rintro _ _ ⟨g₄, rfl, hf⟩
  refine Prog.Normally.pure ⟨?_, hreleased, Or.inr ⟨payload, desc, UInt32.ofNat bytes.length, rfl, hf.holds,
    ⟨l.heap.live, ?_, List.Subset.refl _⟩, List.mem_cons_self, List.mem_cons_of_mem _ List.mem_cons_self⟩⟩
  · exact fun b hb => List.mem_cons_of_mem _ (List.mem_cons_of_mem _ (hgranted hb))
  · rw [hf.live, hlive₂]
    exact congrArg _ hlive₁

theorem encodeResult_normally (r : Sdk.MergeResult) (hgranted : l₀.granted ⊆ l.granted)
    (hreleased : l.released = l₀.released) :
    Prog.Normally SdkStep Unrestricted (Merged l₀ l.heap.live) (encodeResult r) l := by
  cases r with
  | winner i => exact Prog.Normally.pure ⟨hgranted, hreleased, Or.inl ⟨Or.inr ⟨i, rfl⟩, List.Subset.refl _⟩⟩
  | miss => exact Prog.Normally.pure ⟨hgranted, hreleased, Or.inl ⟨Or.inl rfl, List.Subset.refl _⟩⟩
  | synthesized bytes => exact encodeSynthesized_normally bytes hgranted hreleased

/-- A drop of old blocks leaves the result alone, and the blocks that are not dropped. -/
theorem Merged.drop {kept kept' blocks : List Block} {packed : UInt64} {h' : GuestHeap}
    (hm : Merged l₀ kept packed l) (hd : l.heap.Drops blocks h') (hblocks : blocks ⊆ kept) (hkept : kept' ⊆ kept)
    (hnot : ∀ b ∈ kept', b ∉ blocks) : Merged l₀ kept' packed { l with heap := h' } := by
  refine ⟨hm.granted, hm.released, ?_⟩
  obtain ⟨hplain, hlive⟩ | ⟨payload, desc, len, hpacked, hholds, ⟨older, hlist, hold⟩, hgdesc, hgpayload⟩ := hm.result
  · exact Or.inl ⟨hplain, fun b hb => hd.mem (hlive (hkept hb)) (hnot b hb)⟩
  · obtain ⟨-, hne⟩ := l.heap.ne_of_live_cons_cons hlist
    have hdescNot : blockOf desc 8 4 ∉ blocks := fun hb => (hne _ (hold (hblocks hb))).1 rfl
    have hpayloadNot : blockOf payload len 1 ∉ blocks := fun hb => (hne _ (hold (hblocks hb))).2 rfl
    have hlist' : h'.live = blockOf desc 8 4 :: blockOf payload len 1 :: older.filter (· ∉ blocks) := by
      rw [hd.1, hlist, List.filter_cons_of_pos (by simpa using hdescNot),
        List.filter_cons_of_pos (by simpa using hpayloadNot)]
    refine Or.inr ⟨payload, desc, len, hpacked, ?_, ⟨_, hlist', ?_⟩, hgdesc, hgpayload⟩
    · refine hd.holds (b := blockOf desc 8 4) ?_ ⟨le_rfl, ?_⟩ hholds
      · rw [hlist']
        exact List.mem_cons_self
      · rw [List.length_append, length_le32, length_le32]
        exact le_rfl
    · intro b hb
      exact List.mem_filter.mpr ⟨hold (hkept hb), by simpa using hnot b hb⟩

theorem mcgwMerge_normally (ptr count : UInt32) :
    Prog.Normally SdkStep Unrestricted (Merged l l.heap.live) (mcgwMerge f ptr count) l := by
  refine (sdkCompute_normally (P := fun own l' => ∃ h', l' = { l with heap := h' } ∧ l.heap.Extends h' ∧
    ∀ b ∈ own, b ∈ h'.live ∧ b ∉ l.heap.live) fun own h' hx hown => ⟨h', rfl, hx, hown⟩).bind ?_
  rintro entriesVec _ ⟨g₁, rfl, hx₁, hown₁⟩
  refine (sdkDecode_normally ptr count).bind ?_
  rintro entries _ rfl
  refine (sdkCompute_normally (l := { l with heap := g₁ }) (P := fun own l' => ∃ h', l' = { l with heap := h' } ∧
    g₁.Extends h' ∧ ∀ b ∈ own, b ∈ h'.live ∧ b ∉ g₁.live) fun own h' hx hown => ⟨h', rfl, hx, hown⟩).bind ?_
  rintro resultVec _ ⟨g₂, rfl, hx₂, hown₂⟩
  have hencode := @encodeResult_normally l { l with heap := g₂ } (f entries) (fun _ hb => hb) rfl
  refine hencode.bind ?_
  intro packed l₃ hm
  refine (sdkDrop_normally (P := fun _ => Merged l g₁.live packed) fun h' hd => ?_).bind ?_
  · exact hm.drop hd (fun b hb => (hown₂ b hb).1) hx₂.suffix.subset fun b hb hmem => (hown₂ b hmem).2 hb
  intro _ l₄ hm₄
  refine (sdkDrop_normally (P := fun _ => Merged l l.heap.live packed) fun h' hd => ?_).bind ?_
  · exact hm₄.drop hd (fun b hb => (hown₁ b hb).1) hx₁.suffix.subset fun b hb hmem => (hown₁ b hmem).2 hb
  intro _ l₅ hm₅
  exact Prog.Normally.pure hm₅

/-! ### The releases -/

/-- The two releases of `decode_result`; a block held from before is held afterwards. -/
theorem releaseResult_normally {b : Block} {payload desc len : UInt32} (r : MergeResult)
    {kept : List Block} (hp : Payload kept l payload desc len) (hreleased : l.released = []) (hb : Held b l)
    (hb₀ : b ∈ kept) :
    Prog.Normally (Step f) Disciplined (fun _ => Held b)
      (do callDealloc payload (max len 1) 1; callDealloc desc 8 4; pure r) l := by
  obtain ⟨older, hlive, hold⟩ := hp.live
  -- The three blocks are different: they are live together.
  obtain ⟨hdescPayload, hne⟩ := l.heap.ne_of_live_cons_cons hlive
  obtain ⟨hbDesc, hbPayload⟩ := hne b (hold hb₀)
  have hpayload : Held (blockOf payload (max len 1) 1) l := by
    rw [blockOf_max]
    refine ⟨?_, hp.payload, hreleased ▸ List.not_mem_nil⟩
    rw [hlive]
    exact List.mem_cons_of_mem _ List.mem_cons_self
  have hdesc : Held (blockOf desc 8 4) l := by
    refine ⟨?_, hp.desc, hreleased ▸ List.not_mem_nil⟩
    rw [hlive]
    exact List.mem_cons_self
  refine (callDealloc_normally (P := fun _ l' => Held (blockOf desc 8 4) l' ∧ Held b l') hpayload ?_).bind ?_
  · intro h' hfree
    rw [blockOf_max] at hfree ⊢
    exact ⟨hdesc.release hfree hdescPayload, hb.release hfree hbPayload⟩
  intro _ l₁ hheld
  obtain ⟨hdesc₁, hb₁⟩ := hheld
  refine (callDealloc_normally (P := fun _ => Held b) hdesc₁ ?_).bind ?_
  · intro h' hfree
    exact hb₁.release hfree hbDesc
  intro _ l₂ hb₂
  exact Prog.Normally.pure hb₂

theorem decodeResult_normally {b : Block} {packed : UInt64} (hb : Start b l₀)
    (hm : Merged l₀ l₀.heap.live packed l) :
    Prog.Normally (Step f) Disciplined (fun _ => Held b) (decodeResult packed) l := by
  have hreleased : l.released = [] := hm.released.trans hb.released
  have hheld (hlive : b ∈ l.heap.live) : Held b l :=
    ⟨hlive, hm.granted hb.held.granted, hreleased ▸ List.not_mem_nil⟩
  obtain ⟨hplain, hkept⟩ | ⟨payload, desc, len, rfl, hp⟩ := hm.result
  · have hb' := hheld (hkept hb.held.live)
    obtain rfl | ⟨i, rfl⟩ := hplain
    · exact Prog.Normally.pure hb'
    · unfold decodeResult decodeResultWith
      rw [tag_pack]
      exact Prog.Normally.pure hb'
  · have hb' : Held b l := by
      obtain ⟨older, hlive, hold⟩ := hp.live
      apply hheld
      rw [hlive]
      exact List.mem_cons_of_mem _ (List.mem_cons_of_mem _ (hold hb.held.live))
    unfold decodeResult decodeResultWith
    rw [tag_pack, high_pack]
    refine (memoryRead_normally (P := fun bytes l' => bytes = le32 payload ++ le32 len ∧ l = l') ?_).bind ?_
    · intro bytes hread
      rw [read_descriptor hp.holds, Option.some.injEq] at hread
      exact ⟨hread.symm, rfl⟩
    rintro _ _ ⟨rfl, rfl⟩
    rw [descriptor_ptr, descriptor_len]
    refine (require_normally _ _).bind ?_
    rintro _ _ ⟨-, rfl⟩
    refine (memoryRead_normally (P := fun _ l' => l = l') fun _ _ => rfl).bind ?_
    rintro buf _ rfl
    exact releaseResult_normally _ hp hreleased hb' hb.held.live

theorem invoke_normally (es : List Entry) (hl : l.released = []) :
    Prog.Normally (Step f) Disciplined (fun _ _ => True) (invoke es) l := by
  refine (writeEntries_normally es hl).bind fun enc l₁ hstart => ?_
  refine (callMerge_normally (mcgwMerge_normally _ _)).bind fun packed l₂ hm => ?_
  refine (decodeResult_normally hstart hm).bind fun r l₃ hheld => ?_
  refine (callDealloc_normally (P := fun _ _ => True) hheld fun _ _ => trivial).bind fun _ l₄ _ => ?_
  exact Prog.Normally.pure trivial

end guest

end Ledger

end McGateway.Wasm
