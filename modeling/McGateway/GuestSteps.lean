import McGateway.GuestSdk

/-! # What the guest does

`SdkStep` and `HostStep` are the assumptions on a guest built with the SDK around a user function:
its allocator returns non-null blocks in bounds, of the requested layout and disjoint from the live
ones (this is what the invariants of `LinearMemory.Heap` say of the heap after an allocation), and
no call traps or overruns its deadline.  Loads and stores that are out of bounds fail.

The rules `…_ensures` give each call of the host and of the SDK its specification under these
assumptions.  An instance with an allocator that bumps a pointer meets them as long as it has room
(`bumpHost_conforms`). -/

namespace McGateway.Wasm

open McGateway.Core
open LinearMemory

abbrev GuestHeap := Heap maxGuestMemoryBytes

/-! ### Steps -/

/-- The block of an allocation, with the layout that the SDK normalises the request to. -/
def blockOf (ptr size align : UInt32) : Block := ⟨ptr.toNat, max size.toNat 1, max align.toNat 1⟩

/-- What the calls of the SDK may do. -/
inductive SdkStep : (op : SdkOp) → GuestHeap → op.Answer → GuestHeap → Prop where
  | alloc {size align ptr : UInt32} {h h' : GuestHeap} :
      h.Allocates (blockOf ptr size align) h' → SdkStep (.alloc size align) h (.ok ptr) h'
  | peek (h : GuestHeap) : SdkStep .peek h h.mem h
  | store {address : UInt32} {bytes : Bytes} {h h' : GuestHeap} :
      h.write address.toNat bytes = some h' → SdkStep (.store address bytes) h (.ok ()) h'
  | storeFault {address : UInt32} {bytes : Bytes} {h : GuestHeap} :
      h.write address.toNat bytes = none → SdkStep (.store address bytes) h (.error .trap) h
  | compute {h h' : GuestHeap} {own : List Block} :
      h.Extends h' → (∀ b ∈ own, b ∈ h'.live ∧ b ∉ h.live) → SdkStep .compute h (.ok own) h'
  | drop {blocks : List Block} {h h' : GuestHeap} :
      h.Drops blocks h' → SdkStep (.drop blocks) h (.ok ()) h'

/-- What the calls of the host may do, for a guest built around `f`.  Releasing a block that is not
live has no defined effect. -/
inductive HostStep (f : List Entry → Sdk.MergeResult) :
    (op : GuestOp) → GuestHeap → op.Answer → GuestHeap → Prop where
  | alloc {size align ptr : UInt32} {h h' : GuestHeap} :
      h.Allocates (blockOf ptr size align) h' → HostStep f (.alloc size align) h (.ok ptr) h'
  | dealloc {ptr size align : UInt32} {h h' : GuestHeap} :
      (blockOf ptr size align ∈ h.live → h.Frees (blockOf ptr size align) h') →
      HostStep f (.dealloc ptr size align) h (.ok ()) h'
  | merge {ptr count : UInt32} {h h' : GuestHeap} {r : Except Fault UInt64} :
      (mcgwMerge f ptr count).run.Returns SdkStep h r h' → HostStep f (.merge ptr count) h r h'
  | read {offset len : ℕ} (h : GuestHeap) : HostStep f (.read offset len) h (h.mem.read offset len) h
  | write {offset : ℕ} {bytes : Bytes} {h h' : GuestHeap} :
      h.write offset bytes = some h' → HostStep f (.write offset bytes) h (some ()) h'
  | writeFault {offset : ℕ} {bytes : Bytes} {h : GuestHeap} :
      h.write offset bytes = none → HostStep f (.write offset bytes) h none h

/-- Only live blocks are released. -/
def Releases (op : GuestOp) (h _ : GuestHeap) : Prop :=
  ∀ ptr size align, op = .dealloc ptr size align → blockOf ptr size align ∈ h.live

/-- The SDK's own calls are not restricted. -/
def Unrestricted (_ : SdkOp) (_ _ : GuestHeap) : Prop := True

/-! ### Rules -/

section rules
variable {f : List Entry → Sdk.MergeResult} {h : GuestHeap}

theorem callAlloc_ensures {size align : UInt32} {P : UInt32 → GuestHeap → Prop}
    (hP : ∀ ptr h', h.Allocates (blockOf ptr size align) h' → P ptr h') :
    Prog.Ensures (HostStep f) Releases P (callAlloc size align) h := by
  intro r h' hstep
  cases hstep with
  | alloc ha => exact ⟨by simp [Releases], _, rfl, hP _ _ ha⟩

theorem callDealloc_ensures {ptr size align : UInt32} {P : Unit → GuestHeap → Prop}
    (hlive : blockOf ptr size align ∈ h.live)
    (hP : ∀ h', h.Frees (blockOf ptr size align) h' → P () h') :
    Prog.Ensures (HostStep f) Releases P (callDealloc ptr size align) h := by
  intro r h' hstep
  cases hstep with
  | dealloc hfree =>
      refine ⟨?_, (), rfl, hP _ (hfree hlive)⟩
      rintro ptr' size' align' ⟨⟩
      exact hlive

theorem callMerge_ensures {ptr count : UInt32} {P : UInt64 → GuestHeap → Prop}
    (hguest : Prog.Ensures SdkStep Unrestricted P (mcgwMerge f ptr count) h) :
    Prog.Ensures (HostStep f) Releases P (callMerge ptr count) h := by
  intro r h' hstep
  cases hstep with
  | merge hrun =>
      obtain ⟨packed, rfl, hp⟩ := Prog.Guarantees.returns hguest hrun
      exact ⟨by simp [Releases], packed, rfl, hp⟩

theorem memoryRead_ensures {offset len : ℕ} {bytes : Bytes} {P : Bytes → GuestHeap → Prop}
    (hread : h.mem.read offset len = some bytes) (hP : P bytes h) :
    Prog.Ensures (HostStep f) Releases P (memoryRead offset len) h := by
  intro r h' hstep
  cases hstep with
  | read =>
      rw [hread]
      exact ⟨by simp [Releases], bytes, rfl, hP⟩

theorem memoryWrite_ensures {offset : ℕ} {bytes : Bytes} {h' : GuestHeap} {P : Unit → GuestHeap → Prop}
    (hwrite : h.write offset bytes = some h') (hP : P () h') :
    Prog.Ensures (HostStep f) Releases P (memoryWrite offset bytes) h := by
  intro r h₁ hstep
  cases hstep with
  | write hw =>
      rw [hwrite, Option.some.injEq] at hw
      subst hw
      exact ⟨by simp [Releases], (), rfl, hP⟩
  | writeFault hw =>
      rw [hwrite] at hw
      cases hw

theorem sdkAlloc_ensures {size align : UInt32} {P : UInt32 → GuestHeap → Prop}
    (hP : ∀ ptr h', h.Allocates (blockOf ptr size align) h' → P ptr h') :
    Prog.Ensures SdkStep Unrestricted P (sdkAlloc size align) h := by
  intro r h' hstep
  cases hstep with
  | alloc ha => exact ⟨trivial, _, rfl, hP _ _ ha⟩

theorem sdkStore_ensures {address : UInt32} {bytes : Bytes} {h' : GuestHeap}
    {P : Unit → GuestHeap → Prop} (hwrite : h.write address.toNat bytes = some h') (hP : P () h') :
    Prog.Ensures SdkStep Unrestricted P (sdkStore address bytes) h := by
  intro r h₁ hstep
  cases hstep with
  | store hw =>
      rw [hwrite, Option.some.injEq] at hw
      subst hw
      exact ⟨trivial, (), rfl, hP⟩
  | storeFault hw =>
      rw [hwrite] at hw
      cases hw

theorem sdkCompute_ensures {P : List Block → GuestHeap → Prop}
    (hP : ∀ own h', h.Extends h' → (∀ b ∈ own, b ∈ h'.live ∧ b ∉ h.live) → P own h') :
    Prog.Ensures SdkStep Unrestricted P sdkCompute h := by
  intro r h' hstep
  cases hstep with
  | compute hx hown => exact ⟨trivial, _, rfl, hP _ _ hx hown⟩

theorem sdkDrop_ensures {blocks : List Block} {P : Unit → GuestHeap → Prop}
    (hP : ∀ h', h.Drops blocks h' → P () h') :
    Prog.Ensures SdkStep Unrestricted P (sdkDrop blocks) h := by
  intro r h' hstep
  cases hstep with
  | drop hd => exact ⟨trivial, (), rfl, hP _ hd⟩

theorem sdkDecode_ensures {ptr count : UInt32} {es : List Entry} {P : List Entry → GuestHeap → Prop}
    (hdecode : decodeEntries h.mem ptr count = some es) (hP : P es h) :
    Prog.Ensures SdkStep Unrestricted P (sdkDecode ptr count) h := by
  intro r h' hstep
  cases hstep with
  | peek =>
      refine ⟨trivial, es, ?_, hP⟩
      rw [hdecode]
      rfl

end rules

/-! ### An allocator that keeps its promises -/

/-- The first address above the live blocks. -/
def top (h : GuestHeap) : ℕ := h.live.foldr (fun b n => max (b.ptr + b.size) n) 8

theorem le_foldr_end {b : Block} : ∀ {live : List Block}, b ∈ live →
    b.ptr + b.size ≤ live.foldr (fun b n => max (b.ptr + b.size) n) 8
  | c :: live, hb => by
      rw [List.foldr_cons]
      rcases List.mem_cons.mp hb with rfl | hb
      · exact le_max_left _ _
      · exact (le_foldr_end hb).trans (le_max_right _ _)

theorem eight_le_foldr_end : ∀ live : List Block,
    8 ≤ live.foldr (fun b n => max (b.ptr + b.size) n) 8
  | [] => le_rfl
  | _ :: live => (eight_le_foldr_end live).trans (le_max_right _ _)

/-- Allocate above the live blocks. -/
def bump (h : GuestHeap) (size align : ℕ) (hpos : 0 < size) (hfit : top h + size ≤ h.mem.size) :
    GuestHeap where
  mem := h.mem
  live := ⟨top h, size, align⟩ :: h.live
  placed := by
    intro b hb
    rcases List.mem_cons.mp hb with rfl | hb
    · exact ⟨(Nat.succ_pos 7).trans_le (eight_le_foldr_end h.live), hpos, hfit⟩
    · exact h.placed b hb
  disjoint := List.pairwise_cons.mpr ⟨fun _ hb => Or.inr (le_foldr_end hb), h.disjoint⟩

/-- Release a block. -/
def release (h : GuestHeap) (b : Block) : GuestHeap where
  mem := h.mem
  live := h.live.erase b
  placed := fun c hc => h.placed c (List.mem_of_mem_erase hc)
  disjoint := h.disjoint.sublist List.erase_sublist

/-- Release several blocks. -/
def releaseAll (h : GuestHeap) (blocks : List Block) : GuestHeap where
  mem := h.mem
  live := h.live.filter (· ∉ blocks)
  placed := fun c hc => h.placed c (List.mem_of_mem_filter hc)
  disjoint := h.disjoint.sublist List.filter_sublist

/-- The answer of the allocator that bumps. -/
def bumpAlloc (size align : UInt32) (h : GuestHeap) : Except Fault UInt32 × GuestHeap :=
  if hfit : top h + max size.toNat 1 ≤ h.mem.size then
    (.ok (UInt32.ofNat (top h)), bump h (max size.toNat 1) (max align.toNat 1) (by omega) hfit)
  else (.error .trap, h)

/-- There is room for the block. -/
def hasRoom (size : UInt32) (h : GuestHeap) : Bool := top h + max size.toNat 1 ≤ h.mem.size

theorem bumpAlloc_allocates {size : UInt32} {h : GuestHeap} (align : UInt32) (hroom : hasRoom size h = true) :
    ∃ ptr, (bumpAlloc size align h).1 = .ok ptr ∧
      h.Allocates (blockOf ptr size align) (bumpAlloc size align h).2 := by
  have hfit : top h + max size.toNat 1 ≤ h.mem.size := of_decide_eq_true hroom
  have htop : (UInt32.ofNat (top h)).toNat = top h := by
    have := h.mem.size_le
    have := cap_lt
    exact toNat_ofNat_of_lt (by omega)
  unfold bumpAlloc
  rw [dif_pos hfit]
  refine ⟨_, rfl, ?_, le_rfl, fun _ _ _ _ _ => rfl⟩
  unfold blockOf
  rw [htop]
  rfl

def bumpSdk : (op : SdkOp) → GuestHeap → op.Answer × GuestHeap
  | .alloc size align, h => bumpAlloc size align h
  | .peek, h => (h.mem, h)
  | .store address bytes, h =>
      ((h.write address.toNat bytes).elim (.error .trap) fun _ => .ok (),
        (h.write address.toNat bytes).getD h)
  | .compute, h => (.ok [], h)
  | .drop blocks, h => (.ok (), releaseAll h blocks)

def sdkRoom : SdkOp → GuestHeap → Bool
  | .alloc size _, h => hasRoom size h
  | _, _ => true

theorem bumpSdk_step (op : SdkOp) (h : GuestHeap) (hroom : sdkRoom op h = true) :
    SdkStep op h (bumpSdk op h).1 (bumpSdk op h).2 := by
  cases op with
  | alloc size align =>
      obtain ⟨ptr, hptr, ha⟩ := bumpAlloc_allocates align hroom
      unfold bumpSdk
      rw [hptr]
      exact .alloc ha
  | peek => exact .peek h
  | store address bytes =>
      simp only [bumpSdk]
      cases hw : h.write address.toNat bytes with
      | none => exact .storeFault hw
      | some h' => exact .store hw
  | compute => exact .compute (.refl h) (by simp)
  | drop blocks => exact .drop ⟨rfl, le_rfl, fun _ _ _ _ _ => rfl⟩

/-- An instance built around `f` whose allocator bumps. -/
def bumpHost (f : List Entry → Sdk.MergeResult) : (op : GuestOp) → GuestHeap → op.Answer × GuestHeap
  | .alloc size align, h => bumpAlloc size align h
  | .dealloc ptr size align, h => (.ok (), release h (blockOf ptr size align))
  | .merge ptr count, h => (mcgwMerge f ptr count).run.run bumpSdk h
  | .read offset len, h => (h.mem.read offset len, h)
  | .write offset bytes, h => ((h.write offset bytes).map fun _ => (), (h.write offset bytes).getD h)

def hostRoom (f : List Entry → Sdk.MergeResult) : GuestOp → GuestHeap → Bool
  | .alloc size _, h => hasRoom size h
  | .merge ptr count, h => (mcgwMerge f ptr count).run.alongRun sdkRoom bumpSdk h
  | _, _ => true

theorem bumpHost_step {f : List Entry → Sdk.MergeResult} (op : GuestOp) (h : GuestHeap)
    (hroom : hostRoom f op h = true) : HostStep f op h (bumpHost f op h).1 (bumpHost f op h).2 := by
  cases op with
  | alloc size align =>
      obtain ⟨ptr, hptr, ha⟩ := bumpAlloc_allocates align hroom
      unfold bumpHost
      rw [hptr]
      exact .alloc ha
  | dealloc ptr size align => exact .dealloc fun _ => ⟨rfl, le_rfl, fun _ _ _ _ _ => rfl⟩
  | merge ptr count =>
      have hconf : (mcgwMerge f ptr count).run.Conforms SdkStep id bumpSdk h :=
        Prog.conforms_of_alongRun bumpSdk_step hroom
      exact .merge hconf.returns
  | read offset len => exact .read h
  | write offset bytes =>
      simp only [bumpHost]
      cases hw : h.write offset bytes with
      | none => exact .writeFault hw
      | some h' => exact .write hw

/-- The assumptions on the guest can be met: this instance conforms as long as it has room. -/
theorem bumpHost_conforms {f : List Entry → Sdk.MergeResult} {α : Type} {p : Prog GuestCalls α}
    {h : GuestHeap} (hroom : p.alongRun (hostRoom f) (bumpHost f) h = true) :
    p.Conforms (HostStep f) id (bumpHost f) h :=
  Prog.conforms_of_alongRun bumpHost_step hroom

/-- A fresh instance with one page of memory. -/
def onePage : GuestHeap := ⟨⟨65536, fun _ => 0, by decide⟩, [], by simp, .nil⟩

end McGateway.Wasm
