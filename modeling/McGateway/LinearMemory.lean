import Mathlib

/-! # Linear memory and its heap

A bounds-checked byte memory with a heap of allocated blocks, as code compiled for a 32-bit
machine with a single linear memory has it, and little-endian numbers in it.

* `Memory cap` is a memory of at most `cap` bytes; `Memory.Holds m p bs` says that `bs` is at `p`.
* `Heap cap` is a memory with its live blocks: non-null, in bounds and pairwise disjoint.  An
  allocation (`Heap.Allocates`), a release (`Heap.Frees`) or the release of several blocks
  (`Heap.Drops`) may change any byte outside the live blocks, so the bookkeeping of the allocator is
  not modelled but allowed.
* `Heap.Extends` is what survives: the old blocks are live and unchanged.  Facts of the form
  `Heap.Stored h p bs` (the bytes are in a live block) are stable under it.
* `Heap.Filling h₀ b content h` follows a block that is filled from its start by consecutive
  writes. -/

namespace LinearMemory

/-! ### Little-endian numbers -/

/-- The `w` low bytes of `n`, least significant first. -/
def toLE : ℕ → ℕ → List UInt8
  | 0, _ => []
  | w + 1, n => UInt8.ofNat n :: toLE w (n / 256)

def ofLE : List UInt8 → ℕ
  | [] => 0
  | b :: bs => b.toNat + 256 * ofLE bs

@[simp] theorem length_toLE : ∀ w n : ℕ, (toLE w n).length = w
  | 0, _ => rfl
  | w + 1, n => by
      unfold toLE
      rw [List.length_cons, length_toLE w]

theorem ofLE_toLE : ∀ {w n : ℕ}, n < 256 ^ w → ofLE (toLE w n) = n
  | 0, n, h => by
      unfold toLE ofLE
      omega
  | w + 1, n, h => by
      have hdiv : n / 256 < 256 ^ w := by
        rw [pow_succ] at h
        exact Nat.div_lt_of_lt_mul (by omega)
      unfold toLE ofLE
      rw [ofLE_toLE hdiv, UInt8.toNat_ofNat']
      omega

theorem ofLE_lt : ∀ bs : List UInt8, ofLE bs < 256 ^ bs.length
  | [] => by decide
  | b :: bs => by
      have hb : b.toNat < 256 := b.toNat_lt
      have ih := ofLE_lt bs
      unfold ofLE
      rw [List.length_cons, pow_succ]
      omega

/-! ### Memory -/

/-- A memory of at most `cap` bytes. -/
structure Memory (cap : ℕ) where
  size : ℕ
  byte : ℕ → UInt8
  size_le : size ≤ cap

variable {cap : ℕ}

namespace Memory

def read (m : Memory cap) (p len : ℕ) : Option (List UInt8) :=
  if p + len ≤ m.size then some ((List.range len).map fun i => m.byte (p + i)) else none

theorem length_of_read {m : Memory cap} {p len : ℕ} {bs : List UInt8} (h : m.read p len = some bs) :
    bs.length = len := by
  unfold read at h
  split_ifs at h
  cases h
  simp

/-- The memory with the bytes `bs` at `p`. -/
def patch (m : Memory cap) (p : ℕ) (bs : List UInt8) : Memory cap :=
  { m with byte := fun a => if p ≤ a then bs[a - p]?.getD (m.byte a) else m.byte a }

/-- The bytes `bs` are at `p`. -/
structure Holds (m : Memory cap) (p : ℕ) (bs : List UInt8) : Prop where
  inBounds : p + bs.length ≤ m.size
  byte : ∀ i b, bs[i]? = some b → m.byte (p + i) = b

theorem Holds.read {m : Memory cap} {p : ℕ} {bs : List UInt8} (h : m.Holds p bs) :
    m.read p bs.length = some bs := by
  unfold Memory.read
  rw [if_pos h.inBounds]
  refine congrArg some (List.ext_getElem (by simp) ?_)
  intro i _ hi
  rw [List.getElem_map, List.getElem_range]
  exact h.byte i _ (List.getElem?_eq_getElem hi)

theorem holds_nil {m : Memory cap} {p : ℕ} (h : p ≤ m.size) : m.Holds p [] :=
  ⟨h, by simp⟩

theorem holds_append {m : Memory cap} {p : ℕ} {bs cs : List UInt8} :
    m.Holds p (bs ++ cs) ↔ m.Holds p bs ∧ m.Holds (p + bs.length) cs := by
  constructor
  · rintro ⟨hlen, hbyte⟩
    rw [List.length_append] at hlen
    refine ⟨⟨by omega, ?_⟩, ⟨by omega, ?_⟩⟩
    · intro i b hb
      apply hbyte
      rw [List.getElem?_append_left (List.getElem?_eq_some_iff.mp hb).1, hb]
    · intro i b hb
      rw [Nat.add_assoc]
      apply hbyte
      rw [List.getElem?_append_right (Nat.le_add_right _ _), Nat.add_sub_cancel_left, hb]
  · rintro ⟨⟨_, hbs⟩, ⟨hlen, hcs⟩⟩
    refine ⟨by rw [List.length_append]; omega, ?_⟩
    intro i b hb
    by_cases hi : i < bs.length
    · rw [List.getElem?_append_left hi] at hb
      exact hbs i b hb
    · rw [List.getElem?_append_right (by omega)] at hb
      have := hcs _ b hb
      rwa [show p + bs.length + (i - bs.length) = p + i by omega] at this

theorem Holds.of_eq {m m' : Memory cap} {p : ℕ} {bs : List UInt8} (h : m.Holds p bs)
    (hsize : m.size ≤ m'.size) (heq : ∀ a, p ≤ a → a < p + bs.length → m'.byte a = m.byte a) :
    m'.Holds p bs := by
  refine ⟨h.inBounds.trans hsize, ?_⟩
  intro i b hb
  have hi := (List.getElem?_eq_some_iff.mp hb).1
  rw [heq _ (by omega) (by omega)]
  exact h.byte i b hb

theorem patch_byte_of_outside (m : Memory cap) {p a : ℕ} {bs : List UInt8}
    (h : a < p ∨ p + bs.length ≤ a) : (m.patch p bs).byte a = m.byte a := by
  simp only [patch]
  split_ifs with hp
  · rw [List.getElem?_eq_none (by omega), Option.getD_none]
  · rfl

theorem patch_holds (m : Memory cap) {p : ℕ} {bs : List UInt8} (h : p + bs.length ≤ m.size) :
    (m.patch p bs).Holds p bs := by
  refine ⟨h, ?_⟩
  intro i b hb
  simp [patch, hb]

end Memory

/-! ### The heap -/

structure Block where
  ptr : ℕ
  size : ℕ
  align : ℕ
deriving DecidableEq, Repr

/-- The range of `n` bytes at `p` is inside the block. -/
def Block.Covers (b : Block) (p n : ℕ) : Prop := b.ptr ≤ p ∧ p + n ≤ b.ptr + b.size

def Block.Disjoint (b c : Block) : Prop := b.ptr + b.size ≤ c.ptr ∨ c.ptr + c.size ≤ b.ptr

/-- A memory with its live blocks, the latest first. -/
structure Heap (cap : ℕ) where
  mem : Memory cap
  live : List Block
  placed : ∀ b ∈ live, 0 < b.ptr ∧ 0 < b.size ∧ b.ptr + b.size ≤ mem.size
  disjoint : live.Pairwise Block.Disjoint

/-- The blocks have the same content in both memories. -/
structure Keeps (blocks : List Block) (m m' : Memory cap) : Prop where
  size_le : m.size ≤ m'.size
  byte : ∀ b ∈ blocks, ∀ a, b.ptr ≤ a → a < b.ptr + b.size → m'.byte a = m.byte a

namespace Heap

/-- A bounds-checked write. -/
def write (h : Heap cap) (p : ℕ) (bs : List UInt8) : Option (Heap cap) :=
  if p + bs.length ≤ h.mem.size then some ⟨h.mem.patch p bs, h.live, h.placed, h.disjoint⟩ else none

theorem live_of_write {h h' : Heap cap} {p : ℕ} {bs : List UInt8} (hw : h.write p bs = some h') :
    h'.live = h.live := by
  unfold write at hw
  split_ifs at hw
  cases hw
  rfl

/-- The block `b` is allocated. -/
def Allocates (h : Heap cap) (b : Block) (h' : Heap cap) : Prop :=
  h'.live = b :: h.live ∧ Keeps h.live h.mem h'.mem

/-- The block `b` is released. -/
def Frees (h : Heap cap) (b : Block) (h' : Heap cap) : Prop :=
  h'.live = h.live.erase b ∧ Keeps h'.live h.mem h'.mem

/-- The blocks of the list are released. -/
def Drops (h : Heap cap) (blocks : List Block) (h' : Heap cap) : Prop :=
  h'.live = h.live.filter (· ∉ blocks) ∧ Keeps h'.live h.mem h'.mem

/-- The blocks of `h` are still live, and unchanged. -/
structure Extends (h h' : Heap cap) : Prop where
  suffix : h.live <:+ h'.live
  keeps : Keeps h.live h.mem h'.mem

theorem Extends.refl (h : Heap cap) : Extends h h :=
  ⟨List.suffix_refl _, le_rfl, fun _ _ _ _ _ => rfl⟩

theorem Extends.trans {h₁ h₂ h₃ : Heap cap} (h : Extends h₁ h₂) (h' : Extends h₂ h₃) :
    Extends h₁ h₃ := by
  refine ⟨h.suffix.trans h'.suffix, h.keeps.size_le.trans h'.keeps.size_le, ?_⟩
  intro b hb a hl hu
  rw [h'.keeps.byte b (h.suffix.subset hb) a hl hu, h.keeps.byte b hb a hl hu]

theorem Extends.mem {h h' : Heap cap} (hx : Extends h h') {b : Block} (hb : b ∈ h.live) : b ∈ h'.live :=
  hx.suffix.subset hb

theorem nodup_live (h : Heap cap) : h.live.Nodup := by
  refine h.disjoint.imp_of_mem ?_
  rintro b c hb - hd rfl
  have hpos := (h.placed b hb).2.1
  unfold Block.Disjoint at hd
  omega

/-- The two latest blocks differ from each other and from the older ones. -/
theorem ne_of_live_cons_cons (h : Heap cap) {b c : Block} {older : List Block}
    (hlive : h.live = b :: c :: older) : b ≠ c ∧ ∀ x ∈ older, x ≠ b ∧ x ≠ c := by
  have hnodup := h.nodup_live
  rw [hlive, List.nodup_cons, List.nodup_cons] at hnodup
  obtain ⟨hb, hc, -⟩ := hnodup
  refine ⟨?_, fun x hx => ⟨?_, ?_⟩⟩
  · rintro rfl
    exact hb List.mem_cons_self
  · rintro rfl
    exact hb (List.mem_cons_of_mem _ hx)
  · rintro rfl
    exact hc hx

/-- A live block other than the released one stays live. -/
theorem Frees.mem {h h' : Heap cap} {b c : Block} (hf : h.Frees b h') (hc : c ∈ h.live) (hne : c ≠ b) :
    c ∈ h'.live := by
  rw [hf.1]
  exact (List.mem_erase_of_ne hne).mpr hc

theorem Drops.mem {h h' : Heap cap} {blocks : List Block} {b : Block} (hd : h.Drops blocks h')
    (hb : b ∈ h.live) (hnot : b ∉ blocks) : b ∈ h'.live := by
  rw [hd.1]
  exact List.mem_filter.mpr ⟨hb, by simpa using hnot⟩

/-- What a block holds that is not released stays. -/
theorem Drops.holds {h h' : Heap cap} {blocks : List Block} {b : Block} {p : ℕ} {bs : List UInt8}
    (hd : h.Drops blocks h') (hb : b ∈ h'.live) (hin : b.Covers p bs.length) (hm : h.mem.Holds p bs) :
    h'.mem.Holds p bs := by
  obtain ⟨hl, hu⟩ := hin
  refine hm.of_eq hd.2.size_le ?_
  intro a ha ha'
  exact hd.2.byte b hb a (by omega) (by omega)

/-! ### Stored bytes -/

/-- The bytes are in a live block. -/
def Stored (h : Heap cap) (p : ℕ) (bs : List UInt8) : Prop :=
  ∃ b ∈ h.live, b.Covers p bs.length ∧ h.mem.Holds p bs

theorem Stored.read {h : Heap cap} {p : ℕ} {bs : List UInt8} (hs : h.Stored p bs) :
    h.mem.read p bs.length = some bs := by
  obtain ⟨_, _, _, hm⟩ := hs
  exact hm.read

theorem Stored.mono {h h' : Heap cap} {p : ℕ} {bs : List UInt8} (hs : h.Stored p bs)
    (hx : Extends h h') : h'.Stored p bs := by
  obtain ⟨b, hb, ⟨hl, hu⟩, hm⟩ := hs
  refine ⟨b, hx.mem hb, ⟨hl, hu⟩, hm.of_eq hx.keeps.size_le ?_⟩
  intro a ha ha'
  exact hx.keeps.byte b hb a (by omega) (by omega)

theorem Stored.split {h : Heap cap} {p : ℕ} {bs cs : List UInt8} (hs : h.Stored p (bs ++ cs)) :
    h.Stored p bs ∧ h.Stored (p + bs.length) cs := by
  obtain ⟨b, hb, ⟨hl, hu⟩, hm⟩ := hs
  rw [List.length_append] at hu
  obtain ⟨hm₁, hm₂⟩ := Memory.holds_append.mp hm
  exact ⟨⟨b, hb, ⟨hl, by omega⟩, hm₁⟩, ⟨b, hb, ⟨by omega, by omega⟩, hm₂⟩⟩

/-! ### Filling a fresh block -/

/-- The block `b` was allocated in `h₀`, and `content` has been written to its start. -/
structure Filling (h₀ : Heap cap) (b : Block) (content : List UInt8) (h : Heap cap) : Prop where
  live : h.live = b :: h₀.live
  keeps : Keeps h₀.live h₀.mem h.mem
  holds : h.mem.Holds b.ptr content

theorem Allocates.filling {h₀ h : Heap cap} {b : Block} (ha : h₀.Allocates b h) : Filling h₀ b [] h := by
  obtain ⟨hlive, hkeeps⟩ := ha
  have hb := (h.placed b (hlive ▸ List.mem_cons_self)).2.2
  exact ⟨hlive, hkeeps, Memory.holds_nil (by omega)⟩

namespace Filling
variable {h₀ h : Heap cap} {b : Block} {content : List UInt8}

theorem mem (hf : Filling h₀ b content h) : b ∈ h.live := by
  rw [hf.live]
  exact List.mem_cons_self

theorem toExtends (hf : Filling h₀ b content h) : Extends h₀ h :=
  ⟨hf.live ▸ List.suffix_cons b _, hf.keeps⟩

/-- The next write of the block. -/
theorem write (hf : Filling h₀ b content h) {bs : List UInt8} (hfit : content.length + bs.length ≤ b.size) :
    ∃ h', h.write (b.ptr + content.length) bs = some h' ∧ Filling h₀ b (content ++ bs) h' := by
  have hb := (h.placed b hf.mem).2.2
  have hin : b.ptr + content.length + bs.length ≤ h.mem.size := by omega
  refine ⟨_, if_pos hin, hf.live, ⟨hf.keeps.size_le, ?_⟩, ?_⟩
  · intro c hc a hl hu
    have hdisj : b.Disjoint c := by
      have hp := h.disjoint
      rw [hf.live] at hp
      exact List.rel_of_pairwise_cons hp hc
    rw [Memory.patch_byte_of_outside]
    · exact hf.keeps.byte c hc a hl hu
    · unfold Block.Disjoint at hdisj
      omega
  · rw [Memory.holds_append]
    refine ⟨hf.holds.of_eq le_rfl ?_, Memory.patch_holds _ hin⟩
    intro a _ hu
    exact Memory.patch_byte_of_outside _ (Or.inl hu)

theorem stored (hf : Filling h₀ b content h) (hfit : content.length ≤ b.size) : h.Stored b.ptr content :=
  ⟨b, hf.mem, ⟨le_rfl, by omega⟩, hf.holds⟩

end Filling

end Heap

end LinearMemory
