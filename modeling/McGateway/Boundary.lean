import McGateway.GuestSteps

/-! # The boundary between host and guest

Running a merge through the guest equals running it natively (`wasm_equals_native`).

The proof follows the data.  A slot is a field that the host has stored (`Slot`, `Located`); the
records that refer to the slots are what `decode_entries` reads (`decodeEntries_encoded`); the
packed result with its descriptor is what `decode_result` reads (`Packed`).  All of these facts are
about live blocks, so they survive whatever the guest does in between. -/

namespace McGateway.Wasm

open McGateway.Core
open Bytes (validUtf8)
open LinearMemory

/-! ### Slots -/

/-- A field that the host has stored. -/
structure Slot (h : GuestHeap) (slot : UInt32 × UInt32) (bytes : Bytes) : Prop where
  nonnull : slot.1 ≠ 0
  len : slot.2.toNat = bytes.length
  stored : h.Stored slot.1.toNat bytes

/-- A field that may be absent. -/
def OptionalSlot (h : GuestHeap) (slot : UInt32 × UInt32) : Option Bytes → Prop
  | some bytes => Slot h slot bytes
  | none => slot.1 = 0

/-- The fields of an entry. -/
structure Located (h : GuestHeap) (fields : FieldPtrs) (e : Entry) : Prop where
  key : Slot h fields.key e.key
  pool : Slot h fields.pool e.pool
  value : OptionalSlot h fields.value e.value
  line : OptionalSlot h fields.line e.line

theorem Slot.mono {h h' : GuestHeap} {slot : UInt32 × UInt32} {bytes : Bytes} (hs : Slot h slot bytes)
    (hx : h.Extends h') : Slot h' slot bytes :=
  ⟨hs.nonnull, hs.len, hs.stored.mono hx⟩

theorem OptionalSlot.mono {h h' : GuestHeap} {slot : UInt32 × UInt32} {field : Option Bytes}
    (hs : OptionalSlot h slot field) (hx : h.Extends h') : OptionalSlot h' slot field := by
  cases field with
  | none => exact hs
  | some bytes => exact Slot.mono hs hx

theorem Located.mono {h h' : GuestHeap} {fields : FieldPtrs} {e : Entry} (hl : Located h fields e)
    (hx : h.Extends h') : Located h' fields e :=
  ⟨hl.key.mono hx, hl.pool.mono hx, hl.value.mono hx, hl.line.mono hx⟩

/-! ### Writing the fields -/

/-- The bytes of the fields of an entry, one after the other. -/
def fieldBytes (e : Entry) : Bytes := e.key ++ e.pool ++ e.value.getD [] ++ e.line.getD []

/-- The blocks that the encoding needs are small enough to be requested. -/
structure Requestable (es : List Entry) : Prop where
  fields : ∀ e ∈ es, (fieldBytes e).length < 2 ^ 32
  array : es.length * 48 < 2 ^ 32

section fields
variable {f : List Entry → Sdk.MergeResult} {h₀ h : GuestHeap} {b : Block} {content : Bytes}

theorem putField_ensures (hf : Heap.Filling h₀ b content h) {address len : UInt32} {bytes : Bytes}
    (haddr : address.toNat = b.ptr + content.length) (hfit : content.length + bytes.length ≤ b.size) :
    Prog.Ensures (HostStep f) Releases
      (fun slot h' => slot = (address, len) ∧ Heap.Filling h₀ b (content ++ bytes) h')
      (putField address len bytes) h := by
  obtain ⟨h', hwrite, hf'⟩ := hf.write hfit
  apply Prog.Ensures.bind (P := fun _ h₁ => h₁ = h')
  · rw [← haddr] at hwrite
    exact memoryWrite_ensures hwrite rfl
  · rintro _ _ rfl
    exact Prog.Ensures.pure ⟨rfl, hf'⟩

/-- The slot of an optional field at an address. -/
def optionalPtr (address len : UInt32) (field : Option Bytes) : UInt32 × UInt32 :=
  field.elim (0, 0) fun _ => (address, len)

theorem putOptional_ensures (hf : Heap.Filling h₀ b content h) {address len : UInt32}
    {field : Option Bytes} (haddr : address.toNat = b.ptr + content.length)
    (hfit : content.length + (field.getD []).length ≤ b.size) :
    Prog.Ensures (HostStep f) Releases
      (fun slot h' => slot = optionalPtr address len field ∧
        Heap.Filling h₀ b (content ++ field.getD []) h')
      (putOptional address len field) h := by
  cases field with
  | none =>
      refine Prog.Ensures.pure ⟨rfl, ?_⟩
      rwa [Option.getD_none, List.append_nil]
  | some bytes => exact putField_ensures hf haddr hfit

theorem optionalLen_eq (field : Option Bytes) (hlen : (field.getD []).length < 2 ^ 32) (err : HostError) :
    optionalLen err field = pure (UInt32.ofNat (field.getD []).length) := by
  cases field with
  | none => rfl
  | some bytes => exact tryU32_eq hlen err

end fields

theorem ensures_require {f : List Entry → Sdk.MergeResult} {h : GuestHeap} {ok : Bool} {err : HostError}
    {P : Unit → GuestHeap → Prop} (hok : ok = true) (hP : P () h) :
    Prog.Ensures (HostStep f) Releases P (require ok err) h := by
  unfold require
  rw [if_pos hok]
  exact Prog.Ensures.pure hP

theorem ne_zero_of_toNat_pos {x : UInt32} (hx : 0 < x.toNat) : x ≠ 0 := by
  rintro rfl
  exact absurd hx (by decide)

/-- An allocation whose result is checked before it is used. -/
theorem allocNonnull_ensures {f : List Entry → Sdk.MergeResult} {h : GuestHeap} {size align : UInt32}
    {α : Type} {k : UInt32 → Host α} {P : α → GuestHeap → Prop}
    (hk : ∀ ptr h', Heap.Filling h (blockOf ptr size align) [] h' →
      Prog.Ensures (HostStep f) Releases P (k ptr) h') :
    Prog.Ensures (HostStep f) Releases P
      (do let ptr ← callAlloc size align; require (ptr != 0) .allocNull; k ptr) h := by
  refine (callAlloc_ensures (P := fun ptr h' => Heap.Filling h (blockOf ptr size align) [] h')
    fun _ _ ha => ha.filling).bind ?_
  intro ptr h' hf
  have hptr : ptr ≠ 0 := ne_zero_of_toNat_pos (h'.placed _ hf.mem).1
  refine (ensures_require (P := fun _ g => h' = g) (bne_iff_ne.mpr hptr) rfl).bind ?_
  rintro _ _ rfl
  exact hk ptr h' hf

/-- The lengths of the fields of an entry, as 32-bit numbers. -/
structure Lengths (e : Entry) (keyLen poolLen valueLen lineLen : UInt32) : Prop where
  key : keyLen.toNat = e.key.length
  pool : poolLen.toNat = e.pool.length
  value : valueLen.toNat = (e.value.getD []).length
  line : lineLen.toNat = (e.line.getD []).length

theorem length_fieldBytes (e : Entry) : (fieldBytes e).length =
    e.key.length + e.pool.length + (e.value.getD []).length + (e.line.getD []).length := by
  unfold fieldBytes
  simp only [List.length_append]

theorem lengths_of_lt {e : Entry} (hsize : (fieldBytes e).length < 2 ^ 32) :
    Lengths e (UInt32.ofNat e.key.length) (UInt32.ofNat e.pool.length)
      (UInt32.ofNat (e.value.getD []).length) (UInt32.ofNat (e.line.getD []).length) := by
  rw [length_fieldBytes] at hsize
  refine ⟨?_, ?_, ?_, ?_⟩ <;> exact toNat_ofNat_of_lt (by omega)

theorem optionalSlot_of_stored {h : GuestHeap} {address len : UInt32} {field : Option Bytes}
    (hnonnull : address ≠ 0) (hlen : len.toNat = (field.getD []).length)
    (hs : h.Stored address.toNat (field.getD [])) : OptionalSlot h (optionalPtr address len field) field := by
  cases field with
  | none => rfl
  | some bytes => exact ⟨hnonnull, hlen, hs⟩

/-- The addresses of the fields do not wrap around. -/
theorem Lengths.addresses {base keyLen poolLen valueLen lineLen : UInt32} {e : Entry}
    (hl : Lengths e keyLen poolLen valueLen lineLen)
    (hbound : base.toNat + (fieldBytes e).length < 2 ^ 32) :
    (base + keyLen).toNat = base.toNat + e.key.length ∧
    (base + (keyLen + poolLen)).toNat = base.toNat + (e.key ++ e.pool).length ∧
    (base + (keyLen + poolLen + valueLen)).toNat =
      base.toNat + (e.key ++ e.pool ++ e.value.getD []).length := by
  obtain ⟨hkey, hpool, hvalue, hline⟩ := hl
  rw [length_fieldBytes] at hbound
  have h₁ : (keyLen + poolLen).toNat = e.key.length + e.pool.length := by
    rw [toNat_add_of_lt (by omega), hkey, hpool]
  have h₂ : (keyLen + poolLen + valueLen).toNat =
      e.key.length + e.pool.length + (e.value.getD []).length := by
    rw [toNat_add_of_lt (by omega), h₁, hvalue]
  refine ⟨?_, ?_, ?_⟩
  · rw [toNat_add_of_lt (by omega), hkey]
  · rw [toNat_add_of_lt (by omega), h₁, List.length_append]
  · rw [toNat_add_of_lt (by omega), h₂, List.length_append, List.length_append]

theorem FieldPtrs.place_ensures {f : List Entry → Sdk.MergeResult} {h₀ h : GuestHeap} {b : Block}
    {base keyLen poolLen valueLen lineLen : UInt32} {e : Entry} (hf : Heap.Filling h₀ b [] h)
    (hb : b.ptr = base.toNat) (hl : Lengths e keyLen poolLen valueLen lineLen)
    (hfit : (fieldBytes e).length ≤ b.size) :
    Prog.Ensures (HostStep f) Releases (fun fields h' => h₀.Extends h' ∧ Located h' fields e)
      (FieldPtrs.place base keyLen poolLen valueLen lineLen e) h := by
  obtain ⟨hnonnull, -, hin⟩ := h.placed b hf.mem
  rw [hb] at hnonnull hin
  have hbound : base.toNat + (fieldBytes e).length < 2 ^ 32 := by
    have hcap := h.mem.size_le
    have := cap_lt
    omega
  obtain ⟨a₁, a₂, a₃⟩ := hl.addresses hbound
  rw [length_fieldBytes] at hfit
  refine (putField_ensures hf (by rw [hb]; rfl) (by simp only [List.length_nil]; omega)).bind ?_
  rintro - g₁ ⟨rfl, hf⟩
  rw [List.nil_append] at hf
  refine (putField_ensures hf (by rw [hb, a₁]) (by omega)).bind ?_
  rintro - g₂ ⟨rfl, hf⟩
  refine (putOptional_ensures hf (by rw [hb, a₂]) (by rw [List.length_append]; omega)).bind ?_
  rintro - g₃ ⟨rfl, hf⟩
  refine (putOptional_ensures hf (by rw [hb, a₃])
    (by rw [List.length_append, List.length_append]; omega)).bind ?_
  rintro - g₄ ⟨rfl, hf⟩
  refine Prog.Ensures.pure ⟨hf.toExtends, ?_⟩
  obtain ⟨hs₃, hsLine⟩ := (hf.stored (by simp only [List.length_append]; omega)).split
  obtain ⟨hs₂, hsValue⟩ := hs₃.split
  obtain ⟨hsKey, hsPool⟩ := hs₂.split
  rw [hb] at hsKey hsPool hsValue hsLine
  have hnonnull₁ : 0 < (base + keyLen).toNat := by omega
  exact ⟨⟨ne_zero_of_toNat_pos hnonnull, hl.key, hsKey⟩,
    ⟨ne_zero_of_toNat_pos hnonnull₁, hl.pool, a₁ ▸ hsPool⟩,
    optionalSlot_of_stored (ne_zero_of_toNat_pos (by omega)) hl.value (a₂ ▸ hsValue),
    optionalSlot_of_stored (ne_zero_of_toNat_pos (by omega)) hl.line (a₃ ▸ hsLine)⟩

theorem FieldPtrs.write_ensures {f : List Entry → Sdk.MergeResult} (h : GuestHeap) {e : Entry}
    (hsize : (fieldBytes e).length < 2 ^ 32) :
    Prog.Ensures (HostStep f) Releases (fun fields h' => h.Extends h' ∧ Located h' fields e)
      (FieldPtrs.write e) h := by
  have hl := lengths_of_lt hsize
  have hsum := length_fieldBytes e
  unfold FieldPtrs.write
  rw [tryU32_eq (n := e.key.length) (by omega), tryU32_eq (n := e.pool.length) (by omega),
    optionalLen_eq e.value (by omega), optionalLen_eq e.line (by omega)]
  refine .pure_bind (.pure_bind (.pure_bind (.pure_bind ?_)))
  rw [hl.key, hl.pool, hl.value, hl.line, ← hsum, tryU32_eq (by omega)]
  refine .pure_bind (allocNonnull_ensures ?_)
  intro base h' hf
  refine FieldPtrs.place_ensures hf rfl hl ?_
  simp only [blockOf]
  rw [toNat_ofNat_of_lt (by omega)]
  omega

/-! ### Writing the records -/

/-- The records of the entries. -/
def records (es : List Entry) (fields : List FieldPtrs) : Bytes :=
  (es.zip fields).flatMap fun p => encodeEntry p.1 p.2

theorem length_flatMap_encodeEntry (ps : List (Entry × FieldPtrs)) :
    (ps.flatMap fun p => encodeEntry p.1 p.2).length = ps.length * 48 := by
  induction ps with
  | nil => rfl
  | cons p ps ih =>
      rw [List.flatMap_cons, List.length_append, ih, length_encodeEntry, List.length_cons]
      omega

theorem writeFields_ensures {f : List Entry → Sdk.MergeResult} : ∀ {es : List Entry} (h : GuestHeap),
    (∀ e ∈ es, (fieldBytes e).length < 2 ^ 32) →
    Prog.Ensures (HostStep f) Releases
      (fun fields h' => h.Extends h' ∧ List.Forall₂ (Located h') fields es) (writeFields es) h
  | [], h, _ => Prog.Ensures.pure ⟨.refl h, .nil⟩
  | e :: es, h, hsize => by
      refine (FieldPtrs.write_ensures h (hsize e List.mem_cons_self)).bind ?_
      rintro fields g ⟨hx, hl⟩
      refine (writeFields_ensures g fun x hmem => hsize x (List.mem_cons_of_mem _ hmem)).bind ?_
      rintro rest g' ⟨hx', hrest⟩
      exact Prog.Ensures.pure ⟨hx.trans hx', .cons (hl.mono hx') hrest⟩

theorem writeRecords_ensures {f : List Entry → Sdk.MergeResult} {h₀ : GuestHeap} {b : Block}
    {ptr : UInt32} (hb : b.ptr = ptr.toNat) : ∀ {ps : List (Entry × FieldPtrs)} {i : ℕ} {content : Bytes}
    {h : GuestHeap}, Heap.Filling h₀ b content h → content.length = i * 48 →
    content.length + ps.length * 48 ≤ b.size →
    Prog.Ensures (HostStep f) Releases
      (fun _ h' => Heap.Filling h₀ b (content ++ ps.flatMap fun p => encodeEntry p.1 p.2) h')
      (writeRecords ptr i ps) h
  | [], _, content, _, hf, _, _ => by
      apply Prog.Ensures.pure
      rwa [List.flatMap_nil, List.append_nil]
  | (e, fields) :: ps, i, content, h, hf, hlen, hfit => by
      rw [List.length_cons] at hfit
      have hroom : content.length + (encodeEntry e fields).length ≤ b.size := by
        rw [length_encodeEntry]
        omega
      obtain ⟨g, hwrite, hf'⟩ := hf.write hroom
      have haddr : ptr.toNat + i * entrySize.toNat = b.ptr + content.length := by
        rw [hb, hlen]
        rfl
      refine (memoryWrite_ensures (P := fun _ h₁ => h₁ = g) (haddr ▸ hwrite) rfl).bind ?_
      rintro _ _ rfl
      have hlen' : (content ++ encodeEntry e fields).length = (i + 1) * 48 := by
        rw [List.length_append, length_encodeEntry, hlen]
        omega
      refine (writeRecords_ensures hb hf' hlen' (by rw [hlen']; omega)).mono ?_
      intro _ h' hfill
      rwa [List.append_assoc] at hfill

/-- The entries are encoded at `ptr`. -/
structure Encoded (h : GuestHeap) (ptr count : UInt32) (es : List Entry) (fields : List FieldPtrs) : Prop where
  count : count.toNat = es.length
  located : List.Forall₂ (Located h) fields es
  records : h.Stored ptr.toNat (records es fields)

theorem Encoded.mono {h h' : GuestHeap} {ptr count : UInt32} {es : List Entry} {fields : List FieldPtrs}
    (he : Encoded h ptr count es fields) (hx : h.Extends h') : Encoded h' ptr count es fields :=
  ⟨he.count, he.located.imp fun _ _ hl => hl.mono hx, he.records.mono hx⟩

theorem le_arraySize {n : ℕ} (hn : n < 2 ^ 32) :
    n ≤ (if UInt32.ofNat n = 0 then 1 else UInt32.ofNat n).toNat := by
  have heq := toNat_ofNat_of_lt hn
  split_ifs with h0
  · rw [h0] at heq
    have : n = 0 := heq.symm
    omega
  · exact heq.ge

theorem EncodedEntries.write_ensures {f : List Entry → Sdk.MergeResult} (h : GuestHeap) {es : List Entry}
    (hes : Requestable es) :
    Prog.Ensures (HostStep f) Releases
      (fun enc h' => h.Extends h' ∧ (∃ fields, Encoded h' enc.ptr enc.count es fields) ∧
        blockOf enc.ptr enc.totalSize 8 ∈ h'.live)
      (EncodedEntries.write es) h := by
  have harray := hes.array
  have hcount := toNat_ofNat_of_lt (n := es.length) (by omega)
  unfold EncodedEntries.write
  rw [tryU32_eq (n := es.length) (by omega)]
  refine .pure_bind ?_
  refine (writeFields_ensures h hes.fields).bind ?_
  rintro fields g ⟨hx, hl⟩
  have htotal : (UInt32.ofNat es.length).toNat * entrySize.toNat = es.length * 48 := by
    rw [hcount]
    rfl
  rw [htotal, tryU32_eq harray]
  refine .pure_bind ?_
  refine allocNonnull_ensures ?_
  intro ptr g' hf
  have hzip : (es.zip fields).length = es.length := by
    rw [List.length_zip, hl.length_eq, Nat.min_self]
  have hroom : (es.zip fields).length * 48 ≤ (blockOf ptr
      (if UInt32.ofNat (es.length * 48) = 0 then 1 else UInt32.ofNat (es.length * 48)) 8).size := by
    rw [hzip]
    exact (le_arraySize harray).trans (le_max_left _ _)
  refine (writeRecords_ensures rfl hf rfl ?_).bind ?_
  · rw [List.length_nil]
    omega
  · intro _ g'' hf
    rw [List.nil_append] at hf
    have hstored := hf.stored (by rwa [length_flatMap_encodeEntry])
    have hmono := hl.imp fun _ _ hloc => Located.mono hloc hf.toExtends
    exact Prog.Ensures.pure ⟨hx.trans hf.toExtends, ⟨fields, hcount, hmono, hstored⟩, hf.mem⟩

/-! ### Decoding the entries -/

section decode
variable {h : GuestHeap}

theorem toNat_address {m : GuestMemory} {address off : UInt32} {n : ℕ}
    (hin : address.toNat + off.toNat + n ≤ m.size) : (address + off).toNat = address.toNat + off.toNat := by
  have hcap := m.size_le
  have := cap_lt
  exact toNat_add_of_lt (by omega)

theorem readU32_eq {m : GuestMemory} {record x : UInt32} (off : UInt32)
    (hm : m.Holds (record.toNat + off.toNat) (le32 x)) : readU32 m record off = some x := by
  have hread := hm.read
  rw [length_le32] at hread
  unfold readU32
  rw [toNat_address hm.inBounds, hread, Option.map_some, ofLE_le32]

theorem readI64_eq {m : GuestMemory} {record : UInt32} {x : Int64} (off : UInt32)
    (hm : m.Holds (record.toNat + off.toNat) (le64 x)) : readI64 m record off = some x := by
  have hread := hm.read
  rw [length_le64] at hread
  unfold readI64
  rw [toNat_address hm.inBounds, hread, Option.map_some, ofLE_le64]

theorem Slot.rawSlice_eq {slot : UInt32 × UInt32} {bytes : Bytes} (hs : Slot h slot bytes) :
    rawSlice h.mem slot.1 slot.2 = some bytes := by
  unfold rawSlice
  rw [hs.len]
  exact hs.stored.read

theorem OptionalSlot.optionalSlice_eq {slot : UInt32 × UInt32} {field : Option Bytes}
    (hs : OptionalSlot h slot field) : optionalSlice h.mem slot.1 slot.2 = some field := by
  unfold optionalSlice
  cases field with
  | none => exact if_pos hs
  | some bytes => rw [if_neg (Slot.nonnull hs), Slot.rawSlice_eq hs, Option.map_some]

theorem statusOfCode_statusCode (status : Status) : statusOfCode (statusCode status) = status := by
  cases status <;> rfl

theorem decodeEntry_eq {record : UInt32} {e : Entry} {fields : FieldPtrs}
    (hrec : h.Stored record.toNat (encodeEntry e fields)) (hl : Located h fields e)
    (hpool : validUtf8 e.pool = true) : decodeEntry h.mem record = some e := by
  obtain ⟨_, _, _, hm⟩ := hrec
  simp only [encodeEntry, Memory.holds_append, List.length_append, length_le32, Nat.reduceAdd] at hm
  obtain ⟨⟨⟨⟨⟨⟨⟨⟨⟨⟨h0, h4⟩, h8⟩, h12⟩, h16⟩, h20⟩, h24⟩, h28⟩, h32⟩, h36⟩, h40⟩ := hm
  unfold decodeEntry
  rw [readU32_eq 0 h0, readU32_eq 4 h4, readU32_eq 8 h8,
    readU32_eq 12 h12, readU32_eq 16 h16, readU32_eq 20 h20,
    readU32_eq 24 h24, readU32_eq 28 h28, readU32_eq 32 h32,
    readU32_eq 36 h36, readI64_eq 40 h40]
  simp only [Option.bind_eq_bind, Option.bind_some, hl.key.rawSlice_eq, hl.pool.rawSlice_eq,
    hl.value.optionalSlice_eq, hl.line.optionalSlice_eq, hpool, statusOfCode_statusCode]
  obtain ⟨key, pool, status, t, value, line⟩ := e
  cases t with
  | none => rfl
  | some t => rfl

theorem decodeFrom_eq {ptr : UInt32} : ∀ {es : List Entry} {fields : List FieldPtrs} {i : ℕ},
    List.Forall₂ (Located h) fields es → h.Stored (ptr.toNat + i * 48) (records es fields) →
    (∀ e ∈ es, validUtf8 e.pool = true) → decodeFrom h.mem ptr i es.length = some es
  | [], _, _, _, _, _ => rfl
  | e :: es, fields :: rest, i, .cons hl hls, hrec, hpool => by
      have hcons : records (e :: es) (fields :: rest) = encodeEntry e fields ++ records es rest := rfl
      rw [hcons] at hrec
      obtain ⟨hfirst, hrest⟩ := hrec.split
      have haddr : (ptr + UInt32.ofNat (i * 48)).toNat = ptr.toNat + i * 48 := by
        obtain ⟨_, _, _, hm⟩ := hfirst
        have hin := hm.inBounds
        have hcap := h.mem.size_le
        have := cap_lt
        have hoff : (UInt32.ofNat (i * 48)).toNat = i * 48 := toNat_ofNat_of_lt (by omega)
        rw [toNat_add_of_lt (by omega), hoff]
      have hnext : h.Stored (ptr.toNat + (i + 1) * 48) (records es rest) := by
        rw [length_encodeEntry] at hrest
        rwa [show ptr.toNat + (i + 1) * 48 = ptr.toNat + i * 48 + 48 by omega]
      have he := decodeEntry_eq (haddr ▸ hfirst) hl (hpool e List.mem_cons_self)
      have hes := decodeFrom_eq hls hnext fun x hx => hpool x (List.mem_cons_of_mem _ hx)
      have hsize : entrySize.toNat = 48 := rfl
      rw [List.length_cons, decodeFrom, hsize, he, hes]
      rfl

/-- The SDK decodes what the host has encoded. -/
theorem decodeEntries_encoded {ptr count : UInt32} {es : List Entry} {fields : List FieldPtrs}
    (he : Encoded h ptr count es fields) (hpool : ∀ e ∈ es, validUtf8 e.pool = true) :
    decodeEntries h.mem ptr count = some es := by
  unfold decodeEntries
  split_ifs with h0
  · have hnil : es.length = 0 := by
      rw [← he.count, h0]
      rfl
    rw [List.length_eq_zero_iff.mp hnil]
  · rw [he.count]
    have hrec := he.records
    exact decodeFrom_eq he.located (by rwa [Nat.zero_mul, Nat.add_zero]) hpool

end decode

/-! ### The result -/

/-- What the guest hands back, with the blocks that have survived the call. -/
def Packed (kept : List Block) (h : GuestHeap) (packed : UInt64) : Sdk.MergeResult → Prop
  | .miss => packed = 0 ∧ kept ⊆ h.live
  | .winner i => packed = pack i 1 ∧ kept ⊆ h.live
  | .synthesized bytes => ∃ payload desc len : UInt32, ∃ older : List Block,
      packed = pack desc 2 ∧ len.toNat = bytes.length ∧
      h.mem.Holds payload.toNat bytes ∧ h.mem.Holds desc.toNat (le32 payload ++ le32 len) ∧
      h.live = blockOf desc 8 4 :: blockOf payload len 1 :: older ∧ kept ⊆ older

section result
variable {f : List Entry → Sdk.MergeResult} {h₀ h : GuestHeap}

theorem copyPayload_ensures {payload len : UInt32} {bytes : Bytes}
    (hf : Heap.Filling h₀ (blockOf payload len 1) [] h) (hlen : len.toNat = bytes.length) :
    Prog.Ensures SdkStep Unrestricted
      (fun _ h' => Heap.Filling h₀ (blockOf payload len 1) bytes h') (copyPayload payload bytes) h := by
  unfold copyPayload
  split_ifs with hne
  · have hroom : ([] : Bytes).length + bytes.length ≤ (blockOf payload len 1).size := by
      simp only [blockOf, List.length_nil]
      omega
    obtain ⟨h', hwrite, hf'⟩ := hf.write hroom
    exact sdkStore_ensures hwrite hf'
  · rw [not_not] at hne
    subst hne
    exact Prog.Ensures.pure hf

/-- The two stores of a descriptor in its block. -/
theorem descriptor_writes {desc payload len : UInt32} (ha : h₀.Allocates (blockOf desc 8 4) h) :
    ∃ g₁ g₂, h.write desc.toNat (le32 payload) = some g₁ ∧
      g₁.write (desc + 4).toNat (le32 len) = some g₂ ∧
      Heap.Filling h₀ (blockOf desc 8 4) (le32 payload ++ le32 len) g₂ := by
  have hsize : (blockOf desc 8 4).size = 8 := rfl
  obtain ⟨g₁, hwrite₁, hf₁⟩ := ha.filling.write (show ([] : Bytes).length + (le32 payload).length ≤ _ by
    rw [length_le32, hsize]
    decide)
  rw [List.nil_append] at hf₁
  obtain ⟨g₂, hwrite₂, hf₂⟩ := hf₁.write (show (le32 payload).length + (le32 len).length ≤ _ by
    rw [length_le32, length_le32, hsize])
  have haddr : (desc + 4).toNat = desc.toNat + 4 := by
    have hin := (g₁.placed _ hf₁.mem).2.2
    rw [hsize] at hin
    exact toNat_address (n := 4) hin
  rw [length_le32] at hwrite₂
  exact ⟨g₁, g₂, hwrite₁, haddr ▸ hwrite₂, hf₂⟩

theorem writeDescriptor_ensures {desc payload len : UInt32} (ha : h₀.Allocates (blockOf desc 8 4) h) :
    Prog.Ensures SdkStep Unrestricted
      (fun _ h' => Heap.Filling h₀ (blockOf desc 8 4) (le32 payload ++ le32 len) h')
      (writeDescriptor desc payload len) h := by
  obtain ⟨g₁, g₂, hwrite₁, hwrite₂, hf⟩ := @descriptor_writes h₀ h desc payload len ha
  refine (sdkStore_ensures (P := fun _ g => g = g₁) hwrite₁ rfl).bind ?_
  rintro _ _ rfl
  exact sdkStore_ensures hwrite₂ hf

theorem encodeSynthesized_ensures {bytes : Bytes} (hsize : bytes.length < 2 ^ 32) :
    Prog.Ensures SdkStep Unrestricted (fun packed h' => Packed h.live h' packed (.synthesized bytes))
      (encodeSynthesized bytes) h := by
  have hlen := toNat_ofNat_of_lt hsize
  refine (sdkAlloc_ensures (P := fun payload g =>
    h.Allocates (blockOf payload (UInt32.ofNat bytes.length) 1) g) fun _ _ ha => ha).bind ?_
  intro payload g₁ ha₁
  refine (copyPayload_ensures ha₁.filling hlen).bind ?_
  intro _ g₂ hf₁
  refine (sdkAlloc_ensures (P := fun desc g => g₂.Allocates (blockOf desc 8 4) g) fun _ _ ha => ha).bind ?_
  intro desc g₃ ha₂
  refine (writeDescriptor_ensures ha₂).bind ?_
  intro _ g₄ hf₂
  have hpayload : g₄.mem.Holds payload.toNat bytes := by
    refine hf₁.holds.of_eq hf₂.keeps.size_le ?_
    intro a hl hu
    refine hf₂.keeps.byte _ hf₁.mem a hl ?_
    simp only [blockOf] at hl hu ⊢
    omega
  refine Prog.Ensures.pure ⟨payload, desc, UInt32.ofNat bytes.length, h.live, rfl, hlen, hpayload,
    hf₂.holds, ?_, List.Subset.refl _⟩
  rw [hf₂.live, hf₁.live]

theorem encodeResult_ensures {r : Sdk.MergeResult}
    (hsize : ∀ bytes, r = .synthesized bytes → bytes.length < 2 ^ 32) :
    Prog.Ensures SdkStep Unrestricted (fun packed h' => Packed h.live h' packed r) (encodeResult r) h := by
  cases r with
  | winner i => exact Prog.Ensures.pure ⟨rfl, List.Subset.refl _⟩
  | synthesized bytes => exact encodeSynthesized_ensures (hsize bytes rfl)
  | miss => exact Prog.Ensures.pure ⟨rfl, List.Subset.refl _⟩

/-- A drop of old blocks leaves the result alone, and the blocks that are not dropped. -/
theorem Packed.drop {kept kept' blocks : List Block} {h' : GuestHeap} {packed : UInt64} {r : Sdk.MergeResult}
    (hp : Packed kept h packed r) (hd : h.Drops blocks h') (hblocks : blocks ⊆ kept) (hkept : kept' ⊆ kept)
    (hnot : ∀ b ∈ kept', b ∉ blocks) : Packed kept' h' packed r := by
  have hlive {older : List Block} (hold : kept ⊆ older) (hin : older ⊆ h.live) : kept' ⊆ h'.live :=
    fun b hb => hd.mem (hin (hold (hkept hb))) (hnot b hb)
  cases r with
  | miss => exact ⟨hp.1, hlive hp.2 (List.Subset.refl _)⟩
  | winner i => exact ⟨hp.1, hlive hp.2 (List.Subset.refl _)⟩
  | synthesized bytes =>
      obtain ⟨payload, desc, len, older, hpacked, hlen, hpayload, hdesc, hlist, hold⟩ := hp
      -- the two new blocks are none of the old ones
      obtain ⟨-, hne⟩ := h.ne_of_live_cons_cons hlist
      have hdescNot : blockOf desc 8 4 ∉ blocks := fun hb => (hne _ (hold (hblocks hb))).1 rfl
      have hpayloadNot : blockOf payload len 1 ∉ blocks := fun hb => (hne _ (hold (hblocks hb))).2 rfl
      have hlist' : h'.live = blockOf desc 8 4 :: blockOf payload len 1 :: older.filter (· ∉ blocks) := by
        rw [hd.1, hlist, List.filter_cons_of_pos (by simpa using hdescNot),
          List.filter_cons_of_pos (by simpa using hpayloadNot)]
      refine ⟨payload, desc, len, older.filter (· ∉ blocks), hpacked, hlen, ?_, ?_, hlist', ?_⟩
      · refine hd.holds (b := blockOf payload len 1) ?_ ⟨le_rfl, ?_⟩ hpayload
        · rw [hlist']
          exact List.mem_cons_of_mem _ List.mem_cons_self
        · simp only [blockOf]
          omega
      · refine hd.holds (b := blockOf desc 8 4) ?_ ⟨le_rfl, ?_⟩ hdesc
        · rw [hlist']
          exact List.mem_cons_self
        · rw [List.length_append, length_le32, length_le32]
          exact le_rfl
      · intro b hb
        exact List.mem_filter.mpr ⟨hold (hkept hb), by simpa using hnot b hb⟩

/-- The guest applies the user function to the entries the host has encoded. -/
theorem mcgwMerge_ensures {ptr count : UInt32} {es : List Entry} {fields : List FieldPtrs}
    (he : Encoded h ptr count es fields) (hpool : ∀ e ∈ es, validUtf8 e.pool = true)
    (hsize : ∀ bytes, f es = .synthesized bytes → bytes.length < 2 ^ 32) :
    Prog.Ensures SdkStep Unrestricted (fun packed h' => Packed h.live h' packed (f es))
      (mcgwMerge f ptr count) h := by
  refine (sdkCompute_ensures (P := fun own g => h.Extends g ∧ ∀ b ∈ own, b ∈ g.live ∧ b ∉ h.live)
    fun _ _ hx hown => ⟨hx, hown⟩).bind ?_
  rintro entriesVec g₁ ⟨hx₁, hown₁⟩
  have hdecode := decodeEntries_encoded (he.mono hx₁) hpool
  refine (sdkDecode_ensures (P := fun r g => es = r ∧ g₁ = g) hdecode ⟨rfl, rfl⟩).bind ?_
  rintro _ _ ⟨rfl, rfl⟩
  refine (sdkCompute_ensures (P := fun own g => g₁.Extends g ∧ ∀ b ∈ own, b ∈ g.live ∧ b ∉ g₁.live)
    fun _ _ hx hown => ⟨hx, hown⟩).bind ?_
  rintro resultVec g₂ ⟨hx₂, hown₂⟩
  refine (encodeResult_ensures hsize).bind ?_
  intro packed g₃ hp
  refine (sdkDrop_ensures (P := fun _ g => Packed g₁.live g packed (f es)) fun g hd => ?_).bind ?_
  · exact hp.drop hd (fun b hb => (hown₂ b hb).1) hx₂.suffix.subset fun b hb hmem => (hown₂ b hmem).2 hb
  intro _ g₄ hp₄
  refine (sdkDrop_ensures (P := fun _ g => Packed h.live g packed (f es)) fun g hd => ?_).bind ?_
  · exact hp₄.drop hd (fun b hb => (hown₁ b hb).1) hx₁.suffix.subset fun b hb hmem => (hown₁ b hmem).2 hb
  intro _ g₅ hp₅
  exact Prog.Ensures.pure hp₅

/-! ### Decoding the result -/

/-- The SDK normalises the layout in the same way on both sides. -/
theorem blockOf_max (ptr len align : UInt32) : blockOf ptr (max len 1) align = blockOf ptr len align := by
  unfold blockOf
  rw [UInt32.toNat_max]
  simp

/-- The two releases of `decode_result` leave the older blocks alone. -/
theorem releaseResult_ensures {payload desc len : UInt32} {older : List Block} (r : MergeResult)
    (hlive : h.live = blockOf desc 8 4 :: blockOf payload len 1 :: older) :
    Prog.Ensures (HostStep f) Releases (fun r' h' => r' = r ∧ ∀ b ∈ older, b ∈ h'.live)
      (do callDealloc payload (max len 1) 1; callDealloc desc 8 4; pure r) h := by
  obtain ⟨hne, hold⟩ := h.ne_of_live_cons_cons hlive
  have hpayloadLive : blockOf payload (max len 1) 1 ∈ h.live := by
    rw [blockOf_max, hlive]
    exact List.mem_cons_of_mem _ List.mem_cons_self
  refine (callDealloc_ensures (P := fun _ g => h.Frees (blockOf payload (max len 1) 1) g) hpayloadLive
    fun _ hfree => hfree).bind ?_
  intro _ g₁ hfree₁
  rw [blockOf_max] at hfree₁
  have hdescLive : blockOf desc 8 4 ∈ g₁.live := by
    refine hfree₁.mem ?_ hne
    rw [hlive]
    exact List.mem_cons_self
  refine (callDealloc_ensures (P := fun _ g => g₁.Frees (blockOf desc 8 4) g) hdescLive
    fun _ hfree => hfree).bind ?_
  intro _ g₂ hfree₂
  refine Prog.Ensures.pure ⟨rfl, ?_⟩
  intro b hb
  have hb₁ : b ∈ g₁.live := by
    refine hfree₁.mem ?_ (hold b hb).2
    rw [hlive]
    exact List.mem_cons_of_mem _ (List.mem_cons_of_mem _ hb)
  exact hfree₂.mem hb₁ (hold b hb).1

theorem read_descriptor {payload desc len : UInt32} (hdesc : h.mem.Holds desc.toNat (le32 payload ++ le32 len)) :
    h.mem.read desc.toNat 8 = some (le32 payload ++ le32 len) := by
  have := hdesc.read
  rwa [List.length_append, length_le32, length_le32] at this

theorem descriptor_ptr (payload len : UInt32) :
    UInt32.ofNat (ofLE ((le32 payload ++ le32 len).take 4)) = payload := by
  rw [List.take_left' (length_le32 payload), ofLE_le32]

theorem descriptor_len (payload len : UInt32) :
    UInt32.ofNat (ofLE (((le32 payload ++ le32 len).drop 4).take 4)) = len := by
  rw [List.drop_left' (length_le32 payload), List.take_of_length_le (length_le32 len).le, ofLE_le32]

theorem decodeSynthesized_ensures {payload desc len : UInt32} {bytes : Bytes} {older : List Block}
    (hlen : len.toNat = bytes.length) (hcap : bytes.length ≤ maxGuestMemoryBytes)
    (hpayload : h.mem.Holds payload.toNat bytes) (hdesc : h.mem.Holds desc.toNat (le32 payload ++ le32 len))
    (hlive : h.live = blockOf desc 8 4 :: blockOf payload len 1 :: older) :
    Prog.Ensures (HostStep f) Releases (fun r h' => r = .synthesized bytes ∧ ∀ b ∈ older, b ∈ h'.live)
      (decodeSynthesized desc) h := by
  have hread := read_descriptor hdesc
  refine (memoryRead_ensures (P := fun r g => r = le32 payload ++ le32 len ∧ h = g) hread ⟨rfl, rfl⟩).bind ?_
  rintro _ _ ⟨rfl, rfl⟩
  rw [descriptor_ptr, descriptor_len]
  have hok : decide (len.toNat ≤ maxGuestMemoryBytes) = true := decide_eq_true (hlen ▸ hcap)
  refine (ensures_require (P := fun _ g => h = g) hok rfl).bind ?_
  rintro _ _ rfl
  have hbytes : h.mem.read payload.toNat len.toNat = some bytes := hlen ▸ hpayload.read
  refine (memoryRead_ensures (P := fun r g => r = bytes ∧ h = g) hbytes ⟨rfl, rfl⟩).bind ?_
  rintro _ _ ⟨rfl, rfl⟩
  exact releaseResult_ensures _ hlive

/-- The host decodes what the guest has packed, and keeps the blocks it had before the call. -/
theorem decodeResult_ensures {kept : List Block} {packed : UInt64} {r : Sdk.MergeResult}
    (hp : Packed kept h packed r)
    (hcap : ∀ bytes, r = .synthesized bytes → bytes.length ≤ maxGuestMemoryBytes) :
    Prog.Ensures (HostStep f) Releases (fun res h' => res = r.native ∧ ∀ b ∈ kept, b ∈ h'.live)
      (decodeResult packed) h := by
  cases r with
  | miss =>
      obtain ⟨rfl, hx⟩ := hp
      exact Prog.Ensures.pure ⟨rfl, fun _ hb => hx hb⟩
  | winner i =>
      obtain ⟨rfl, hx⟩ := hp
      unfold decodeResult decodeResultWith
      rw [tag_pack, high_pack]
      exact Prog.Ensures.pure ⟨rfl, fun _ hb => hx hb⟩
  | synthesized bytes =>
      obtain ⟨payload, desc, len, older, rfl, hlen, hpayload, hdesc, hlive, hold⟩ := hp
      unfold decodeResult decodeResultWith
      rw [tag_pack, high_pack]
      refine (decodeSynthesized_ensures hlen (hcap bytes rfl) hpayload hdesc hlive).mono ?_
      rintro res h' ⟨rfl, hkept⟩
      exact ⟨rfl, fun b hb => hkept b (hold hb)⟩

end result

/-! ### Running a merge -/

section run
variable {f : List Entry → Sdk.MergeResult} {es : List Entry}

theorem invoke_ensures (h : GuestHeap) (hes : Requestable es) (hpool : ∀ e ∈ es, validUtf8 e.pool = true)
    (hcap : ∀ bytes, f es = .synthesized bytes → bytes.length ≤ maxGuestMemoryBytes) :
    Prog.Ensures (HostStep f) Releases (fun r _ => r = (f es).native) (invoke es) h := by
  refine (EncodedEntries.write_ensures h hes).bind ?_
  rintro enc g₁ ⟨-, ⟨fields, he⟩, harray⟩
  have hguest := mcgwMerge_ensures (f := f) he hpool fun bytes hb => (hcap bytes hb).trans_lt cap_lt
  refine (callMerge_ensures hguest).bind ?_
  intro packed g₂ hp
  refine (decodeResult_ensures hp hcap).bind ?_
  rintro r g₃ ⟨rfl, hkept⟩
  refine (callDealloc_ensures (P := fun _ _ => True) (hkept _ harray) fun _ _ => trivial).bind ?_
  intro _ _ _
  exact Prog.Ensures.pure rfl

theorem runWithPre_guarantees (h : GuestHeap) (hes : Requestable es)
    (hpool : ∀ e ∈ es, validUtf8 e.pool = true)
    (hcap : ∀ bytes, f es = .synthesized bytes → bytes.length ≤ maxGuestMemoryBytes) :
    (runWithPre es).run.Guarantees (HostStep f) Releases
      (fun outcome _ => outcome = checkWinner es.length (f es).native) h := by
  refine (invoke_ensures h hes hpool hcap).guarantees_bind ?_
  rintro r _ rfl
  rfl

end run

/-- What running `f` in a guest must return. -/
structure MatchesNative (f : List Entry → Sdk.MergeResult) (es : List Entry)
    (outcome : Except HostError MergeResult) : Prop where
  ok : (f es = .miss ∨ (∃ bytes, f es = .synthesized bytes ∧ bytes.length ≤ maxGuestMemoryBytes) ∨
      ∃ i, f es = .winner i ∧ i.toNat < es.length) → outcome = .ok (f es).native
  outOfRange : ∀ i, f es = .winner i → es.length ≤ i.toNat →
    (∃ err, outcome = .error err) ∧ applyOutcome outcome = .miss

theorem matchesNative_of_run {f : List Entry → Sdk.MergeResult} {es : List Entry}
    {outcome : Except HostError MergeResult}
    (h : (∀ bytes, f es = .synthesized bytes → bytes.length ≤ maxGuestMemoryBytes) →
      outcome = checkWinner es.length (f es).native) : MatchesNative f es outcome := by
  constructor
  · rintro (hmiss | ⟨bytes, hbytes, hcap⟩ | ⟨i, hi, hlt⟩)
    · rw [h (by simp [hmiss]), hmiss]
      rfl
    · rw [h (by simp [hbytes, hcap]), hbytes]
      rfl
    · rw [h (by simp [hi]), hi]
      exact if_neg (by omega)
  · intro i hi hle
    have hout : outcome = .error (.winnerOutOfRange i.toNat es.length) := by
      rw [h (by simp [hi]), hi]
      exact if_pos hle
    exact ⟨⟨_, hout⟩, by rw [hout]; rfl⟩

/-- Running a merge through the boundary equals running it natively: in every environment whose
guest is built around `f` and keeps its allocator's promises, the SDK decodes the entries that were
encoded, and the outcome is that of `f`. -/
theorem wasm_equals_native (f : List Entry → Sdk.MergeResult) {es : List Entry} (hes : Requestable es)
    (hpool : ∀ e ∈ es, validUtf8 e.pool = true) {τ : Type} {view : τ → GuestHeap}
    {env : (op : GuestOp) → τ → op.Answer × τ} {t : τ}
    (hrun : (runWithPre es).run.Conforms (HostStep f) view env t) :
    (∃ enc, ((EncodedEntries.write es).run.run env t).1 = .ok enc ∧
      decodeEntries (view ((EncodedEntries.write es).run.run env t).2).mem enc.ptr enc.count = some es) ∧
    MatchesNative f es ((runWithPre es).run.run env t).1 := by
  constructor
  · have hinvoke : (invoke es).run.Conforms (HostStep f) view env t := hrun.of_bind
    have hwrite : (EncodedEntries.write es).run.Conforms (HostStep f) view env t := hinvoke.of_bind
    obtain ⟨enc, heq, -, ⟨fields, he⟩, -⟩ :=
      Prog.Guarantees.returns (EncodedEntries.write_ensures (view t) hes) hwrite.returns
    exact ⟨enc, heq, decodeEntries_encoded he hpool⟩
  · apply matchesNative_of_run
    intro hcap
    exact (runWithPre_guarantees (view t) hes hpool hcap).returns hrun.returns

/-- A hit with a present and empty value, a hit that never expires, a miss and an error. -/
def sampleEntries : List Entry :=
  [⟨[107], [97], .hit, some 5, some [], none⟩, ⟨[107], [98], .hit, some (-1), some [1, 2], some [72]⟩,
    ⟨[107], [99], .miss, none, none, none⟩, ⟨[107], [100], .error, none, none, none⟩]

/-- Answer with the values of the hits, one after the other. -/
def sampleMerge (es : List Entry) : Sdk.MergeResult := .synthesized (es.flatMap fun e => e.value.getD [])

theorem wasm_equals_native_sample :
    (∃ enc, ((EncodedEntries.write sampleEntries).run.run (bumpHost sampleMerge) onePage).1 = .ok enc ∧
      decodeEntries ((EncodedEntries.write sampleEntries).run.run (bumpHost sampleMerge) onePage).2.mem
        enc.ptr enc.count = some sampleEntries) ∧
    ((runWithPre sampleEntries).run.run (bumpHost sampleMerge) onePage).1 = .ok (.synthesized [1, 2]) := by
  have hpool : ∀ e ∈ sampleEntries, validUtf8 e.pool = true := by decide +kernel
  obtain ⟨hdecoded, hmatches⟩ := wasm_equals_native sampleMerge ⟨by decide, by decide⟩ hpool
    (bumpHost_conforms (h := onePage) (by decide +kernel))
  exact ⟨hdecoded, hmatches.ok (Or.inr (Or.inl ⟨[1, 2], rfl, by decide⟩))⟩

end McGateway.Wasm
