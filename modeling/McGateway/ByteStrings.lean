import Mathlib

/-! # Byte strings

Byte strings as lists of bytes, with the operations that byte-oriented languages offer on
their string type: literals written as ASCII text (`ascii`), prefix and suffix tests,
splitting at a separator byte, windows of a fixed length, the bytewise lexicographic order (the
order of `List` over the order of bytes), sorting by a byte-string key (`sortBy`), and UTF-8: its validity
(`validUtf8`) and the lossy decoding that replaces what is not valid (`fromUtf8Lossy`).

The order-independence facts about `sortBy` are stated for keys that are pairwise distinct:
then the sorted list is determined by the multiset of its elements, whatever the stability of the
sorting algorithm (`eq_sortBy`, `sortBy_eq_of_perm`). -/

instance byteLinearOrder : LinearOrder UInt8 where
  le_refl a := UInt8.le_refl a
  le_trans a b c := UInt8.le_trans
  le_antisymm a b := UInt8.le_antisymm
  le_total a b := UInt8.le_total a b
  lt_iff_le_not_ge a b := by
    rw [UInt8.lt_iff_toNat_lt, UInt8.le_iff_toNat_le, UInt8.le_iff_toNat_le]
    omega
  toDecidableLE := inferInstance
  toDecidableLT := inferInstance
  toDecidableEq := inferInstance

/-- A string of bytes. -/
abbrev Bytes := List UInt8

-- These two are found without a name as well.  With a name, a definition that tests for membership carries
-- that name and not a proof of its own.
instance byteLawfulBEq : LawfulBEq UInt8 := inferInstance
instance bytesLawfulBEq : LawfulBEq Bytes := inferInstance

namespace Bytes

/-- The bytes of an ASCII literal. -/
def ascii (s : String) : Bytes := s.toList.map fun c => UInt8.ofNat c.toNat

/-- The white space of the C locale. -/
def isSpace (c : UInt8) : Bool := c == 32 || (9 ≤ c && c ≤ 13)

def isDigit (c : UInt8) : Bool := 48 ≤ c && c ≤ 57

/-- `s` starts with `p`. -/
def hasPrefix (s p : Bytes) : Bool := p.isPrefixOf s

/-- `s` ends with `p`. -/
def hasSuffix (s p : Bytes) : Bool := p.isSuffixOf s

theorem hasPrefix_iff {s p : Bytes} : hasPrefix s p = true ↔ ∃ r, s = p ++ r := by
  rw [hasPrefix, List.isPrefixOf_iff_prefix]
  exact ⟨fun ⟨r, h⟩ => ⟨r, h.symm⟩, fun ⟨r, h⟩ => ⟨r, h.symm⟩⟩

theorem hasSuffix_iff {s p : Bytes} : hasSuffix s p = true ↔ ∃ r, s = r ++ p := by
  rw [hasSuffix, List.isSuffixOf_iff_suffix]
  exact ⟨fun ⟨r, h⟩ => ⟨r, h.symm⟩, fun ⟨r, h⟩ => ⟨r, h.symm⟩⟩

@[simp] theorem hasPrefix_append (p r : Bytes) : hasPrefix (p ++ r) p = true :=
  hasPrefix_iff.mpr ⟨r, rfl⟩

@[simp] theorem hasSuffix_append (r p : Bytes) : hasSuffix (r ++ p) p = true :=
  hasSuffix_iff.mpr ⟨r, rfl⟩

/-- The suffix test only reads the last `p.length` bytes. -/
theorem hasSuffix_append_of_length_le (r s p : Bytes) (h : p.length ≤ s.length) :
    hasSuffix (r ++ s) p = hasSuffix s p := by
  rw [Bool.eq_iff_iff, hasSuffix_iff, hasSuffix_iff]
  constructor
  · rintro ⟨q, hq⟩
    obtain ⟨t, ht⟩ := List.suffix_of_suffix_length_le ⟨q, hq.symm⟩ (List.suffix_append r s) h
    exact ⟨t, ht.symm⟩
  · rintro ⟨q, rfl⟩
    exact ⟨r ++ q, by rw [List.append_assoc]⟩

/-- Split at every occurrence of `sep`; the result has one more piece than `sep` occurs. -/
def split (sep : UInt8) : Bytes → List Bytes
  | [] => [[]]
  | c :: cs =>
      if c = sep then [] :: split sep cs
      else match split sep cs with
        | [] => [[c]]
        | seg :: segs => (c :: seg) :: segs

/-- A string without the separator is one piece. -/
theorem split_of_not_mem {sep : UInt8} : ∀ {s : Bytes}, sep ∉ s → split sep s = [s]
  | [], _ => rfl
  | c :: cs, h => by
      rw [List.mem_cons, not_or] at h
      simp only [split, if_neg (Ne.symm h.1), split_of_not_mem h.2]

theorem split_ne_nil (sep : UInt8) : ∀ s : Bytes, split sep s ≠ []
  | [] => by simp [split]
  | c :: cs => by
      unfold split
      split_ifs
      · simp
      · cases split sep cs with
        | nil => simp
        | cons seg segs => simp

/-- The separator is in none of the pieces. -/
theorem not_mem_of_mem_split {sep : UInt8} : ∀ {s piece : Bytes}, piece ∈ split sep s → sep ∉ piece
  | [], piece, h => by
      obtain rfl := List.mem_singleton.mp h
      exact List.not_mem_nil
  | c :: cs, piece, h => by
      unfold split at h
      split_ifs at h with hc
      · cases List.mem_cons.mp h with
        | inl hnil => simp [hnil]
        | inr hrest => exact not_mem_of_mem_split hrest
      · cases hcs : split sep cs with
        | nil => exact absurd hcs (split_ne_nil sep cs)
        | cons seg segs =>
            have hsub (q : Bytes) (hq : q ∈ seg :: segs) : sep ∉ q := not_mem_of_mem_split (hcs ▸ hq)
            rw [hcs] at h
            cases List.mem_cons.mp h with
            | inl hseg =>
                have hrest := hsub seg List.mem_cons_self
                rw [hseg, List.mem_cons, not_or]
                exact ⟨fun he => hc he.symm, hrest⟩
            | inr hrest => exact hsub piece (List.mem_cons_of_mem _ hrest)

/-- The pieces before a separator and those after it. -/
theorem split_append {sep : UInt8} (r : Bytes) : ∀ s : Bytes,
    split sep (s ++ sep :: r) = split sep s ++ split sep r
  | [] => by simp [split]
  | c :: cs => by
      rw [List.cons_append, split, split, split_append r cs]
      split_ifs
      · rfl
      · cases hcs : split sep cs with
        | nil => exact absurd hcs (split_ne_nil sep cs)
        | cons seg segs => rfl

/-- The piece after the last separator. -/
theorem exists_last_piece {sep : UInt8} {s : Bytes} (hs : sep ∈ s) :
    ∃ r t, s = r ++ sep :: t ∧ sep ∉ t := by
  obtain ⟨t, r, heq, ht⟩ := List.eq_append_cons_of_mem (List.mem_reverse.mpr hs)
  refine ⟨r.reverse, t.reverse, ?_, fun h => ht (List.mem_reverse.mp h)⟩
  rw [← List.reverse_reverse s, heq]
  simp

theorem split_append_sep {sep : UInt8} {s : Bytes} (r : Bytes) (hs : sep ∉ s) :
    split sep (s ++ sep :: r) = s :: split sep r := by
  rw [split_append, split_of_not_mem hs, List.singleton_append]

/-! ### Windows -/

/-- The runs of `k` successive bytes, for `0 < k`, in order. -/
def windows (k : ℕ) : Bytes → List Bytes
  | [] => []
  | b :: s => if k ≤ s.length + 1 then (b :: s).take k :: windows k s else []

/-- The windows of a string are the first windows of every extension. -/
theorem windows_prefix_append (k : ℕ) (r : Bytes) : ∀ s : Bytes, windows k s <+: windows k (s ++ r)
  | [] => List.nil_prefix
  | b :: s => by
      rw [List.cons_append, windows, windows]
      by_cases hk : k ≤ s.length + 1
      · have hk' : k ≤ (s ++ r).length + 1 := by
          rw [List.length_append]
          omega
        have htake : (b :: s).take k = (b :: (s ++ r)).take k := by
          rw [← List.cons_append, List.take_append_of_le_length hk]
        rw [if_pos hk, if_pos hk', htake, List.cons_prefix_cons]
        exact ⟨rfl, windows_prefix_append k r s⟩
      · rw [if_neg hk]
        exact List.nil_prefix

section
variable {w : Bytes}

theorem findIdx?_windows_cons (b : UInt8) (s : Bytes) :
    (windows w.length (b :: s)).findIdx? (· == w) =
      if w <+: b :: s then some 0 else ((windows w.length s).findIdx? (· == w)).map (· + 1) := by
  rw [windows]
  by_cases hpre : w <+: b :: s
  · have hlen : w.length ≤ s.length + 1 := hpre.length_le
    have htake : (b :: s).take w.length = w := (List.prefix_iff_eq_take.mp hpre).symm
    simp [hpre, hlen, htake, List.findIdx?_cons]
  · rw [if_neg hpre]
    by_cases hlen : w.length ≤ s.length + 1
    · have htake : (b :: s).take w.length ≠ w := fun h => hpre (List.prefix_iff_eq_take.mpr h.symm)
      rw [if_pos hlen, List.findIdx?_cons, if_neg (by simpa using htake)]
    · have hnil : windows w.length s = [] := by
        cases s with
        | nil => rfl
        | cons c s =>
            rw [List.length_cons] at hlen
            rw [windows, if_neg (by omega)]
      rw [if_neg hlen, hnil]
      rfl

/-- No window is `w` exactly if `w` does not occur. -/
theorem findIdx?_windows_eq_none (hw : w ≠ []) : ∀ {s : Bytes},
    (windows w.length s).findIdx? (· == w) = none ↔ ¬w <:+: s
  | [] => by simpa [windows] using hw
  | b :: s => by
      rw [findIdx?_windows_cons, List.infix_cons_iff, not_or, ← findIdx?_windows_eq_none hw]
      by_cases hpre : w <+: b :: s
      · simp [hpre]
      · simp [hpre]

/-- The first window that is `w` is the first occurrence of `w`. -/
theorem of_findIdx?_windows (hw : w ≠ []) : ∀ {s : Bytes} {i : ℕ},
    (windows w.length s).findIdx? (· == w) = some i →
      (∃ r, s = s.take i ++ w ++ r) ∧ ¬w <:+: s.take i ++ w.dropLast
  | [], i, h => by simp [windows] at h
  | b :: s, i, h => by
      rw [findIdx?_windows_cons] at h
      by_cases hpre : w <+: b :: s
      · rw [if_pos hpre] at h
        obtain rfl := Option.some.inj h
        obtain ⟨r, hr⟩ := hpre
        refine ⟨⟨r, by simpa using hr.symm⟩, ?_⟩
        intro hin
        have hlen := hin.length_le
        have hpos := List.length_pos_iff.mpr hw
        simp at hlen
        omega
      · rw [if_neg hpre] at h
        obtain ⟨j, hj, rfl⟩ := Option.map_eq_some_iff.mp h
        obtain ⟨⟨r, hr⟩, hfirst⟩ := of_findIdx?_windows hw hj
        rw [List.take_succ_cons]
        refine ⟨⟨r, ?_⟩, ?_⟩
        · rw [List.cons_append, List.cons_append, ← hr]
        · rw [List.cons_append, List.infix_cons_iff, not_or]
          refine ⟨?_, hfirst⟩
          -- what precedes the end of the occurrence is the start of the string
          intro hstart
          obtain ⟨q, hq⟩ := List.dropLast_prefix w
          refine hpre (hstart.trans (List.cons_prefix_cons.mpr ⟨rfl, q ++ r, ?_⟩))
          calc s.take j ++ w.dropLast ++ (q ++ r) = s.take j ++ (w.dropLast ++ q) ++ r := by
                simp only [List.append_assoc]
            _ = s := by rw [hq, ← hr]

theorem any_windows (hw : w ≠ []) {s : Bytes} : (windows w.length s).any (· == w) = true ↔ w <:+: s := by
  rw [← not_iff_not, ← findIdx?_windows_eq_none hw, List.findIdx?_eq_none_iff, Bool.not_eq_true,
    List.any_eq_false]
  simp only [Bool.not_eq_true]

end

/-! ### UTF-8 -/

/-- A continuation byte. -/
def isCont (b : UInt8) : Bool := 0x80 ≤ b && b ≤ 0xBF

/-- The two bytes begin a three-byte sequence: no overlong forms, no surrogates. -/
def opensThree (b c : UInt8) : Bool :=
  (b == 0xE0 && 0xA0 ≤ c && c ≤ 0xBF) || (0xE1 ≤ b && b ≤ 0xEC && isCont c) ||
    (b == 0xED && 0x80 ≤ c && c ≤ 0x9F) || (0xEE ≤ b && b ≤ 0xEF && isCont c)

/-- The two bytes begin a four-byte sequence: no overlong forms, nothing above U+10FFFF. -/
def opensFour (b c : UInt8) : Bool :=
  (b == 0xF0 && 0x90 ≤ c && c ≤ 0xBF) || (0xF1 ≤ b && b ≤ 0xF3 && isCont c) ||
    (b == 0xF4 && 0x80 ≤ c && c ≤ 0x8F)

/-- The bytes are well-formed UTF-8. -/
def validUtf8 : Bytes → Bool
  | [] => true
  | b :: s =>
      if b < 0x80 then validUtf8 s
      else match s with
        | c :: s =>
            if 0xC2 ≤ b && b ≤ 0xDF && isCont c then validUtf8 s
            else match s with
              | d :: s =>
                  if opensThree b c && isCont d then validUtf8 s
                  else match s with
                    | e :: s => opensFour b c && isCont d && isCont e && validUtf8 s
                    | [] => false
              | [] => false
        | [] => false

theorem validUtf8_of_ascii : ∀ {s : Bytes}, (∀ b ∈ s, b < 0x80) → validUtf8 s = true
  | [], _ => rfl
  | b :: s, h => by
      obtain ⟨hb, hs⟩ := List.forall_mem_cons.mp h
      unfold validUtf8
      rw [if_pos hb]
      exact validUtf8_of_ascii hs

/-- The piece that the bytes begin with: whether it is a well-formed sequence, and its length.  A
piece that is not is as long as it could have been the beginning of one. -/
def utf8Piece (b : UInt8) (s : Bytes) : Bool × ℕ :=
  if b < 0x80 then (true, 1)
  else match s with
    | [] => (false, 1)
    | c :: s =>
        if 0xC2 ≤ b && b ≤ 0xDF && isCont c then (true, 2)
        else if opensThree b c then
          match s with
          | [] => (false, 2)
          | d :: _ => if isCont d then (true, 3) else (false, 2)
        else if opensFour b c then
          match s with
          | [] => (false, 2)
          | d :: s =>
              if isCont d then
                match s with
                | [] => (false, 3)
                | e :: _ => if isCont e then (true, 4) else (false, 3)
              else (false, 2)
        else (false, 1)

/-- U+FFFD. -/
def replacement : Bytes := [0xEF, 0xBF, 0xBD]

/-- The loop of `fromUtf8Lossy`. -/
def lossyFrom : ℕ → Bytes → Bytes
  | 0, _ => []
  | _ + 1, [] => []
  | n + 1, b :: s =>
      (if (utf8Piece b s).1 then (b :: s).take (utf8Piece b s).2 else replacement) ++
        lossyFrom n ((b :: s).drop (utf8Piece b s).2)

/-- The bytes with every piece that is not well-formed replaced. -/
def fromUtf8Lossy (s : Bytes) : Bytes := lossyFrom s.length s

theorem utf8Piece_pos (b : UInt8) (s : Bytes) : 0 < (utf8Piece b s).2 := by
  fun_cases utf8Piece b s <;> simp

theorem opensThree_of_opensFour {b c : UInt8} (h : opensFour b c = true) : opensThree b c = false := by
  rw [Bool.eq_false_iff]
  simp only [opensFour, opensThree, ne_eq, Bool.or_eq_true, Bool.and_eq_true, beq_iff_eq,
    decide_eq_true_eq, UInt8.le_iff_toNat_le, ← UInt8.toNat_inj, UInt8.reduceToNat] at h ⊢
  omega

/-- A well-formed piece does not matter to what follows. -/
theorem validUtf8_piece {b : UInt8} {s : Bytes} (h : (utf8Piece b s).1 = true) (r : Bytes) :
    validUtf8 ((b :: s).take (utf8Piece b s).2 ++ r) = validUtf8 r := by
  revert h
  fun_cases utf8Piece b s with
  | case1 s hb =>
      intro _
      rw [List.take_succ_cons, List.take_zero, List.cons_append, validUtf8.eq_def]
      simp [hb]
  | case3 hb c s htwo =>
      intro _
      rw [List.take_succ_cons, List.take_succ_cons, List.take_zero, List.cons_append, validUtf8.eq_def]
      simp [hb, htwo]
  | case5 hb c htwo hthree d s hd =>
      intro _
      simp only [List.take_succ_cons, List.take_zero, List.cons_append, List.nil_append]
      rw [validUtf8.eq_def]
      simp [hb, htwo, hthree, hd]
  | case9 hb c htwo hthree hfour d hd e s he =>
      intro _
      simp [validUtf8, hb, htwo, hthree, hfour, hd, he]
  | _ =>
      intro h
      cases h

/-- Well-formed bytes begin with a well-formed piece. -/
theorem utf8Piece_of_validUtf8 {b : UInt8} {s : Bytes} (h : validUtf8 (b :: s) = true) :
    (utf8Piece b s).1 = true := by
  revert h
  fun_cases utf8Piece b s with
  | case1 | case3 | case5 | case9 =>
      intro _
      rfl
  | case2 hb =>
      intro h
      simp [validUtf8, hb] at h
  | case4 hb c htwo hthree =>
      intro h
      simp [validUtf8, hb, htwo] at h
  | case6 hb c htwo hthree d s hd =>
      intro h
      have hf : opensFour b c = false := by
        rw [Bool.eq_false_iff]
        intro hfour
        rw [opensThree_of_opensFour hfour] at hthree
        cases hthree
      cases s <;> simp [validUtf8, hb, htwo, hd, hf] at h
  | case7 hb c htwo hthree hfour =>
      intro h
      simp [validUtf8, hb, htwo] at h
  | case8 hb c htwo hthree hfour d hd =>
      intro h
      simp [validUtf8, hb, htwo, hthree] at h
  | case10 hb c htwo hthree hfour d hd e s he =>
      intro h
      simp [validUtf8, hb, htwo, hthree, he] at h
  | case11 hb c htwo hthree hfour d s hd =>
      intro h
      cases s <;> simp [validUtf8, hb, htwo, hthree, hd] at h
  | case12 hb c s htwo hthree hfour =>
      intro h
      cases s with
      | nil => simp [validUtf8, hb, htwo] at h
      | cons d s => cases s <;> simp [validUtf8, hb, htwo, hthree, hfour] at h

theorem lossyFrom_of_validUtf8 : ∀ (n : ℕ) (s : Bytes), s.length ≤ n → validUtf8 s = true → lossyFrom n s = s
  | 0, s, hn, _ => by rw [List.length_eq_zero_iff.mp (Nat.le_zero.mp hn)]; rfl
  | n + 1, [], _, _ => rfl
  | n + 1, b :: s, hn, h => by
      have hpiece := utf8Piece_of_validUtf8 h
      have hrest : validUtf8 ((b :: s).drop (utf8Piece b s).2) = true := by
        rw [← validUtf8_piece hpiece, List.take_append_drop]
        exact h
      have hlen : ((b :: s).drop (utf8Piece b s).2).length ≤ n := by
        have hpos := utf8Piece_pos b s
        simp only [List.length_drop, List.length_cons] at hn ⊢
        omega
      rw [lossyFrom, if_pos hpiece, lossyFrom_of_validUtf8 n _ hlen hrest, List.take_append_drop]

theorem validUtf8_lossyFrom : ∀ (n : ℕ) (s : Bytes), validUtf8 (lossyFrom n s) = true
  | 0, _ => rfl
  | n + 1, [] => rfl
  | n + 1, b :: s => by
      have hrest := validUtf8_lossyFrom n ((b :: s).drop (utf8Piece b s).2)
      unfold lossyFrom
      split_ifs with hpiece
      · rw [validUtf8_piece hpiece, hrest]
      · rw [← hrest]
        exact validUtf8_piece (b := 0xEF) (s := [0xBF, 0xBD]) rfl _

/-- Only well-formed bytes are left alone. -/
theorem fromUtf8Lossy_eq_self_iff {s : Bytes} : fromUtf8Lossy s = s ↔ validUtf8 s = true := by
  constructor
  · intro h
    rw [← h]
    exact validUtf8_lossyFrom s.length s
  · exact lossyFrom_of_validUtf8 s.length s le_rfl

example : fromUtf8Lossy [0x61, 0xFF, 0xE1, 0x80, 0x62] = 0x61 :: (replacement ++ replacement ++ [0x62]) := by
  decide +kernel

/-! ### Sorting by a byte-string key -/

section sorting
variable {α : Type} (key : α → Bytes)

/-- Sort by key in the bytewise lexicographic order. -/
def sortBy (l : List α) : List α := l.insertionSort fun a b => key a ≤ key b

instance : Std.Total fun a b : α => key a ≤ key b := ⟨fun a b => le_total (key a) (key b)⟩
instance : IsTrans α fun a b : α => key a ≤ key b := ⟨fun _ _ _ => le_trans⟩

theorem sortBy_perm (l : List α) : (sortBy key l).Perm l := List.perm_insertionSort _ l

@[simp] theorem mem_sortBy {l : List α} {a : α} : a ∈ sortBy key l ↔ a ∈ l :=
  (sortBy_perm key l).mem_iff

theorem sortBy_pairwise (l : List α) : (sortBy key l).Pairwise fun a b => key a ≤ key b :=
  List.pairwise_insertionSort _ l

theorem sortBy_keys_nodup {l : List α} (h : (l.map key).Nodup) : ((sortBy key l).map key).Nodup :=
  (((sortBy_perm key l).map key).nodup_iff).mpr h

/-- With pairwise distinct keys the sorted list is strictly increasing. -/
theorem sortBy_pairwise_lt {l : List α} (h : (l.map key).Nodup) :
    (sortBy key l).Pairwise fun a b => key a < key b := by
  have hne : (sortBy key l).Pairwise fun a b => key a ≠ key b :=
    List.pairwise_map.mp (sortBy_keys_nodup key h)
  exact (sortBy_pairwise key l).imp₂ (fun _ _ hle hne => lt_of_le_of_ne hle hne) hne

/-- Two strictly increasing lists with the same elements are equal. -/
theorem eq_of_perm_of_pairwise_lt {l₁ l₂ : List α} (hp : l₁.Perm l₂)
    (h₁ : l₁.Pairwise fun a b => key a < key b) (h₂ : l₂.Pairwise fun a b => key a < key b) :
    l₁ = l₂ :=
  hp.eq_of_pairwise (fun _ _ _ _ hab hba => absurd hab (lt_asymm hba)) h₁ h₂

theorem nodup_of_pairwise_lt {l : List α} (h : l.Pairwise fun a b => key a < key b) : l.Nodup := by
  refine h.imp ?_
  intro a b hlt he
  exact lt_irrefl (key b) (he ▸ hlt)

theorem eq_of_mem_iff_of_pairwise_lt {l₁ l₂ : List α} (h₁ : l₁.Pairwise fun a b => key a < key b)
    (h₂ : l₂.Pairwise fun a b => key a < key b) (hmem : ∀ a, a ∈ l₁ ↔ a ∈ l₂) : l₁ = l₂ := by
  have hn₁ := nodup_of_pairwise_lt key h₁
  have hn₂ := nodup_of_pairwise_lt key h₂
  exact eq_of_perm_of_pairwise_lt key ((List.perm_ext_iff_of_nodup hn₁ hn₂).mpr hmem) h₁ h₂

/-- With pairwise distinct keys there is one sorted list, whatever the sorting algorithm. -/
theorem eq_sortBy {l l' : List α} (hp : l'.Perm l) (hs : l'.Pairwise fun a b => key a ≤ key b)
    (h : (l.map key).Nodup) : l' = sortBy key l := by
  have hne : l'.Pairwise fun a b => key a ≠ key b :=
    List.pairwise_map.mp (((hp.map key).nodup_iff).mpr h)
  have hlt : l'.Pairwise fun a b => key a < key b :=
    hs.imp₂ (fun _ _ hle hne => lt_of_le_of_ne hle hne) hne
  exact eq_of_perm_of_pairwise_lt key (hp.trans (sortBy_perm key l).symm) hlt
    (sortBy_pairwise_lt key h)

/-- Sorting forgets the input order when the keys are pairwise distinct. -/
theorem sortBy_eq_of_perm {l₁ l₂ : List α} (hp : l₁.Perm l₂) (h : (l₁.map key).Nodup) :
    sortBy key l₁ = sortBy key l₂ :=
  eq_sortBy key ((sortBy_perm key l₁).trans hp) (sortBy_pairwise key l₁) (((hp.map key).nodup_iff).mp h)

end sorting

end Bytes
