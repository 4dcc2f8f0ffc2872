import McGateway.ByteStrings

/-! # Lua values and tables

The part of the Lua 5.4 value universe that data files and their validators exercise.

* A table is the sequence of assignments made to it; a read returns the last value assigned
  to the key, `nil` when there is none (`rawget`).  Assigning `nil` therefore deletes.
* Booleans, numbers, functions, userdata and threads are one constructor (`scalar`): code
  that only asks whether a value is `nil`, a string or a table cannot tell them apart.
* `ipairs` visits `t[1], t[2], …` up to the first `nil`.
* The length operator may return *any* border of a table with holes.  It is therefore not a
  function of the table but a structure `LengthOp`, a choice of border for every table;
  results about code that uses `#` quantify over it.  For a sequence the border is unique
  (`LengthOp.len_ofList`). -/

namespace Lua

/-- Table keys: integers and strings (no other key is ever read by the modelled code). -/
inductive Key where
  | int (i : ℤ)
  | str (s : Bytes)
deriving DecidableEq, Repr

/-- Lua values. -/
inductive Value where
  | nil
  | scalar (tag : ℕ)
  | str (s : Bytes)
  | table (assignments : List (Key × Value))
deriving Repr, Inhabited

/-- The assignments made to a table, oldest first. -/
abbrev Table := List (Key × Value)

/-- `t[k]`: the last value assigned to `k`. -/
def rawget (t : Table) (k : Key) : Value := (t.reverse.lookup k).getD .nil

/-- `t[k] = v`. -/
def rawset (t : Table) (k : Key) (v : Value) : Table := t ++ [(k, v)]

theorem rawget_rawset (t : Table) (k k' : Key) (v : Value) :
    rawget (rawset t k v) k' = if k' = k then v else rawget t k' := by
  unfold rawget rawset
  rw [List.reverse_append, List.reverse_singleton, List.singleton_append, List.lookup_cons]
  by_cases h : k' = k
  · simp [h]
  · rw [beq_false_of_ne h, if_neg h]

@[simp] theorem rawget_rawset_self (t : Table) (k : Key) (v : Value) :
    rawget (rawset t k v) k = v := by
  rw [rawget_rawset, if_pos rfl]

theorem rawget_rawset_ne (t : Table) {k k' : Key} (v : Value) (h : k' ≠ k) :
    rawget (rawset t k v) k' = rawget t k' := by
  rw [rawget_rawset, if_neg h]

theorem rawget_of_not_mem {t : Table} {k : Key} (h : k ∉ t.map Prod.fst) : rawget t k = .nil := by
  have : t.reverse.lookup k = none := by
    rw [List.lookup_eq_none_iff]
    intro p hp
    have hp' : p.1 ∈ t.map Prod.fst := List.mem_map_of_mem (List.mem_reverse.mp hp)
    simp only [bne_iff_ne, ne_eq]
    rintro rfl
    exact h hp'
  rw [rawget, this]
  rfl

theorem rawget_append_of_not_mem {t u : Table} {k : Key} (h : k ∉ u.map Prod.fst) :
    rawget (t ++ u) k = rawget t k := by
  induction u using List.reverseRecOn with
  | nil => simp
  | append_singleton u p ih =>
      simp only [List.map_append, List.map_cons, List.map_nil, List.mem_append, List.mem_singleton,
        not_or] at h
      rw [← List.append_assoc]
      exact (rawget_rawset_ne _ _ h.2).trans (ih h.1)

/-! ### Sequences -/

/-- Positional assignments `t[n+1], t[n+2], …`, as a table constructor makes them. -/
def positional : ℕ → List Value → Table
  | _, [] => []
  | n, v :: vs => (.int (n + 1), v) :: positional (n + 1) vs

/-- The sequence with elements `vs`. -/
def ofList (vs : List Value) : Table := positional 0 vs

theorem positional_append : ∀ (n : ℕ) (vs ws : List Value),
    positional n (vs ++ ws) = positional n vs ++ positional (n + vs.length) ws
  | _, [], _ => rfl
  | n, v :: vs, ws => by
      simp only [List.cons_append, positional, positional_append (n + 1) vs ws, List.length_cons]
      rw [show n + 1 + vs.length = n + (vs.length + 1) by omega]

theorem rawset_positional (n : ℕ) (vs : List Value) (v : Value) :
    rawset (positional n vs) (.int (n + vs.length + 1)) v = positional n (vs ++ [v]) := by
  rw [positional_append]
  simp [rawset, positional]

/-- Reading a sequence at a positive index. -/
theorem rawget_ofList (vs : List Value) (i : ℕ) :
    rawget (ofList vs) (.int (i + 1)) = (vs[i]?).getD .nil := by
  induction vs using List.reverseRecOn with
  | nil => rfl
  | append_singleton vs v ih =>
      have e : ofList (vs ++ [v]) = rawset (ofList vs) (.int (vs.length + 1)) v := by
        have := rawset_positional 0 vs v
        simpa [ofList] using this.symm
      rw [e, rawget_rawset]
      by_cases h : i = vs.length
      · subst h
        simp
      · rw [if_neg (by simpa using h), ih]
        congr 1
        rcases Nat.lt_or_ge i vs.length with hlt | hge
        · rw [List.getElem?_append_left hlt]
        · rw [List.getElem?_eq_none hge, List.getElem?_eq_none (by simp; omega)]

/-- `t[i], t[i+1], …` up to the first `nil`, at most `fuel` of them. -/
def ipairsFrom (t : Table) : ℕ → ℕ → List Value
  | 0, _ => []
  | fuel + 1, i =>
      match rawget t (.int i) with
      | .nil => []
      | v => v :: ipairsFrom t fuel (i + 1)

/-- The values `ipairs(t)` visits.  A table has at most as many integer keys as assignments,
so the bound never cuts the traversal short (`ipairs_stops`). -/
def ipairs (t : Table) : List Value := ipairsFrom t t.length 1

theorem ipairsFrom_succ_of_ne_nil {t : Table} {fuel i : ℕ} (h : rawget t (.int i) ≠ .nil) :
    ipairsFrom t (fuel + 1) i = rawget t (.int i) :: ipairsFrom t fuel (i + 1) := by
  rw [ipairsFrom]
  split
  · contradiction
  · rfl

theorem ipairsFrom_succ_of_nil {t : Table} {fuel i : ℕ} (h : rawget t (.int i) = .nil) :
    ipairsFrom t (fuel + 1) i = [] := by
  rw [ipairsFrom, h]

/-- Every visited position holds the visited value, which is not `nil`. -/
theorem ipairsFrom_getElem {t : Table} : ∀ {fuel i j : ℕ} (h : j < (ipairsFrom t fuel i).length),
    rawget t (.int (i + j)) = (ipairsFrom t fuel i)[j] ∧ rawget t (.int (i + j)) ≠ .nil
  | 0, _, _, h => by simp [ipairsFrom] at h
  | fuel + 1, i, j, h => by
      by_cases hn : rawget t (.int i) = .nil
      · simp [ipairsFrom_succ_of_nil hn] at h
      · simp only [ipairsFrom_succ_of_ne_nil hn, List.length_cons] at h ⊢
        cases j with
        | zero => simpa using hn
        | succ j =>
            have hj : j < (ipairsFrom t fuel (i + 1)).length := by omega
            have := ipairsFrom_getElem hj
            push_cast at this ⊢
            rw [show (i : ℤ) + (j + 1) = i + 1 + j by ring]
            simpa using this

/-- The traversal ends at a `nil` or because the bound is used up. -/
theorem ipairsFrom_stops (t : Table) : ∀ (fuel i : ℕ),
    (ipairsFrom t fuel i).length = fuel ∨
      rawget t (.int (i + (ipairsFrom t fuel i).length)) = .nil
  | 0, _ => Or.inl rfl
  | fuel + 1, i => by
      by_cases hn : rawget t (.int i) = .nil
      · right
        rw [ipairsFrom_succ_of_nil hn]
        simpa using hn
      · rw [ipairsFrom_succ_of_ne_nil hn]
        rcases ipairsFrom_stops t fuel (i + 1) with h | h
        · left; simp [h]
        · right
          push_cast at h ⊢
          rw [List.length_cons]
          push_cast
          rw [show (i : ℤ) + ((ipairsFrom t fuel (i + 1)).length + 1) =
            i + 1 + (ipairsFrom t fuel (i + 1)).length by ring]
          exact h

/-- Not all of `t[1], …, t[n+1]` are present when `t` received only `n` assignments. -/
theorem exists_nil_le_length (t : Table) : ∃ i, i ≤ t.length ∧ rawget t (.int (i + 1)) = .nil := by
  by_contra hcon
  push Not at hcon
  have hsub : (List.range (t.length + 1)).map (fun i : ℕ => Key.int (i + 1)) ⊆ t.map Prod.fst := by
    intro k hk
    obtain ⟨i, hi, rfl⟩ := List.mem_map.mp hk
    by_contra hmem
    exact hcon i (by simpa [Nat.lt_succ_iff] using hi) (rawget_of_not_mem hmem)
  have hnd : ((List.range (t.length + 1)).map (fun i : ℕ => Key.int (i + 1))).Nodup :=
    List.Nodup.map (fun a b h => by simpa using h) List.nodup_range
  have hle := (List.subperm_of_subset hnd hsub).length_le
  simp at hle

/-- `ipairs` stops only at a `nil`. -/
theorem ipairs_stops (t : Table) : rawget t (.int ((ipairs t).length + 1)) = .nil := by
  rcases ipairsFrom_stops t t.length 1 with h | h
  · obtain ⟨i, hi, hnil⟩ := exists_nil_le_length t
    rcases Nat.lt_or_ge i t.length with hlt | hge
    · have hlt' : i < (ipairsFrom t t.length 1).length := by omega
      have := (ipairsFrom_getElem hlt').2
      rw [show ((1 : ℕ) : ℤ) + i = i + 1 by push_cast; ring] at this
      exact absurd hnil this
    · rw [show i = (ipairs t).length by unfold ipairs; omega] at hnil
      exact hnil
  · rw [show ((1 : ℕ) : ℤ) + (ipairsFrom t t.length 1).length =
      (ipairs t).length + 1 by unfold ipairs; push_cast; ring] at h
    exact h

theorem ipairs_getElem {t : Table} {j : ℕ} (h : j < (ipairs t).length) :
    rawget t (.int (j + 1)) = (ipairs t)[j] ∧ rawget t (.int (j + 1)) ≠ .nil := by
  have := ipairsFrom_getElem (t := t) (i := 1) h
  rw [show ((1 : ℕ) : ℤ) + j = j + 1 by push_cast; ring] at this
  exact this

/-- What is read at `1, 2, …` up to the first `nil` determines the traversal. -/
theorem ipairs_eq {t : Table} {vs : List Value} (hne : ∀ v ∈ vs, v ≠ .nil)
    (hget : ∀ i ≤ vs.length, rawget t (.int (i + 1)) = (vs[i]?).getD .nil) : ipairs t = vs := by
  have hlen : (ipairs t).length = vs.length := by
    rcases Nat.lt_trichotomy (ipairs t).length vs.length with hlt | heq | hgt
    · have hstop := ipairs_stops t
      rw [hget _ hlt.le, List.getElem?_eq_getElem hlt] at hstop
      exact absurd hstop (hne _ (List.getElem_mem hlt))
    · exact heq
    · have := (ipairs_getElem hgt).2
      rw [hget _ (le_refl _), List.getElem?_eq_none (le_refl _)] at this
      exact absurd rfl this
  apply List.ext_getElem hlen
  intro j h1 h2
  rw [← (ipairs_getElem h1).1, hget j h2.le, List.getElem?_eq_getElem h2]
  rfl

theorem ipairs_ne_nil {t : Table} {v : Value} (h : v ∈ ipairs t) : v ≠ .nil := by
  obtain ⟨j, hj, rfl⟩ := List.getElem_of_mem h
  obtain ⟨heq, hne⟩ := ipairs_getElem hj
  rwa [← heq]

theorem rawget_eq_getElem?_ipairs {t : Table} {i : ℕ} (h : i ≤ (ipairs t).length) :
    rawget t (.int (i + 1)) = ((ipairs t)[i]?).getD .nil := by
  rcases Nat.lt_or_ge i (ipairs t).length with hlt | hge
  · rw [(ipairs_getElem hlt).1, List.getElem?_eq_getElem hlt]
    rfl
  · obtain rfl : i = (ipairs t).length := by omega
    rw [ipairs_stops, List.getElem?_eq_none (le_refl _)]
    rfl

/-- Replacing a visited value. -/
theorem ipairs_rawset {t : Table} {i : ℕ} {v : Value} (hi : i < (ipairs t).length) (hv : v ≠ .nil) :
    ipairs (rawset t (.int (i + 1)) v) = (ipairs t).set i v := by
  apply ipairs_eq
  · intro w hw
    rcases List.mem_or_eq_of_mem_set hw with hw | rfl
    · exact ipairs_ne_nil hw
    · exact hv
  · intro j hj
    rw [List.length_set] at hj
    rw [rawget_rawset, List.getElem?_set]
    by_cases hji : j = i
    · subst hji
      simp [hi]
    · rw [if_neg (by simpa using hji), if_neg (Ne.symm hji), rawget_eq_getElem?_ipairs hj]

/-- A sequence without `nil` elements is traversed completely. -/
theorem ipairs_ofList {vs : List Value} (h : ∀ v ∈ vs, v ≠ .nil) : ipairs (ofList vs) = vs :=
  ipairs_eq h fun i _ => rawget_ofList vs i

/-! ### The length operator -/

/-- `n` is a border of `t`: the last of a run of present positions, or `0`. -/
def IsBorder (t : Table) (n : ℕ) : Prop :=
  (n = 0 ∨ rawget t (.int n) ≠ .nil) ∧ rawget t (.int (n + 1)) = .nil

/-- A length operator: any choice of a border for every table. -/
structure LengthOp where
  len : Table → ℕ
  border : ∀ t, IsBorder t (len t)

/-- The length operator that returns the least border. -/
def LengthOp.least : LengthOp where
  len t := (ipairs t).length
  border t := by
    refine ⟨?_, ipairs_stops t⟩
    rcases Nat.eq_zero_or_pos (ipairs t).length with h | h
    · exact Or.inl h
    · right
      have := (ipairs_getElem (t := t) (j := (ipairs t).length - 1) (by omega)).2
      rw [show (((ipairs t).length - 1 : ℕ) : ℤ) + 1 = (ipairs t).length by omega] at this
      exact this

instance decidableEqNil : (v : Value) → Decidable (v = .nil)
  | .nil => .isTrue rfl
  | .scalar _ => .isFalse nofun
  | .str _ => .isFalse nofun
  | .table _ => .isFalse nofun

instance decidableIsBorder (t : Table) (n : ℕ) : Decidable (IsBorder t n) :=
  inferInstanceAs (Decidable ((n = 0 ∨ rawget t (.int n) ≠ .nil) ∧ rawget t (.int (n + 1)) = .nil))

/-- The length operator that returns `n` wherever it is a border. -/
def LengthOp.preferring (n : ℕ) : LengthOp where
  len t := if IsBorder t n then n else LengthOp.least.len t
  border t := by
    split_ifs with h
    · exact h
    · exact LengthOp.least.border t

/-- Every length operator returns the number of elements of a sequence. -/
theorem LengthOp.len_ofList (L : LengthOp) {vs : List Value} (h : ∀ v ∈ vs, v ≠ .nil) :
    L.len (ofList vs) = vs.length := by
  obtain ⟨h1, h2⟩ := L.border (ofList vs)
  rw [rawget_ofList] at h2
  rcases Nat.lt_trichotomy (L.len (ofList vs)) vs.length with hlt | heq | hgt
  · rw [List.getElem?_eq_getElem hlt] at h2
    exact absurd h2 (h _ (List.getElem_mem hlt))
  · exact heq
  · rcases h1 with h1 | h1
    · omega
    · obtain ⟨m, hm⟩ : ∃ m, L.len (ofList vs) = m + 1 := ⟨L.len (ofList vs) - 1, by omega⟩
      rw [hm] at h1
      push_cast at h1
      rw [rawget_ofList, List.getElem?_eq_none (by omega)] at h1
      exact absurd rfl h1

end Lua
