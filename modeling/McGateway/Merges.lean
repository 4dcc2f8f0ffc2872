import McGateway.ByteStrings
import McGateway.Selections

/-! # Merges (`mcgateway-core`)

A merge decides, from the ordered list of per-pool responses to a read, which response the client
gets.  The three built-in strategies are translated loop by loop; `t` is the remaining TTL of a
hit, a 64-bit signed integer.  `firstHitFrom_spec` and `lastWriteWins_spec` say which entry the
loops select: the first hit, and the first among the hits of greatest `t`. -/

namespace McGateway.Core

open Bytes (ascii)
open Selections (FirstAt LeftmostMax)

inductive Status where
  | hit
  | miss
  | error
deriving DecidableEq, Repr

/-- A single pool's response, as a merge sees it. -/
structure Entry where
  key : Bytes
  pool : Bytes
  status : Status
  t : Option Int64
  value : Option Bytes
  line : Option Bytes
deriving DecidableEq

inductive MergeResult where
  /-- The zero-based index of the winning entry. -/
  | winner (i : ℕ)
  /-- Fresh bytes. -/
  | synthesized (bytes : Bytes)
  | miss
deriving DecidableEq, Repr

/-- A merge with the meta flags it wants on reads. -/
structure Merge where
  apply : List Entry → MergeResult
  requiredFlags : Bytes

/-! ### Built-ins -/

/-- The loop of `FirstHit`, from index `i`. -/
def firstHitFrom : ℕ → List Entry → MergeResult
  | _, [] => .miss
  | i, e :: es => if e.status = .hit then .winner i else firstHitFrom (i + 1) es

def firstHit : Merge := ⟨firstHitFrom 0, []⟩

def poolPreferred : Merge := ⟨firstHit.apply, []⟩

/-- One round of the loop of `LastWriteWins`. -/
def lastWriteWinsStep (best : Option (ℕ × Option Int64)) (i : ℕ) (e : Entry) :
    Option (ℕ × Option Int64) :=
  if e.status ≠ .hit then best
  else match best with
    | none => some (i, e.t)
    | some (_, bestT) =>
        match e.t with
        | none => best
        | some thisT =>
            match bestT with
            | none => some (i, some thisT)
            | some b => if b < thisT then some (i, some thisT) else best

/-- The loop of `LastWriteWins`, from index `i`. -/
def lastWriteWinsFrom : Option (ℕ × Option Int64) → ℕ → List Entry → Option (ℕ × Option Int64)
  | best, _, [] => best
  | best, i, e :: es => lastWriteWinsFrom (lastWriteWinsStep best i e) (i + 1) es

def lastWriteWins : Merge where
  apply entries :=
    match lastWriteWinsFrom none 0 entries with
    | some (i, _) => .winner i
    | none => .miss
  requiredFlags := ascii "t"

/-- The built-in registry. -/
def builtins : List (Bytes × Merge) :=
  [(ascii "first-hit", firstHit), (ascii "pool-preferred", poolPreferred),
    (ascii "last-write-wins", lastWriteWins)]

/-! ### What the loops select -/

theorem firstHitFrom_spec : ∀ (es : List Entry) (k : ℕ),
    (∃ i e, FirstAt (fun e => e.status = .hit) es i e ∧ firstHitFrom k es = .winner (k + i)) ∨
      ((∀ e ∈ es, e.status ≠ .hit) ∧ firstHitFrom k es = .miss)
  | [], _ => .inr ⟨by simp, rfl⟩
  | e :: es, k => by
      unfold firstHitFrom
      by_cases he : e.status = .hit
      · rw [if_pos he]
        exact .inl ⟨0, e, Selections.firstAt_cons he, rfl⟩
      · rw [if_neg he]
        rcases firstHitFrom_spec es (k + 1) with ⟨i, e', h, hi⟩ | ⟨h, hi⟩
        · refine .inl ⟨i + 1, e', h.cons he, ?_⟩
          rw [hi, Nat.add_assoc, Nat.add_comm 1]
        · exact .inr ⟨List.forall_mem_cons.mpr ⟨he, h⟩, hi⟩

/-- Hits are ranked by `t`; one without it ranks below the others. -/
def ttlRank (e : Entry) : WithBot ℤ := e.t.elim ⊥ fun t => (t.toInt : WithBot ℤ)

/-- The accumulator of `LastWriteWins` is the selected entry of the part already visited. -/
def BestSoFar (done : List Entry) : Option (ℕ × Option Int64) → Prop
  | none => ∀ e ∈ done, e.status ≠ .hit
  | some (i, t) => ∃ e, e.t = t ∧ LeftmostMax (fun e => e.status = .hit) ttlRank done i e

theorem lastWriteWinsStep_best {done : List Entry} {best : Option (ℕ × Option Int64)} (e : Entry)
    (h : BestSoFar done best) : BestSoFar (done ++ [e]) (lastWriteWinsStep best done.length e) := by
  unfold lastWriteWinsStep
  by_cases hhit : e.status = .hit
  · rw [if_neg (not_not.mpr hhit)]
    match best, h with
    | none, h => exact ⟨e, rfl, Selections.leftmostMax_snoc h hhit⟩
    | some (i, bestT), ⟨b, hb, hmax⟩ =>
        cases ht : e.t with
        | none => exact ⟨b, hb, hmax.snoc_of_le fun _ => by simp [ttlRank, ht]⟩
        | some t =>
            cases bestT with
            | none => exact ⟨e, ht, hmax.snoc_of_lt hhit (by simp [ttlRank, ht, hb])⟩
            | some bt =>
                by_cases hlt : bt < t
                · simp only [if_pos hlt]
                  refine ⟨e, ht, hmax.snoc_of_lt hhit ?_⟩
                  simpa [ttlRank, ht, hb] using Int64.lt_iff_toInt_lt.mp hlt
                · simp only [if_neg hlt]
                  refine ⟨b, hb, hmax.snoc_of_le fun _ => ?_⟩
                  have hle : t.toInt ≤ bt.toInt := by
                    rw [Int64.lt_iff_toInt_lt] at hlt
                    omega
                  simpa [ttlRank, ht, hb] using hle
  · rw [if_pos hhit]
    match best, h with
    | none, h =>
        intro x hx
        rcases List.mem_append.mp hx with hx | hx
        · exact h x hx
        · rwa [List.mem_singleton.mp hx]
    | some (i, t), ⟨b, hb, hmax⟩ => exact ⟨b, hb, hmax.snoc_of_le fun hp => absurd hp hhit⟩

theorem lastWriteWinsFrom_best : ∀ (es done : List Entry) (best : Option (ℕ × Option Int64)),
    BestSoFar done best → BestSoFar (done ++ es) (lastWriteWinsFrom best done.length es)
  | [], done, best, h => by rwa [List.append_nil]
  | e :: es, done, best, h => by
      have := lastWriteWinsFrom_best es (done ++ [e]) _ (lastWriteWinsStep_best e h)
      rwa [List.append_assoc, List.length_append] at this

theorem lastWriteWins_spec (es : List Entry) :
    (∃ i e, LeftmostMax (fun e => e.status = .hit) ttlRank es i e ∧
        lastWriteWins.apply es = .winner i) ∨
      ((∀ e ∈ es, e.status ≠ .hit) ∧ lastWriteWins.apply es = .miss) := by
  have h : BestSoFar es (lastWriteWinsFrom none 0 es) :=
    lastWriteWinsFrom_best es [] none (by simp [BestSoFar])
  simp only [lastWriteWins]
  cases hb : lastWriteWinsFrom none 0 es with
  | none =>
      rw [hb] at h
      exact .inr ⟨h, rfl⟩
  | some best =>
      obtain ⟨i, t⟩ := best
      rw [hb] at h
      obtain ⟨e, _, he⟩ := h
      exact .inl ⟨i, e, he, rfl⟩

end McGateway.Core
