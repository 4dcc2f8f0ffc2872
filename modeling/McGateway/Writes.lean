import McGateway.Routes

/-! # The strongest negative (`reduce_write_all`)

Under the policy `all` a write waits for every pool and reports the worst response: an error before
a negative answer before a success.  The loop keeps a response and its rank, where a missing
response is an error like any other, except that a concrete response replaces it.

In one number this is `writeWeight`: the rank first, then whether there is a response.  The loop
selects the first response of greatest weight (`foldl_reduceStep_worst`), and everything that is
said about the answer follows from that. -/

namespace McGateway.Read

open Bytes (ascii fromUtf8Lossy)
open Selections (FirstAt LeftmostMax)

/-! ### Ranks -/

/-- The pool has stored the value. -/
def Stored (res : Option WriteResponse) : Prop :=
  ∃ r, res = some r ∧ r.ok = true ∧ (r.code = .stored ∨ r.code = .deleted ∨ r.code = .ok)

theorem one_le_writeRank (res : Option WriteResponse) : 1 ≤ writeRank res := by
  unfold writeRank
  cases res with
  | none => decide
  | some r =>
      obtain ⟨ok, code⟩ := r
      cases ok with
      | false => simp
      | true => cases code <;> simp

theorem writeRank_le_three (res : Option WriteResponse) : writeRank res ≤ 3 := by
  unfold writeRank
  cases res with
  | none => decide
  | some r =>
      obtain ⟨ok, code⟩ := r
      cases ok with
      | false => simp
      | true => cases code <;> simp

theorem writeRank_eq_one {res : Option WriteResponse} : writeRank res = 1 ↔ Stored res := by
  unfold writeRank Stored
  cases res with
  | none => simp
  | some r =>
      obtain ⟨ok, code⟩ := r
      cases ok with
      | false => simp
      | true => cases code <;> simp

/-! ### The loop -/

/-- The rank first, then whether there is a response. -/
def writeWeight (res : Option WriteResponse) : ℤ := 2 * writeRank res + if res.isSome then 1 else 0

/-- The accumulator of the loop, once it has seen a response. -/
def WorstSoFar (done : List (Option WriteResponse)) (acc : Option WriteResponse × ℤ) : Prop :=
  acc.2 = writeRank acc.1 ∧ ∃ i, LeftmostMax (fun _ => True) writeWeight done i acc.1

theorem reduceStep_first (res : Option WriteResponse) : WorstSoFar [res] (reduceStep (none, -1) res) := by
  have hlt : (-1 : ℤ) < writeRank res := by
    have := one_le_writeRank res
    omega
  unfold reduceStep
  rw [if_pos hlt]
  refine ⟨rfl, 0, ?_⟩
  exact Selections.leftmostMax_snoc (l := []) (by simp) trivial

theorem reduceStep_worst {done : List (Option WriteResponse)} {acc : Option WriteResponse × ℤ}
    (res : Option WriteResponse) (h : WorstSoFar done acc) : WorstSoFar (done ++ [res]) (reduceStep acc res) := by
  obtain ⟨worst, rank⟩ := acc
  obtain ⟨hrank, i, hmax⟩ := h
  simp only at hrank hmax
  subst hrank
  unfold reduceStep
  simp only
  split_ifs with hlt htie
  · refine ⟨rfl, done.length, hmax.snoc_of_lt trivial ?_⟩
    unfold writeWeight
    split_ifs <;> omega
  · obtain ⟨heq, rfl, hres⟩ := htie
    refine ⟨heq.symm, done.length, hmax.snoc_of_lt trivial ?_⟩
    have hsome : res.isSome = true := Option.isSome_iff_ne_none.mpr hres
    simp [writeWeight, hsome, heq]
  · refine ⟨rfl, i, hmax.snoc_of_le fun _ => ?_⟩
    -- a response of the same rank weighs more only if it replaces a missing one
    unfold writeWeight
    by_cases heq : writeRank res = writeRank worst
    · cases worst with
      | some w => split_ifs <;> simp_all
      | none =>
          cases res with
          | none => simp
          | some r => exact absurd ⟨heq, rfl, by simp⟩ htie
    · split_ifs <;> omega

theorem foldl_reduceStep_worst : ∀ (row done : List (Option WriteResponse)) (acc : Option WriteResponse × ℤ),
    WorstSoFar done acc → WorstSoFar (done ++ row) (row.foldl reduceStep acc)
  | [], done, acc, h => by rwa [List.append_nil]
  | res :: row, done, acc, h => by
      have hnext := foldl_reduceStep_worst row (done ++ [res]) _ (reduceStep_worst res h)
      rwa [List.append_assoc] at hnext

/-! ### The answer -/

/-- The worst of the responses, with its rank. -/
structure StrongestNegative (row : List (Option WriteResponse)) (answer : Answer) (rank : ℤ) : Prop where
  /-- The rank is that of a pool, -/
  attained : ∃ res ∈ row, writeRank res = rank
  /-- and no pool has a greater one. -/
  greatest : ∀ res ∈ row, writeRank res ≤ rank
  /-- The answer is the first concrete response of that rank, if there is one. -/
  answer : (∃ i r, FirstAt (fun res => res ≠ none ∧ writeRank res = rank) row i (some r) ∧
      answer = .write (some r)) ∨
    (rank = 3 ∧ (∀ res ∈ row, writeRank res = 3 → res = none) ∧ answer = .text noBackends)

theorem StrongestNegative.of_worst {row : List (Option WriteResponse)} {worst : Option WriteResponse} {i : ℕ}
    (h : LeftmostMax (fun _ => True) writeWeight row i worst) :
    StrongestNegative row (worst.elim (.text noBackends) fun r => .write (some r)) (writeRank worst) := by
  refine ⟨⟨worst, List.mem_of_getElem? h.get, rfl⟩, ?_, ?_⟩
  · intro res hres
    have hle := h.le res hres trivial
    unfold writeWeight at hle
    split_ifs at hle <;> omega
  · cases worst with
    | some r =>
        refine Or.inl ⟨i, r, ⟨h.get, ⟨by simp, rfl⟩, ?_⟩, rfl⟩
        intro j res hj hget hres
        have hlt := h.before j res hj hget trivial
        have hsome : res.isSome = true := Option.isSome_iff_ne_none.mpr hres.1
        simp [writeWeight, hsome, hres.2] at hlt
    | none =>
        refine Or.inr ⟨rfl, ?_, rfl⟩
        intro res hres hrank
        cases res with
        | none => rfl
        | some r =>
            have hle := h.le (some r) hres trivial
            have hnone : writeRank none = 3 := rfl
            simp [writeWeight, hrank, hnone] at hle

theorem reduceWriteAll_strongest (first : Option WriteResponse) (rest : List (Option WriteResponse)) :
    StrongestNegative (first :: rest) (reduceWriteAll (first :: rest)).1 (reduceWriteAll (first :: rest)).2 := by
  have hloop := foldl_reduceStep_worst rest [first] _ (reduceStep_first first)
  have hrow : rest.foldl reduceStep (reduceStep (none, -1) first) =
      (first :: rest).foldl reduceStep (none, -1) := rfl
  rw [hrow] at hloop
  obtain ⟨hrank, i, hmax⟩ := hloop
  unfold reduceWriteAll
  revert hrank hmax
  generalize (first :: rest).foldl reduceStep (none, -1) = acc
  intro hrank hmax
  obtain ⟨worst, rank⟩ := acc
  simp only at hrank hmax
  subst hrank
  have hstrong := StrongestNegative.of_worst hmax
  cases worst with
  | none => exact hstrong
  | some r => exact hstrong

/-- The rank is determined by the responses, whatever their order. -/
theorem StrongestNegative.rank_eq {row row' : List (Option WriteResponse)} {answer answer' : Answer}
    {rank rank' : ℤ} (h : StrongestNegative row answer rank) (h' : StrongestNegative row' answer' rank')
    (hmem : ∀ res, res ∈ row ↔ res ∈ row') : rank = rank' := by
  obtain ⟨res, hres, hrank⟩ := h.attained
  obtain ⟨res', hres', hrank'⟩ := h'.attained
  have hle := h'.greatest res ((hmem res).mp hres)
  have hle' := h.greatest res' ((hmem res').mpr hres')
  omega

theorem StrongestNegative.rank_eq_one {row : List (Option WriteResponse)} {answer : Answer} {rank : ℤ}
    (h : StrongestNegative row answer rank) : rank = 1 ↔ ∀ res ∈ row, Stored res := by
  constructor
  · intro hone res hres
    have hle := h.greatest res hres
    have hge := one_le_writeRank res
    exact writeRank_eq_one.mp (by omega)
  · intro hall
    obtain ⟨res, hres, hrank⟩ := h.attained
    rw [← hrank]
    exact writeRank_eq_one.mpr (hall res hres)

theorem StrongestNegative.answer_eq_noBackends {row : List (Option WriteResponse)} {answer : Answer} {rank : ℤ}
    (h : StrongestNegative row answer rank) :
    answer = .text noBackends ↔ rank = 3 ∧ ∀ res ∈ row, writeRank res = 3 → res = none := by
  obtain ⟨i, r, hfirst, rfl⟩ | ⟨hrank, hnone, rfl⟩ := h.answer
  · refine ⟨fun h => (nomatch h), ?_⟩
    rintro ⟨rfl, hnone⟩
    have hmem := List.mem_of_getElem? hfirst.get
    exact absurd (hnone _ hmem hfirst.holds.2) (by simp)
  · exact ⟨fun _ => ⟨hrank, hnone⟩, fun _ => rfl⟩

/-- The client gets the response of a pool that has stored the value. -/
def Answer.success : Answer → Prop
  | .write res => Stored res
  | _ => False

theorem StrongestNegative.success_iff {row : List (Option WriteResponse)} {answer : Answer} {rank : ℤ}
    (h : StrongestNegative row answer rank) : answer.success ↔ rank = 1 := by
  obtain ⟨i, r, hfirst, rfl⟩ | ⟨rfl, -, rfl⟩ := h.answer
  · have hrank : writeRank (some r) = rank := hfirst.holds.2
    rw [← hrank, writeRank_eq_one]
    rfl
  · exact iff_of_false (fun h => h) (by decide)

/-- What the handler counts. -/
theorem StrongestNegative.countWrite_eq {row : List (Option WriteResponse)} {answer : Answer} {rank : ℤ}
    (h : StrongestNegative row answer rank) (keyPrefix : Bytes) :
    (countWrite keyPrefix answer rank).1 = answer ∧
    ((countWrite keyPrefix answer rank).2 = [⟨fromUtf8Lossy keyPrefix, ascii "write", ascii "stored"⟩] ↔
      rank = 1) := by
  obtain ⟨res, -, rfl⟩ := h.attained
  have hwrite : opLabel (fromUtf8Lossy (ascii "write")) = ascii "write" := by decide
  have hstored : outcomeLabel (fromUtf8Lossy (ascii "stored")) = ascii "stored" := by decide
  have hnegative : outcomeLabel (fromUtf8Lossy (ascii "negative")) ≠ ascii "stored" := by decide
  have herror : outcomeLabel (fromUtf8Lossy (ascii "error")) ≠ ascii "stored" := by decide
  have hge := one_le_writeRank res
  have hle := writeRank_le_three res
  obtain hrank | hrank | hrank : writeRank res = 1 ∨ writeRank res = 2 ∨ writeRank res = 3 := by omega
  · simp [countWrite, writeOutcome, observe, hrank, hwrite, hstored]
  · simp [countWrite, writeOutcome, observe, hrank, hnegative]
  · simp [countWrite, writeOutcome, observe, hrank, herror]

/-- A write to at least one pool reports the strongest negative: the greatest rank, and the first
concrete response of that rank.  It succeeds, and is counted as stored, exactly if every pool has
stored the value; the generic error stands only for errors without a response; and the rank does not
depend on the order of the pools. -/
theorem reduce_write_all_strongest (first : Option WriteResponse) (rest : List (Option WriteResponse)) :
    StrongestNegative (first :: rest) (reduceWriteAll (first :: rest)).1 (reduceWriteAll (first :: rest)).2 ∧
    ((reduceWriteAll (first :: rest)).1.success ↔ ∀ res ∈ first :: rest, Stored res) ∧
    (∀ keyPrefix,
      (countWrite keyPrefix (reduceWriteAll (first :: rest)).1 (reduceWriteAll (first :: rest)).2).1 =
        (reduceWriteAll (first :: rest)).1 ∧
      ((countWrite keyPrefix (reduceWriteAll (first :: rest)).1 (reduceWriteAll (first :: rest)).2).2 =
          [⟨fromUtf8Lossy keyPrefix, ascii "write", ascii "stored"⟩] ↔
        ∀ res ∈ first :: rest, Stored res)) ∧
    ((reduceWriteAll (first :: rest)).1 = .text noBackends ↔
      (reduceWriteAll (first :: rest)).2 = 3 ∧ ∀ res ∈ first :: rest, writeRank res = 3 → res = none) ∧
    ∀ row, row.Perm (first :: rest) → (reduceWriteAll row).2 = (reduceWriteAll (first :: rest)).2 := by
  have hstrong := reduceWriteAll_strongest first rest
  refine ⟨hstrong, ?_, ?_, hstrong.answer_eq_noBackends, ?_⟩
  · rw [hstrong.success_iff, hstrong.rank_eq_one]
  · intro keyPrefix
    rw [← hstrong.rank_eq_one]
    exact hstrong.countWrite_eq keyPrefix
  · intro row hperm
    cases row with
    | nil => exact absurd hperm.symm.eq_nil (by simp)
    | cons first' rest' => exact (reduceWriteAll_strongest first' rest').rank_eq hstrong fun _ => hperm.mem_iff

end McGateway.Read
