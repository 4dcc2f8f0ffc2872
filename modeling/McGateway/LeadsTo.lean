import Mathlib

/-! # Runs that get somewhere

A system whose steps are well-founded comes to rest: it has no endless run (`no_endless_run`), and from
every state it reaches one without a step (`exists_stuck`).  If it is one of several that take turns, it
comes to rest on every run on which it is not passed over for ever (`eventually_stuck`).

Along a run that goes on for ever, `LeadsTo f P Q` says that whenever `P` holds, `Q` holds then or
later.  The rules are those of the relation: transitivity, cases, and a variant that decreases with
every step until `Q` holds (`LeadsTo.of_variant`). -/

/-! ### Systems that come to rest -/

section rest
variable {σ : Type*} {step : σ → σ → Prop}

/-- A state from which every run ends reaches one that has no step. -/
theorem exists_stuck {s : σ} (h : Acc (fun t s => step s t) s) :
    ∃ t, Relation.ReflTransGen step s t ∧ ∀ u, ¬step t u := by
  induction h with
  | intro s _ ih =>
      by_cases hstuck : ∀ u, ¬step s u
      · exact ⟨s, .refl, hstuck⟩
      · push Not at hstuck
        obtain ⟨u, hu⟩ := hstuck
        obtain ⟨t, hrun, ht⟩ := ih u hu
        exact ⟨t, .head hu hrun, ht⟩

/-- A run that only takes such steps ends. -/
theorem no_endless_run {s : σ} (h : Acc (fun t s => step s t) s) (f : ℕ → σ) (hf : f 0 = s) :
    ∃ n, ¬step (f n) (f (n + 1)) := by
  by_contra hnone
  push Not at hnone
  exact (acc_iff_isEmpty_descending_chain.mp h).false ⟨f, hf, hnone⟩

/-- As long as it takes no step, a system stays where it is. -/
theorem eq_of_no_step {f : ℕ → σ} (hstep : ∀ n, step (f n) (f (n + 1)) ∨ f (n + 1) = f n) {n m : ℕ}
    (hnm : n ≤ m) (hnone : ∀ k, n ≤ k → k < m → ¬step (f k) (f (k + 1))) : f m = f n := by
  induction m, hnm using Nat.le_induction with
  | base => rfl
  | succ m hm ih =>
      rw [(hstep m).resolve_left (hnone m hm (Nat.lt_succ_self m))]
      exact ih fun k hk hkm => hnone k hk (by omega)

/-- A system whose turn comes again and again comes to rest. -/
theorem eventually_stuck {f : ℕ → σ} (hstep : ∀ n, step (f n) (f (n + 1)) ∨ f (n + 1) = f n)
    (hturn : ∀ n, ∃ m, n ≤ m ∧ (step (f m) (f (m + 1)) ∨ ∀ u, ¬step (f m) u)) {s : σ}
    (h : Acc (fun t s => step s t) s) : ∀ n, f n = s →
      ∃ m, n ≤ m ∧ (∀ u, ¬step (f m) u) ∧ ∀ k, m ≤ k → f k = f m := by
  induction h with
  | intro s _ ih =>
      intro n hn
      by_cases hmoves : ∃ j, n ≤ j ∧ step (f j) (f (j + 1))
      · -- the first step after `n`
        classical
        obtain ⟨hj, hs⟩ := Nat.find_spec hmoves
        have hat : f (Nat.find hmoves) = s := by
          rw [eq_of_no_step hstep hj, hn]
          exact fun k hk hlt hstep => Nat.find_min hmoves hlt ⟨hk, hstep⟩
        obtain ⟨m, hm, hrest⟩ := ih _ (hat ▸ hs) _ rfl
        exact ⟨m, by omega, hrest⟩
      · push Not at hmoves
        obtain ⟨m, hm, hact⟩ := hturn n
        refine ⟨m, hm, hact.resolve_left (hmoves m hm), ?_⟩
        intro k hk
        exact eq_of_no_step hstep hk fun i hi _ => hmoves i (hm.trans hi)

/-- A finite run, followed by rest, goes on for ever. -/
theorem exists_endless {s t : σ} (h : Relation.ReflTransGen step s t) :
    ∃ (f : ℕ → σ) (N : ℕ), f 0 = s ∧ (∀ n, n < N → step (f n) (f (n + 1))) ∧ ∀ n, N ≤ n → f n = t := by
  induction h using Relation.ReflTransGen.head_induction_on with
  | refl => exact ⟨fun _ => t, 0, rfl, fun n hn => absurd hn (Nat.not_lt_zero n), fun _ _ => rfl⟩
  | @head a c hstep _ ih =>
      obtain ⟨f, N, h0, hsteps, hrest⟩ := ih
      refine ⟨fun n => n.casesOn a f, N + 1, rfl, ?_, ?_⟩
      · intro n hn
        cases n with
        | zero =>
            show step a (f 0)
            rwa [h0]
        | succ n => exact hsteps n (by omega)
      · intro n hn
        cases n with
        | zero => omega
        | succ n => exact hrest n (by omega)

end rest

/-! ### Along an endless run -/

/-- Whenever `P` holds along the run, `Q` holds then or later. -/
def LeadsTo {σ : Type*} (f : ℕ → σ) (P Q : σ → Prop) : Prop := ∀ n, P (f n) → ∃ m, n ≤ m ∧ Q (f m)

section leads
variable {σ : Type*} {f : ℕ → σ} {P Q R : σ → Prop}

theorem LeadsTo.refl : LeadsTo f P P := fun n h => ⟨n, le_rfl, h⟩

theorem LeadsTo.trans (hPQ : LeadsTo f P Q) (hQR : LeadsTo f Q R) : LeadsTo f P R := by
  intro n hP
  obtain ⟨m, hm, hQ⟩ := hPQ n hP
  obtain ⟨k, hk, hR⟩ := hQR m hQ
  exact ⟨k, hm.trans hk, hR⟩

/-- By cases on what holds. -/
theorem LeadsTo.elim (hP : LeadsTo f P R) (hQ : LeadsTo f Q R) : LeadsTo f (fun s => P s ∨ Q s) R :=
  fun n h => h.elim (hP n) (hQ n)

/-- Until `Q` holds, every step keeps `P` and decreases the variant. -/
theorem LeadsTo.of_variant {β : Type*} [Preorder β] [WellFoundedLT β] (μ : σ → β)
    (h : ∀ n, P (f n) → Q (f n) ∨ Q (f (n + 1)) ∨ P (f (n + 1)) ∧ μ (f (n + 1)) < μ (f n)) :
    LeadsTo f P Q := by
  have hall : ∀ b n, μ (f n) = b → P (f n) → ∃ m, n ≤ m ∧ Q (f m) := by
    intro b
    induction b using WellFoundedLT.induction with
    | ind b ih =>
        intro n hb hP
        rcases h n hP with hQ | hQ | ⟨hP', hlt⟩
        · exact ⟨n, le_rfl, hQ⟩
        · exact ⟨n + 1, Nat.le_succ n, hQ⟩
        · obtain ⟨m, hm, hQ⟩ := ih _ (hb ▸ hlt) (n + 1) rfl hP'
          exact ⟨m, by omega, hQ⟩
  exact fun n hP => hall _ n rfl hP

/-- What is never left holds from then on. -/
theorem stays (hstable : ∀ n, P (f n) → P (f (n + 1))) {n m : ℕ} (hnm : n ≤ m) (h : P (f n)) : P (f m) := by
  induction m, hnm using Nat.le_induction with
  | base => exact h
  | succ m _ ih => exact hstable m ih

/-- Where something has ceased to hold, there is a last moment at which it did. -/
theorem exists_ceases {n m : ℕ} (hnm : n ≤ m) (h : P (f n)) (h' : ¬P (f m)) :
    ∃ k, n ≤ k ∧ P (f k) ∧ ¬P (f (k + 1)) := by
  by_contra hnone
  push Not at hnone
  apply h'
  induction m, hnm using Nat.le_induction with
  | base => exact h
  | succ m hm ih =>
      apply hnone m hm
      by_contra hm'
      exact hm' (ih hm')

end leads
