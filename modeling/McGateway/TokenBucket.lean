import Mathlib

/-! # The log token bucket (`TokenBucket` of `metrics.rs`)

`try_acquire_at` works on two shared atomics, and takes up to four atomic steps: it loads
`refilled_to`, advances it by compare-and-exchange over the tokens that the time has earned, adds
those tokens, and takes one.  A call is therefore a small machine (`Call`, `advance`); any number of
calls are interleaved (`Step`), and a call that nobody disturbs is `tryAcquireAt`.  Operations on
`u64` that overflow end a call in `overflow`.

The account that bounds the grants is `Inv.account`: a token is granted, in the bucket, or owed by a
call that has advanced `refilled_to` and not yet added what it earned, and there are no more of them
than `refilled_to` has paid for.

For calls one after the other, in the order of their times, `refilled_to` follows the time
(`Settled`), and the same account taken from the first call of a window gives the bound for the
window (`grantsIn_le`). -/

namespace McGateway.Metrics

/-! ### Machine integers -/

def checkedAdd (x y : UInt64) : Option UInt64 := if x.toNat + y.toNat < 2 ^ 64 then some (x + y) else none

def checkedMul (x y : UInt64) : Option UInt64 := if x.toNat * y.toNat < 2 ^ 64 then some (x * y) else none

def checkedSub (x y : UInt64) : Option UInt64 := if y ≤ x then some (x - y) else none

def u64Max : UInt64 := UInt64.ofNat (2 ^ 64 - 1)

def saturatingAdd (x y : UInt64) : UInt64 := (checkedAdd x y).getD u64Max

theorem checkedAdd_eq {x y : UInt64} (h : x.toNat + y.toNat < 2 ^ 64) :
    ∃ z, checkedAdd x y = some z ∧ z.toNat = x.toNat + y.toNat := by
  refine ⟨x + y, if_pos h, ?_⟩
  rw [UInt64.toNat_add, Nat.mod_eq_of_lt h]

theorem checkedMul_eq {x y : UInt64} (h : x.toNat * y.toNat < 2 ^ 64) :
    ∃ z, checkedMul x y = some z ∧ z.toNat = x.toNat * y.toNat := by
  refine ⟨x * y, if_pos h, ?_⟩
  rw [UInt64.toNat_mul, Nat.mod_eq_of_lt h]

theorem checkedSub_eq {x y : UInt64} (h : y ≤ x) :
    ∃ z, checkedSub x y = some z ∧ z.toNat = x.toNat - y.toNat :=
  ⟨x - y, if_pos h, UInt64.toNat_sub_of_le x y h⟩

theorem toNat_saturatingAdd_le (x y : UInt64) : (saturatingAdd x y).toNat ≤ x.toNat + y.toNat := by
  unfold saturatingAdd
  by_cases h : x.toNat + y.toNat < 2 ^ 64
  · obtain ⟨z, hz, hsum⟩ := checkedAdd_eq h
    rw [hz, Option.getD_some, hsum]
  · have hmax : u64Max.toNat = 2 ^ 64 - 1 := by decide
    rw [checkedAdd, if_neg h, Option.getD_none, hmax]
    omega

/-! ### One call -/

structure TokenBucket where
  capacity : UInt64
  nanosPerToken : UInt64
  nanos_pos : 0 < nanosPerToken.toNat

/-- `TokenBucket::new`; the interval is in nanoseconds. -/
def TokenBucket.new (capacity : UInt64) (refillInterval : ℕ) : TokenBucket where
  capacity := capacity
  nanosPerToken := if max refillInterval 1 < 2 ^ 64 then UInt64.ofNat (max refillInterval 1) else u64Max
  nanos_pos := by
    split_ifs with h
    · rw [UInt64.toNat_ofNat_of_lt' h]
      omega
    · decide

/-- The tokens that a time has earned. -/
def TokenBucket.earnedBy (b : TokenBucket) (t : ℕ) : ℕ := t / b.nanosPerToken.toNat

/-- The atomics. -/
structure Shared where
  refilledTo : UInt64
  tokens : UInt64
deriving DecidableEq, Repr

def TokenBucket.initial (b : TokenBucket) : Shared := ⟨0, b.capacity⟩

/-- The point that a call has reached: what it does next. -/
inductive Call where
  | load (now : UInt64)
  | exchange (last next earned : UInt64)
  | credit (earned : UInt64)
  | take
  /-- An operation has overflowed. -/
  | overflow
deriving DecidableEq, Repr

/-- What a call does with the value it has loaded. -/
def afterLoad (b : TokenBucket) (now last : UInt64) : Call :=
  if last < now then
    match checkedSub now last with
    | none => .overflow
    | some elapsed =>
        let earned := elapsed / b.nanosPerToken
        if 0 < earned then
          match (checkedMul earned b.nanosPerToken).bind (checkedAdd last) with
          | none => .overflow
          | some next => .exchange last next earned
        else .take
  else .take

/-- One atomic step: the call goes on, or returns whether it got a token. -/
def advance (b : TokenBucket) : Call → Shared → Option (Shared × (Call ⊕ Bool))
  | .load now, s => some (s, .inl (afterLoad b now s.refilledTo))
  | .exchange last next earned, s =>
      if s.refilledTo = last then some ({ s with refilledTo := next }, .inl (.credit earned))
      else some (s, .inl .take)
  | .credit earned, s =>
      some ({ s with tokens := min (saturatingAdd s.tokens earned) b.capacity }, .inl .take)
  | .take, s =>
      match checkedSub s.tokens 1 with
      | some t => some ({ s with tokens := t }, .inr true)
      | none => some (s, .inr false)
  | .overflow, _ => none

/-- The next `n` steps of a call that nobody disturbs. -/
def finish (b : TokenBucket) : ℕ → Call → Shared → Option (Shared × Bool)
  | 0, _, _ => none
  | n + 1, c, s =>
      match advance b c s with
      | some (s, .inl c) => finish b n c s
      | some (s, .inr granted) => some (s, granted)
      | none => none

def tryAcquireAt (b : TokenBucket) (now : UInt64) (s : Shared) : Option (Shared × Bool) :=
  finish b 4 (.load now) s

/-! ### Interleaved calls -/

structure World where
  shared : Shared
  /-- The calls that have not returned, of any number of threads. -/
  running : Multiset Call
  /-- The number of calls that have returned `true`. -/
  granted : ℕ
  /-- The largest time passed so far. -/
  latest : ℕ

def World.init (b : TokenBucket) : World := ⟨b.initial, 0, 0, 0⟩

inductive Step (b : TokenBucket) : World → World → Prop where
  | call (w : World) (now : UInt64) :
      Step b w { w with running := .load now ::ₘ w.running, latest := max w.latest now.toNat }
  | goes {s s' : Shared} {c c' : Call} {running : Multiset Call} {granted latest : ℕ} :
      advance b c s = some (s', .inl c') →
      Step b ⟨s, c ::ₘ running, granted, latest⟩ ⟨s', c' ::ₘ running, granted, latest⟩
  | returns {s s' : Shared} {c : Call} {running : Multiset Call} {granted latest : ℕ} {got : Bool} :
      advance b c s = some (s', .inr got) →
      Step b ⟨s, c ::ₘ running, granted, latest⟩ ⟨s', running, granted + got.toNat, latest⟩

def Reachable (b : TokenBucket) : World → Prop := Relation.ReflTransGen (Step b) (World.init b)

section
variable {b : TokenBucket}

/-! ### What a call has loaded and earned -/

theorem earnedBy_mono {t u : ℕ} (h : t ≤ u) : b.earnedBy t ≤ b.earnedBy u := Nat.div_le_div_right h

@[simp] theorem earnedBy_whole (k : ℕ) : b.earnedBy (b.nanosPerToken.toNat * k) = k :=
  Nat.mul_div_cancel_left k b.nanos_pos

theorem whole_earnedBy_le (t : ℕ) : b.nanosPerToken.toNat * b.earnedBy t ≤ t := Nat.mul_div_le t _

/-- With whole tokens credited so far, a later time is credited up to its whole tokens. -/
theorem afterLoad_cases {now last : UInt64} (hwhole : b.nanosPerToken.toNat ∣ last.toNat) :
    (afterLoad b now last = .take ∧ b.earnedBy now.toNat ≤ b.earnedBy last.toNat) ∨
    ∃ next earned, afterLoad b now last = .exchange last next earned ∧ last.toNat ≤ next.toNat ∧
      next.toNat = b.nanosPerToken.toNat * b.earnedBy now.toNat ∧
      b.earnedBy now.toNat = b.earnedBy last.toNat + earned.toNat := by
  unfold afterLoad
  by_cases hlt : last < now
  swap
  · rw [if_neg hlt]
    exact .inl ⟨rfl, earnedBy_mono (by rw [UInt64.lt_iff_toNat_lt] at hlt; omega)⟩
  obtain ⟨q, hq⟩ := hwhole
  obtain ⟨elapsed, helapsed, hsub⟩ := checkedSub_eq (UInt64.le_of_lt hlt)
  rw [if_pos hlt, helapsed, hq, earnedBy_whole]
  simp only
  have hearned : (elapsed / b.nanosPerToken).toNat = b.earnedBy now.toNat - q := by
    rw [UInt64.toNat_div, hsub, hq, Nat.sub_mul_div]
    rfl
  generalize elapsed / b.nanosPerToken = earned at hearned ⊢
  by_cases hpos : 0 < earned
  · have hpos' := UInt64.lt_iff_toNat_lt.mp hpos
    rw [UInt64.toNat_zero] at hpos'
    have hsum : b.earnedBy now.toNat = q + earned.toNat := by omega
    -- neither product nor sum exceeds the time
    have hle := whole_earnedBy_le (b := b) now.toNat
    have hnow := now.toNat_lt
    have hnext : b.nanosPerToken.toNat * b.earnedBy now.toNat =
        last.toNat + earned.toNat * b.nanosPerToken.toNat := by
      rw [hsum, hq]
      ring
    obtain ⟨product, hproduct, hmul⟩ := checkedMul_eq (x := earned) (y := b.nanosPerToken) (by omega)
    obtain ⟨next, hadd, hnext'⟩ := checkedAdd_eq (x := last) (y := product) (by omega)
    rw [if_pos hpos, hproduct, Option.bind_some, hadd]
    exact .inr ⟨next, earned, rfl, by omega, by omega, hsum⟩
  · rw [if_neg hpos]
    rw [UInt64.lt_iff_toNat_lt, UInt64.toNat_zero] at hpos
    exact .inl ⟨rfl, by omega⟩

/-! ### One step -/

/-- The atomics are in order, at a time when `latest` is the largest time passed. -/
structure SharedOk (b : TokenBucket) (latest : ℕ) (s : Shared) : Prop where
  tokens_le : s.tokens.toNat ≤ b.capacity.toNat
  whole : b.nanosPerToken.toNat ∣ s.refilledTo.toNat
  refilledTo_le : s.refilledTo.toNat ≤ latest

/-- What a call carries from one step to the next. -/
def CallOk (b : TokenBucket) (latest : ℕ) : Call → Prop
  | .load now => now.toNat ≤ latest
  | .exchange last next earned =>
      last.toNat ≤ next.toNat ∧ next.toNat ≤ latest ∧ b.nanosPerToken.toNat ∣ next.toNat ∧
        b.earnedBy next.toNat = b.earnedBy last.toNat + earned.toNat
  | .credit _ => True
  | .take => True
  | .overflow => False

/-- The tokens that a call has earned and not added. -/
def owed : Call → ℕ
  | .credit earned => earned.toNat
  | _ => 0

/-- The tokens that a step leaves with the call: owed, or granted. -/
def held : Call ⊕ Bool → ℕ
  | .inl c => owed c
  | .inr got => got.toNat

/-- What one atomic step keeps, and how it moves tokens. -/
structure Advances (b : TokenBucket) (latest : ℕ) (c : Call) (s s' : Shared) (out : Call ⊕ Bool) : Prop where
  shared : SharedOk b latest s'
  call : ∀ c', out = .inl c' → CallOk b latest c'
  mono : s.refilledTo.toNat ≤ s'.refilledTo.toNat
  account : s'.tokens.toNat + held out + b.earnedBy s.refilledTo.toNat ≤
    s.tokens.toNat + owed c + b.earnedBy s'.refilledTo.toNat

theorem SharedOk.unchanged {latest : ℕ} {s : Shared} {c c' : Call} (hs : SharedOk b latest s)
    (hc : CallOk b latest c') (howed : owed c' = 0) : Advances b latest c s s (.inl c') := by
  refine ⟨hs, ?_, le_rfl, ?_⟩
  · intro d hd
    rwa [← Sum.inl.inj hd]
  · simp only [held, howed]
    omega

theorem advance_take (s : Shared) : ∃ s' got, advance b .take s = some (s', .inr got) ∧
    s'.refilledTo = s.refilledTo ∧ s'.tokens.toNat + got.toNat = s.tokens.toNat := by
  unfold advance
  by_cases hpos : 1 ≤ s.tokens
  · obtain ⟨t, ht, hsub⟩ := checkedSub_eq hpos
    have hpos' := UInt64.le_iff_toNat_le.mp hpos
    rw [UInt64.toNat_one] at hpos' hsub
    simp only [ht]
    exact ⟨_, _, rfl, rfl, by simp only [Bool.toNat_true]; omega⟩
  · have hnone : checkedSub s.tokens 1 = none := if_neg hpos
    simp only [hnone]
    exact ⟨_, _, rfl, rfl, rfl⟩

theorem advance_spec {latest : ℕ} {c : Call} {s s' : Shared} {out : Call ⊕ Bool} (hs : SharedOk b latest s)
    (hc : CallOk b latest c) (h : advance b c s = some (s', out)) : Advances b latest c s s' out := by
  cases c with
  | load now =>
      obtain ⟨rfl, rfl⟩ := Prod.mk.inj (Option.some.inj h)
      have hle := whole_earnedBy_le (b := b) now.toNat
      have hnow : now.toNat ≤ latest := hc
      obtain ⟨htake, -⟩ | ⟨next, earned, hexchange, hmono, hnext, hearned⟩ := @afterLoad_cases b now _ hs.whole
      · rw [htake]
        exact hs.unchanged trivial rfl
      · rw [hexchange]
        refine hs.unchanged ⟨hmono, by omega, ?_, ?_⟩ rfl
        · rw [hnext]
          exact dvd_mul_right _ _
        · rw [hnext, earnedBy_whole, hearned]
  | exchange last next earned =>
      obtain ⟨hmono, hle, hwhole, hearned⟩ := hc
      simp only [advance] at h
      split_ifs at h with heq
      · obtain ⟨rfl, rfl⟩ := Prod.mk.inj (Option.some.inj h)
        refine ⟨⟨hs.tokens_le, hwhole, hle⟩, ?_, ?_, ?_⟩
        · intro d hd
          obtain rfl := Sum.inl.inj hd
          trivial
        · rw [heq]
          exact hmono
        · simp only [held, owed, heq]
          omega
      · obtain ⟨rfl, rfl⟩ := Prod.mk.inj (Option.some.inj h)
        exact hs.unchanged trivial rfl
  | credit earned =>
      obtain ⟨rfl, rfl⟩ := Prod.mk.inj (Option.some.inj h)
      have hsum := toNat_saturatingAdd_le s.tokens earned
      have hmin := UInt64.toNat_min (saturatingAdd s.tokens earned) b.capacity
      refine ⟨⟨by simp only; omega, hs.whole, hs.refilledTo_le⟩, ?_, le_rfl, ?_⟩
      · intro d hd
        obtain rfl := Sum.inl.inj hd
        trivial
      · simp only [held, owed]
        omega
  | take =>
      obtain ⟨s₁, got, hadvance, hrefilled, htokens⟩ := advance_take (b := b) s
      obtain ⟨rfl, rfl⟩ := Prod.mk.inj (Option.some.inj (hadvance.symm.trans h))
      have htokens_le := hs.tokens_le
      refine ⟨⟨by omega, ?_, ?_⟩, ?_, ?_, ?_⟩
      · rw [hrefilled]
        exact hs.whole
      · rw [hrefilled]
        exact hs.refilledTo_le
      · intro d hd
        exact (nomatch hd)
      · rw [hrefilled]
      · rw [hrefilled]
        simp only [held, owed]
        omega
  | overflow => exact hc.elim

/-! ### Whole runs -/

structure Inv (b : TokenBucket) (w : World) : Prop where
  shared : SharedOk b w.latest w.shared
  calls : ∀ c ∈ w.running, CallOk b w.latest c
  account : w.granted + w.shared.tokens.toNat + (w.running.map owed).sum ≤
    b.capacity.toNat + b.earnedBy w.shared.refilledTo.toNat

theorem SharedOk.later {latest latest' : ℕ} {s : Shared} (h : SharedOk b latest s) (hle : latest ≤ latest') :
    SharedOk b latest' s :=
  ⟨h.tokens_le, h.whole, h.refilledTo_le.trans hle⟩

theorem CallOk.later {latest latest' : ℕ} {c : Call} (h : CallOk b latest c) (hle : latest ≤ latest') :
    CallOk b latest' c := by
  cases c with
  | load now => exact le_trans h hle
  | exchange last next earned => exact ⟨h.1, h.2.1.trans hle, h.2.2⟩
  | credit earned => trivial
  | take => trivial
  | overflow => exact h

theorem inv_init : Inv b (World.init b) := by
  refine ⟨⟨le_rfl, ?_, ?_⟩, by simp [World.init], ?_⟩
  · exact dvd_zero _
  · exact Nat.zero_le _
  · simp [World.init, TokenBucket.initial]

theorem Inv.step {w w' : World} (h : Inv b w) (hstep : Step b w w') :
    Inv b w' ∧ w.shared.refilledTo.toNat ≤ w'.shared.refilledTo.toNat := by
  obtain ⟨hshared, hcalls, haccount⟩ := h
  cases hstep with
  | call _ now =>
      have hle : w.latest ≤ max w.latest now.toNat := le_max_left _ _
      refine ⟨⟨hshared.later hle, ?_, by simpa [owed] using haccount⟩, le_rfl⟩
      intro c hc
      obtain rfl | hc := Multiset.mem_cons.mp hc
      · exact le_max_right _ _
      · exact (hcalls c hc).later hle
  | goes hadvance =>
      have hspec := advance_spec hshared (hcalls _ (Multiset.mem_cons_self _ _)) hadvance
      have hmoved := hspec.account
      simp only [held, Multiset.map_cons, Multiset.sum_cons] at haccount hmoved
      refine ⟨⟨hspec.shared, ?_, ?_⟩, hspec.mono⟩
      · intro c hc
        obtain rfl | hc := Multiset.mem_cons.mp hc
        · exact hspec.call _ rfl
        · exact hcalls c (Multiset.mem_cons_of_mem hc)
      · simp only [Multiset.map_cons, Multiset.sum_cons]
        omega
  | returns hadvance =>
      have hspec := advance_spec hshared (hcalls _ (Multiset.mem_cons_self _ _)) hadvance
      have hmoved := hspec.account
      simp only [held, Multiset.map_cons, Multiset.sum_cons] at haccount hmoved
      refine ⟨⟨hspec.shared, fun c hc => hcalls c (Multiset.mem_cons_of_mem hc), ?_⟩, hspec.mono⟩
      simp only
      omega

theorem Reachable.inv {w : World} (h : Reachable b w) : Inv b w := by
  induction h with
  | refl => exact inv_init
  | tail _ hstep ih => exact (ih.step hstep).1

/-! ### Calls one after the other -/

/-- Calls at the given times, with what they return. -/
def acquireAll (b : TokenBucket) : List UInt64 → Shared → Option (List (UInt64 × Bool))
  | [], _ => some []
  | now :: times, s =>
      match tryAcquireAt b now s with
      | none => none
      | some (s, got) => (acquireAll b times s).map ((now, got) :: ·)

/-- The grants at times from `lo` to `hi`. -/
def grantsIn (lo hi : ℕ) (log : List (UInt64 × Bool)) : ℕ :=
  log.countP fun e => e.2 && decide (lo ≤ e.1.toNat) && decide (e.1.toNat ≤ hi)

/-- An undisturbed call is a run of the interleaving. -/
theorem finish_steps {running : Multiset Call} {granted latest : ℕ} {s' : Shared} {got : Bool} :
    ∀ (n : ℕ) (c : Call) (s : Shared), finish b n c s = some (s', got) →
      Relation.ReflTransGen (Step b) ⟨s, c ::ₘ running, granted, latest⟩ ⟨s', running, granted + got.toNat, latest⟩
  | 0, _, _, h => (nomatch h)
  | n + 1, c, s, h => by
      rw [finish] at h
      match hadvance : advance b c s, h with
      | some (s₁, .inl c₁), h => exact .head (.goes hadvance) (finish_steps n c₁ s₁ h)
      | some (s₁, .inr got₁), h =>
          obtain ⟨rfl, rfl⟩ := Prod.mk.inj (Option.some.inj h)
          exact .single (.returns hadvance)

theorem acquireAll_reachable : ∀ (times : List UInt64) (s : Shared) (log : List (UInt64 × Bool))
    (granted latest : ℕ), acquireAll b times s = some log → Reachable b ⟨s, 0, granted, latest⟩ →
      ∃ w, Reachable b w ∧ w.running = 0 ∧ w.granted = granted + log.countP Prod.snd
  | [], s, log, granted, latest, h, hreach => by
      obtain rfl := Option.some.inj h
      exact ⟨_, hreach, rfl, rfl⟩
  | now :: times, s, log, granted, latest, h, hreach => by
      rw [acquireAll] at h
      match hcall : tryAcquireAt b now s, h with
      | some (s₁, got), h =>
          obtain ⟨log₁, hrest, rfl⟩ := Option.map_eq_some_iff.mp h
          have hstarted := hreach.tail (.call _ now)
          have hreturned := hstarted.trans (finish_steps 4 _ s hcall)
          obtain ⟨w, hw, hrunning, hgranted⟩ := acquireAll_reachable times s₁ log₁ _ _ hrest hreturned
          refine ⟨w, hw, hrunning, ?_⟩
          rw [hgranted, List.countP_cons]
          cases got with
          | false => simp
          | true =>
              simp
              omega

/-- The bucket after a call at time `t`, when no later time has been passed. -/
def Settled (b : TokenBucket) (t : ℕ) (s : Shared) : Prop :=
  s.refilledTo.toNat = b.nanosPerToken.toNat * b.earnedBy t

theorem finish_take (n : ℕ) (s : Shared) : ∃ s' got, finish b (n + 1) .take s = some (s', got) ∧
    s'.refilledTo = s.refilledTo ∧ s'.tokens.toNat + got.toNat = s.tokens.toNat := by
  obtain ⟨s', got, hadvance, hrest⟩ := advance_take (b := b) s
  refine ⟨s', got, ?_, hrest⟩
  rw [finish, hadvance]

/-- A call at a time that is not behind the bucket. -/
theorem tryAcquireAt_settles {now : UInt64} {s : Shared} (hs : SharedOk b now.toNat s) :
    ∃ s' got, tryAcquireAt b now s = some (s', got) ∧ Settled b now.toNat s' ∧
      s'.tokens.toNat + got.toNat ≤ b.capacity.toNat ∧
      s'.tokens.toNat + got.toNat + b.earnedBy s.refilledTo.toNat ≤ s.tokens.toNat + b.earnedBy now.toNat := by
  have hload : tryAcquireAt b now s = finish b 3 (afterLoad b now s.refilledTo) s := rfl
  have hmono := earnedBy_mono (b := b) hs.refilledTo_le
  have hcap := hs.tokens_le
  rw [hload]
  obtain ⟨htake, hle⟩ | ⟨next, earned, hexchange, -, hnext, hearned⟩ := @afterLoad_cases b now _ hs.whole
  · obtain ⟨s', got, hfinish, hrefilled, htokens⟩ := finish_take (b := b) 2 s
    rw [htake]
    refine ⟨s', got, hfinish, ?_, by omega, by omega⟩
    obtain ⟨q, hq⟩ := hs.whole
    rw [hq, earnedBy_whole] at hle hmono
    rw [Settled, hrefilled, hq, le_antisymm hle hmono]
  · obtain ⟨s', got, hfinish, hrefilled, htokens⟩ := finish_take (b := b) 0
      { refilledTo := next, tokens := min (saturatingAdd s.tokens earned) b.capacity }
    have hsum := toNat_saturatingAdd_le s.tokens earned
    have hmin := UInt64.toNat_min (saturatingAdd s.tokens earned) b.capacity
    simp only at htokens hrefilled
    rw [hexchange]
    refine ⟨s', got, ?_, ?_, by omega, by omega⟩
    · rw [finish, advance, if_pos rfl]
      exact hfinish
    · rw [Settled, hrefilled, hnext]

theorem grantsIn_cons (lo hi : ℕ) (now : UInt64) (got : Bool) (log : List (UInt64 × Bool)) :
    grantsIn lo hi ((now, got) :: log) =
      grantsIn lo hi log + if lo ≤ now.toNat ∧ now.toNat ≤ hi then got.toNat else 0 := by
  unfold grantsIn
  rw [List.countP_cons]
  cases got <;> simp

theorem grantsIn_eq_zero {lo hi : ℕ} {log : List (UInt64 × Bool)} (h : ∀ t ∈ log.map Prod.fst, hi < t.toNat) :
    grantsIn lo hi log = 0 := by
  unfold grantsIn
  rw [List.countP_eq_zero]
  intro e he
  have hlt := h e.1 (List.mem_map_of_mem he)
  simp only [Bool.and_eq_true, decide_eq_true_eq, not_and]
  omega

/-- What calls after time `t` may have got, with `tokens` in the bucket at first: what was there or
has been earned after `t`; and from the first call of a window on, what was there is at most the
capacity. -/
structure Paid (b : TokenBucket) (t tokens : ℕ) (log : List (UInt64 × Bool)) : Prop where
  after : ∀ lo hi, t ≤ hi → grantsIn lo hi log + b.earnedBy t ≤ tokens + b.earnedBy hi
  window : ∀ lo hi, lo ≤ hi → grantsIn lo hi log + b.earnedBy lo ≤ b.capacity.toNat + b.earnedBy hi

theorem Paid.nil (t tokens : ℕ) : Paid b t tokens [] := by
  constructor
  all_goals
    intro lo hi hle
    have := earnedBy_mono (b := b) hle
    simp only [grantsIn, List.countP_nil]
    omega

/-- One more call at the front. -/
theorem Paid.cons {t tokens tokens₁ : ℕ} {now : UInt64} {got : Bool} {log : List (UInt64 × Bool)}
    (hcap : tokens₁ + got.toNat ≤ b.capacity.toNat)
    (haccount : tokens₁ + got.toNat + b.earnedBy t ≤ tokens + b.earnedBy now.toNat)
    (hlater : ∀ u ∈ log.map Prod.fst, now.toNat ≤ u.toNat) (h : Paid b now.toNat tokens₁ log) :
    Paid b t tokens ((now, got) :: log) := by
  -- a window that ends before the call has no grants
  have hbefore (lo hi : ℕ) (hhi : ¬now.toNat ≤ hi) : grantsIn lo hi ((now, got) :: log) = 0 := by
    rw [grantsIn_cons, if_neg fun h => hhi h.2, grantsIn_eq_zero]
    intro u hu
    have := hlater u hu
    omega
  have hcount (lo hi : ℕ) : grantsIn lo hi ((now, got) :: log) ≤ grantsIn lo hi log + got.toNat := by
    rw [grantsIn_cons]
    split_ifs
    · exact le_rfl
    · omega
  constructor
  · intro lo hi hle
    by_cases hhi : now.toNat ≤ hi
    · have hafter := h.after lo hi hhi
      have := hcount lo hi
      omega
    · have hmono := earnedBy_mono (b := b) hle
      have := hbefore lo hi hhi
      omega
  · intro lo hi hle
    by_cases hhi : now.toNat ≤ hi
    · by_cases hlo : lo ≤ now.toNat
      · have hafter := h.after lo hi hhi
        have hmono := earnedBy_mono (b := b) hlo
        have := hcount lo hi
        omega
      · -- the window has not begun
        rw [grantsIn_cons, if_neg fun h => hlo h.1]
        exact h.window lo hi hle
    · have hmono := earnedBy_mono (b := b) hle
      have := hbefore lo hi hhi
      omega

/-- Calls in the order of their times, after a call at time `t`. -/
theorem acquireAll_spec : ∀ (times : List UInt64) (t : ℕ) (s : Shared), (∀ now ∈ times, t ≤ now.toNat) →
    times.Pairwise (fun x y => x.toNat ≤ y.toNat) → Settled b t s → s.tokens.toNat ≤ b.capacity.toNat →
    ∃ log, acquireAll b times s = some log ∧ log.map Prod.fst = times ∧ Paid b t s.tokens.toNat log
  | [], t, s, _, _, _, _ => ⟨[], rfl, rfl, .nil t _⟩
  | now :: times, t, s, hlater, hsorted, hsettled, hcap => by
      obtain ⟨hnow, hrest⟩ := List.pairwise_cons.mp hsorted
      have ht : t ≤ now.toNat := hlater now List.mem_cons_self
      have hbehind := whole_earnedBy_le (b := b) t
      have hs : SharedOk b now.toNat s := by
        refine ⟨hcap, ?_, ?_⟩
        · rw [hsettled]
          exact dvd_mul_right _ _
        · rw [hsettled]
          omega
      obtain ⟨s₁, got, hcall, hsettled₁, hcap₁, haccount⟩ := tryAcquireAt_settles hs
      rw [hsettled, earnedBy_whole] at haccount
      obtain ⟨log, hlog, htimes, hpaid⟩ := acquireAll_spec times now.toNat s₁ hnow hrest hsettled₁ (by omega)
      have hall : acquireAll b (now :: times) s = some ((now, got) :: log) := by
        simp only [acquireAll, hcall, hlog, Option.map_some]
      refine ⟨(now, got) :: log, hall, by rw [List.map_cons, htimes], .cons hcap₁ haccount ?_ hpaid⟩
      rw [htimes]
      exact hnow

theorem earnedBy_le_add (lo hi : ℕ) : b.earnedBy hi ≤ b.earnedBy lo + b.earnedBy (hi - lo) + 1 := by
  unfold TokenBucket.earnedBy
  have hmono : hi / b.nanosPerToken.toNat ≤ (lo + (hi - lo)) / b.nanosPerToken.toNat :=
    Nat.div_le_div_right (by omega)
  rw [Nat.add_div b.nanos_pos] at hmono
  split_ifs at hmono <;> omega

theorem grantsIn_le {times : List UInt64} (hsorted : times.Pairwise (fun x y => x.toNat ≤ y.toNat)) :
    ∃ log, acquireAll b times b.initial = some log ∧ log.map Prod.fst = times ∧
      ∀ lo hi, grantsIn lo hi log ≤ b.capacity.toNat + b.earnedBy (hi - lo) + 1 := by
  have hsettled : Settled b 0 b.initial := by simp [Settled, TokenBucket.initial, TokenBucket.earnedBy]
  obtain ⟨log, hlog, htimes, hpaid⟩ :=
    acquireAll_spec times 0 b.initial (fun _ _ => Nat.zero_le _) hsorted hsettled le_rfl
  refine ⟨log, hlog, htimes, ?_⟩
  intro lo hi
  by_cases hle : lo ≤ hi
  · have hwindow := hpaid.window lo hi hle
    have := earnedBy_le_add (b := b) lo hi
    omega
  · have hzero : grantsIn lo hi log = 0 := by
      unfold grantsIn
      rw [List.countP_eq_zero]
      intro e _
      simp only [Bool.and_eq_true, decide_eq_true_eq, not_and]
      omega
    omega

/-- In every interleaving the bucket stays within its capacity, its refill time is a multiple of the
interval that never decreases and never passes the largest time, nothing overflows, and the grants
are bounded by the capacity and that time.  Calls one after the other, at times that do not
decrease, all return, and are bounded in every window. -/
theorem token_bucket_bounds (capacity : UInt64) (refillInterval : ℕ) :
    (∀ w, Reachable (.new capacity refillInterval) w →
      w.shared.tokens ≤ capacity ∧
      (TokenBucket.new capacity refillInterval).nanosPerToken.toNat ∣ w.shared.refilledTo.toNat ∧
      w.shared.refilledTo.toNat ≤ w.latest ∧
      .overflow ∉ w.running ∧
      w.granted ≤ capacity.toNat + w.latest / (TokenBucket.new capacity refillInterval).nanosPerToken.toNat ∧
      ∀ w', Step (.new capacity refillInterval) w w' → w.shared.refilledTo ≤ w'.shared.refilledTo) ∧
    ∀ times : List UInt64, times.Pairwise (· ≤ ·) →
      ∃ log, acquireAll (.new capacity refillInterval) times (TokenBucket.new capacity refillInterval).initial =
          some log ∧
        log.map Prod.fst = times ∧
        (∃ w, Reachable (.new capacity refillInterval) w ∧ w.running = 0 ∧ w.granted = log.countP Prod.snd) ∧
        ∀ lo hi, grantsIn lo hi log ≤
          capacity.toNat + (hi - lo) / (TokenBucket.new capacity refillInterval).nanosPerToken.toNat + 1 := by
  constructor
  · intro w hw
    obtain ⟨hshared, hcalls, haccount⟩ := hw.inv
    have hmono := earnedBy_mono (b := TokenBucket.new capacity refillInterval) hshared.refilledTo_le
    refine ⟨UInt64.le_iff_toNat_le.mpr hshared.tokens_le, hshared.whole, hshared.refilledTo_le, ?_, ?_, ?_⟩
    · exact fun hmem => hcalls _ hmem
    · have hgranted := le_trans (Nat.le_add_right _ _) (le_trans (Nat.le_add_right _ _) haccount)
      exact hgranted.trans (Nat.add_le_add_left hmono _)
    · intro w' hstep
      exact UInt64.le_iff_toNat_le.mpr (hw.inv.step hstep).2
  · intro times hsorted
    have hsorted' : times.Pairwise (fun x y => x.toNat ≤ y.toNat) :=
      hsorted.imp UInt64.le_iff_toNat_le.mp
    obtain ⟨log, hlog, htimes, hbound⟩ := grantsIn_le (b := .new capacity refillInterval) hsorted'
    obtain ⟨w, hw, hrunning, hgranted⟩ := acquireAll_reachable times _ log 0 0 hlog .refl
    exact ⟨log, hlog, htimes, ⟨w, hw, hrunning, by rw [hgranted, Nat.zero_add]⟩, hbound⟩

end

end McGateway.Metrics
