import Mathlib

/-! # Programs that call an interface

A stateful procedure is a value of `Prog S α`: either it has returned, or it calls an operation
of the interface `S` and goes on with the answer.  The state lives outside the program; an
`Effect` says which answers and state changes an operation may have, so the same program can be
run on a well-behaved state, on a faulty one, or cut off between any two calls.

The proof rule is `Prog.Guarantees`: every call made by the program changes the state within `G`
(a guarantee in the sense of rely-guarantee reasoning), and `Q` holds on return.  It is compatible
with `bind`, so a procedure is verified from the specifications of its parts, and it holds of the
rest of the program after every call (`Guarantees.of_call`), so it is preserved by every step of
an interleaved run.  `Logged` adds a log of the operations to an effect.  `Prog.CallsOnly` says which
operations a program can call at all, whatever it is answered; `implement` replaces the operations by
programs over a lower interface.

Programs that may fail are `ExceptT ε (Prog S)`; `Prog.Ensures` is the rule for those that do not:
every execution returns normally, with the postcondition.  `Prog.Normally` leaves the failures open:
if an execution returns normally, then with the postcondition.  Two programs are compared in
`Prog.Lockstep`: they make the same calls and return related results; `Prog.Agree` is the rule for
two programs that may fail.

An environment that answers every call runs a program to its end (`run`); when its answers are
those of an effect along the run (`Conforms`), what is guaranteed under the effect holds of the
run. -/

/-- An interface: operations, and the answers each may give. -/
structure Interface where
  Op : Type
  Answer : Op → Type

/-- A program over an interface. -/
inductive Prog (S : Interface) (α : Type) where
  | ret (a : α)
  | call (op : S.Op) (k : S.Answer op → Prog S α)

/-- The answers and state changes an operation may have. -/
abbrev Effect (S : Interface) (σ : Type) := (op : S.Op) → σ → S.Answer op → σ → Prop

namespace Prog

variable {S : Interface} {α β σ : Type}

/-- Sequential composition. -/
def bind : Prog S α → (α → Prog S β) → Prog S β
  | ret a, f => f a
  | call op k, f => call op fun a => (k a).bind f

instance : Monad (Prog S) where
  pure := ret
  bind := bind

/-- A single call. -/
def ask (op : S.Op) : Prog S (S.Answer op) := call op ret

/-! ### Complete executions -/

/-- The program started in `s` may return `a` in `s'`. -/
inductive Returns (E : Effect S σ) : Prog S α → σ → α → σ → Prop where
  | ret (a : α) (s : σ) : Returns E (ret a) s a s
  | call {op : S.Op} {k : S.Answer op → Prog S α} {s s' t : σ} {r : S.Answer op} {a : α} :
      E op s r s' → Returns E (k r) s' a t → Returns E (call op k) s a t

/-- An execution seen through `view` is one of an effect that can follow it. -/
theorem Returns.lift {τ : Type} {E : Effect S σ} {F : Effect S τ} (view : τ → σ)
    (hF : ∀ op s r s' t, E op s r s' → view t = s → ∃ t', F op t r t' ∧ view t' = s')
    {p : Prog S α} {s s' : σ} {a : α} (h : Returns E p s a s') {t : τ} (ht : view t = s) :
    ∃ t', Returns F p t a t' ∧ view t' = s' := by
  induction h generalizing t with
  | ret a s => exact ⟨t, .ret a t, ht⟩
  | call he _ ih =>
      obtain ⟨t₁, hstep, ht₁⟩ := hF _ _ _ _ t he ht
      obtain ⟨t', hrest, ht'⟩ := ih ht₁
      exact ⟨t', .call hstep hrest, ht'⟩

/-- An execution of a sequence is one of its parts after another. -/
theorem Returns.of_bind {E : Effect S σ} {p : Prog S α} {f : α → Prog S β} {s t : σ} {b : β}
    (h : Returns E (p >>= f) s b t) : ∃ a s', Returns E p s a s' ∧ Returns E (f a) s' b t := by
  induction p generalizing s with
  | ret a => exact ⟨a, s, .ret a s, h⟩
  | call op k ih =>
      cases h with
      | call he hrest =>
          obtain ⟨a, s', hp, hf⟩ := ih _ hrest
          exact ⟨a, s', .call he hp, hf⟩

theorem Returns.bind {E : Effect S σ} {p : Prog S α} {f : α → Prog S β} {s s' t : σ} {a : α} {b : β}
    (hp : Returns E p s a s') (hf : Returns E (f a) s' b t) : Returns E (p >>= f) s b t := by
  induction hp with
  | ret a s => exact hf
  | call he _ ih => exact .call he (ih hf)

/-- Run a program on an interpreter of its operations. -/
def run (h : (op : S.Op) → σ → S.Answer op × σ) : Prog S α → σ → α × σ
  | ret a, s => (a, s)
  | call op k, s => (k (h op s).1).run h (h op s).2

/-- The run of an interpreter is an execution of any effect that allows its answers. -/
theorem returns_run {E : Effect S σ} {h : (op : S.Op) → σ → S.Answer op × σ}
    (hE : ∀ op s, E op s (h op s).1 (h op s).2) (p : Prog S α) (s : σ) :
    Returns E p s (p.run h s).1 (p.run h s).2 := by
  induction p generalizing s with
  | ret a => exact .ret a s
  | call op k ih => exact .call (hE op s) (ih _ _)

/-! ### Guarantees -/

/-- Every call changes the state within `G`, and `Q` holds on return. -/
def Guarantees (E : Effect S σ) (G : S.Op → σ → σ → Prop) (Q : α → σ → Prop) : Prog S α → σ → Prop
  | ret a, s => Q a s
  | call op k, s => ∀ r s', E op s r s' → G op s s' ∧ (k r).Guarantees E G Q s'

variable {E : Effect S σ} {G : S.Op → σ → σ → Prop} {Q Q' : α → σ → Prop}

theorem Guarantees.ret {a : α} {s : σ} (h : Q a s) : (Prog.ret a).Guarantees E G Q s := h

theorem Guarantees.of_call {op : S.Op} {k : S.Answer op → Prog S α} {s s' : σ} {r : S.Answer op}
    (h : (Prog.call op k).Guarantees E G Q s) (he : E op s r s') :
    G op s s' ∧ (k r).Guarantees E G Q s' :=
  h r s' he

theorem Guarantees.mono {p : Prog S α} {s : σ} (h : p.Guarantees E G Q s)
    (hQ : ∀ a s, Q a s → Q' a s) : p.Guarantees E G Q' s := by
  induction p generalizing s with
  | ret a => exact hQ a s h
  | call op k ih =>
      intro r s' he
      obtain ⟨hg, hk⟩ := h r s' he
      exact ⟨hg, ih r hk⟩

theorem Guarantees.bind {p : Prog S α} {f : α → Prog S β} {s : σ} {R : β → σ → Prop}
    (h : p.Guarantees E G (fun a s => (f a).Guarantees E G R s) s) :
    (p >>= f).Guarantees E G R s := by
  induction p generalizing s with
  | ret a => exact h
  | call op k ih =>
      intro r s' he
      obtain ⟨hg, hk⟩ := h r s' he
      exact ⟨hg, ih r hk⟩

/-- What every call leaves behind is there before every call. -/
theorem Guarantees.before {A : σ → Prop} {p : Prog S α} {s : σ} (h : p.Guarantees E (fun _ _ s' => A s') Q s)
    (hs : A s) : p.Guarantees E (fun _ s s' => A s ∧ A s') Q s := by
  induction p generalizing s with
  | ret a => exact h
  | call op k ih =>
      intro r s' he
      obtain ⟨hA, hk⟩ := h r s' he
      exact ⟨⟨hs, hA⟩, ih r hk hA⟩

/-- Two guarantees of one program. -/
theorem Guarantees.and {G' : S.Op → σ → σ → Prop} {p : Prog S α} {s : σ} (h : p.Guarantees E G Q s)
    (h' : p.Guarantees E G' Q' s) :
    p.Guarantees E (fun op s s' => G op s s' ∧ G' op s s') (fun a s => Q a s ∧ Q' a s) s := by
  induction p generalizing s with
  | ret a => exact ⟨h, h'⟩
  | call op k ih =>
      intro r s' he
      obtain ⟨hg, hk⟩ := h r s' he
      obtain ⟨hg', hk'⟩ := h' r s' he
      exact ⟨⟨hg, hg'⟩, ih r hk hk'⟩

/-- A weaker guarantee, by what the operations do. -/
theorem Guarantees.imp {G' : S.Op → σ → σ → Prop}
    (hG : ∀ op s r s', E op s r s' → G op s s' → G' op s s') (hQ : ∀ a s, Q a s → Q' a s) {p : Prog S α}
    {s : σ} (h : p.Guarantees E G Q s) : p.Guarantees E G' Q' s := by
  induction p generalizing s with
  | ret a => exact hQ a s h
  | call op k ih =>
      intro r s' he
      obtain ⟨hg, hk⟩ := h r s' he
      exact ⟨hG op s r s' he hg, ih r hk⟩

/-- What is guaranteed under an effect is guaranteed under one with fewer outcomes. -/
theorem Guarantees.restrict {F : Effect S σ} (hF : ∀ op s r s', F op s r s' → E op s r s') {p : Prog S α}
    {s : σ} (h : p.Guarantees E G Q s) : p.Guarantees F G Q s := by
  induction p generalizing s with
  | ret a => exact h
  | call op k ih =>
      intro r s' he
      obtain ⟨hg, hk⟩ := h r s' (hF op s r s' he)
      exact ⟨hg, ih r hk⟩

/-- The postcondition holds of every complete execution. -/
theorem Guarantees.returns {p : Prog S α} {s s' : σ} {a : α} (h : p.Guarantees E G Q s)
    (hr : p.Returns E s a s') : Q a s' := by
  induction hr with
  | ret a s => exact h
  | call he _ ih => exact ih (h.of_call he).2

/-! ### Implementations -/

/-- Every call the program can make, whatever the answers, satisfies `K`. -/
def CallsOnly (K : S.Op → Prop) : Prog S α → Prop
  | ret _ => True
  | call op k => K op ∧ ∀ r, (k r).CallsOnly K

/-- Answer every call by a program over another interface. -/
def implement {T : Interface} (impl : (op : S.Op) → Prog T (S.Answer op)) : Prog S α → Prog T α
  | ret a => ret a
  | call op k => impl op >>= fun r => (k r).implement impl

theorem bind_assoc {γ : Type} (p : Prog S α) (f : α → Prog S β) (g : β → Prog S γ) :
    p >>= f >>= g = p >>= fun a => f a >>= g := by
  induction p with
  | ret a => rfl
  | call op k ih => exact congrArg (call op) (funext ih)

theorem implement_bind {T : Interface} (impl : (op : S.Op) → Prog T (S.Answer op)) (p : Prog S α)
    (f : α → Prog S β) : (p >>= f).implement impl = p.implement impl >>= fun a => (f a).implement impl := by
  induction p with
  | ret a => rfl
  | call op k ih =>
      show (impl op >>= fun r => (k r >>= f).implement impl) =
        (impl op >>= fun r => (k r).implement impl) >>= fun a => (f a).implement impl
      rw [bind_assoc]
      congr 1
      funext r
      exact ih r

section calls
variable {K : S.Op → Prop}

theorem CallsOnly.ask {op : S.Op} (h : K op) : (Prog.ask op).CallsOnly K := ⟨h, fun _ => trivial⟩

theorem CallsOnly.bind {p : Prog S α} {f : α → Prog S β} (hp : p.CallsOnly K)
    (hf : ∀ a, (f a).CallsOnly K) : (p >>= f).CallsOnly K := by
  induction p with
  | ret a => exact hf a
  | call op k ih => exact ⟨hp.1, fun r => ih r (hp.2 r)⟩

/-- The calls of an implementation, from those of the implemented program. -/
theorem CallsOnly.implement {T : Interface} {L : T.Op → Prop} {impl : (op : S.Op) → Prog T (S.Answer op)}
    {p : Prog S α} (hp : p.CallsOnly K) (himpl : ∀ op, K op → (impl op).CallsOnly L) :
    (p.implement impl).CallsOnly L := by
  induction p with
  | ret a => trivial
  | call op k ih => exact (himpl op hp.1).bind fun r => ih r (hp.2 r)

/-- The executions of an implementation are executions of the implemented program, if every operation
it calls is simulated: `R` relates the states below to those above. -/
theorem Returns.of_implement {T : Interface} {τ : Type} {E : Effect T τ} {F : Effect S σ} {R : τ → σ → Prop}
    {impl : (op : S.Op) → Prog T (S.Answer op)}
    (himpl : ∀ op, K op → ∀ t s a t', R t s → (impl op).Returns E t a t' → ∃ s', F op s a s' ∧ R t' s')
    {p : Prog S α} (hp : p.CallsOnly K) {t t' : τ} {s : σ} {a : α} (h : (p.implement impl).Returns E t a t')
    (ht : R t s) : ∃ s', p.Returns F s a s' ∧ R t' s' := by
  induction p generalizing t s with
  | ret b =>
      cases h
      exact ⟨s, .ret _ _, ht⟩
  | call op k ih =>
      obtain ⟨r, t₁, hop, hrest⟩ := h.of_bind
      obtain ⟨s₁, hstep, ht₁⟩ := himpl op hp.1 t s r t₁ ht hop
      obtain ⟨s', hreturns, ht'⟩ := ih r (hp.2 r) hrest ht₁
      exact ⟨s', .call hstep hreturns, ht'⟩

/-- The calls of a program, as a guarantee. -/
theorem CallsOnly.guarantees {p : Prog S α} (h : p.CallsOnly K) (s : σ) :
    p.Guarantees E (fun op _ _ => K op) (fun _ _ => True) s := by
  induction p generalizing s with
  | ret a => trivial
  | call op k ih => exact fun r s' _ => ⟨h.1, ih r (h.2 r) s'⟩

/-- What is guaranteed under one effect is guaranteed under another that allows no more for the calls
of the program. -/
theorem CallsOnly.restrict {F : Effect S σ} {G : S.Op → σ → σ → Prop} {Q : α → σ → Prop} {p : Prog S α} {s : σ}
    (h : p.CallsOnly K) (hEF : ∀ op, K op → ∀ s r s', F op s r s' → E op s r s')
    (hp : p.Guarantees E G Q s) : p.Guarantees F G Q s := by
  induction p generalizing s with
  | ret a => exact hp
  | call op k ih =>
      intro r s' hstep
      obtain ⟨hg, hk⟩ := hp r s' (hEF op h.1 s r s' hstep)
      exact ⟨hg, ih r (h.2 r) hk⟩

end calls

/-! ### Logs -/

/-- The effect `E` with a log of the operations that `keep` selects. -/
def Logged (keep : S.Op → Bool) (E : Effect S σ) : Effect S (σ × List S.Op) :=
  fun op s r s' => E op s.1 r s'.1 ∧ s'.2 = s.2 ++ if keep op then [op] else []

/-- Every execution has a log. -/
theorem Returns.logged (keep : S.Op → Bool) {p : Prog S α} {s s' : σ} {a : α} (h : p.Returns E s a s')
    (log : List S.Op) : ∃ log', p.Returns (Logged keep E) (s, log) a (s', log') := by
  have hstep (op : S.Op) (s : σ) (r : S.Answer op) (s' : σ) (t : σ × List S.Op) (he : E op s r s')
      (ht : t.1 = s) : ∃ t', Logged keep E op t r t' ∧ t'.1 = s' :=
    ⟨(s', t.2 ++ if keep op then [op] else []), ⟨ht ▸ he, rfl⟩, rfl⟩
  obtain ⟨⟨_, log'⟩, hlogged, rfl⟩ := h.lift Prod.fst hstep (t := (s, log)) rfl
  exact ⟨log', hlogged⟩

/-- What is guaranteed with a log is guaranteed without it. -/
theorem Guarantees.unlogged {keep : S.Op → Bool} {p : Prog S α} {s : σ} {log : List S.Op}
    (h : p.Guarantees (Logged keep E) (fun op s s' => G op s.1 s'.1) (fun a s => Q a s.1) (s, log)) :
    p.Guarantees E G Q s := by
  induction p generalizing s log with
  | ret a => exact h
  | call op k ih =>
      intro r s' he
      obtain ⟨hg, hk⟩ := h r (s', log ++ if keep op then [op] else []) ⟨he, rfl⟩
      exact ⟨hg, ih r hk⟩

/-! ### Programs that may fail -/

section fallible
variable {ε : Type} {P P' : α → σ → Prop}

/-- Every execution returns normally, with `P`. -/
def Ensures (E : Effect S σ) (G : S.Op → σ → σ → Prop) (P : α → σ → Prop) (x : ExceptT ε (Prog S) α)
    (s : σ) : Prop :=
  x.run.Guarantees E G (fun r s' => ∃ a, r = .ok a ∧ P a s') s

theorem Ensures.pure {a : α} {s : σ} (h : P a s) :
    Ensures E G P (Pure.pure a : ExceptT ε (Prog S) α) s := ⟨a, rfl, h⟩

theorem Ensures.pure_bind {a : α} {k : α → ExceptT ε (Prog S) β} {R : β → σ → Prop} {s : σ}
    (h : Ensures E G R (k a) s) : Ensures E G R (Pure.pure a >>= k) s := h

theorem Ensures.mono {x : ExceptT ε (Prog S) α} {s : σ} (h : Ensures E G P x s)
    (hP : ∀ a s, P a s → P' a s) : Ensures E G P' x s := by
  apply Guarantees.mono h
  rintro r s' ⟨a, rfl, ha⟩
  exact ⟨a, rfl, hP a s' ha⟩

/-- A program that returns normally, followed by any program. -/
theorem Ensures.guarantees_bind {x : ExceptT ε (Prog S) α} {k : α → ExceptT ε (Prog S) β}
    {R : Except ε β → σ → Prop} {s : σ} (h : Ensures E G P x s)
    (hk : ∀ a s', P a s' → (k a).run.Guarantees E G R s') : (x >>= k).run.Guarantees E G R s := by
  refine Guarantees.bind (p := x.run) (Guarantees.mono h ?_)
  rintro r s' ⟨a, rfl, ha⟩
  exact hk a s' ha

theorem Ensures.bind {x : ExceptT ε (Prog S) α} {k : α → ExceptT ε (Prog S) β} {R : β → σ → Prop}
    {s : σ} (h : Ensures E G P x s) (hk : ∀ a s', P a s' → Ensures E G R (k a) s') :
    Ensures E G R (x >>= k) s :=
  h.guarantees_bind hk

/-- Every execution that returns normally returns with `P`. -/
def Normally (E : Effect S σ) (G : S.Op → σ → σ → Prop) (P : α → σ → Prop) (x : ExceptT ε (Prog S) α)
    (s : σ) : Prop :=
  x.run.Guarantees E G (fun r s' => ∀ a, r = .ok a → P a s') s

theorem Normally.pure {a : α} {s : σ} (h : P a s) :
    Normally E G P (Pure.pure a : ExceptT ε (Prog S) α) s := by
  rintro _ ⟨⟩
  exact h

theorem Normally.throw {err : ε} {s : σ} :
    Normally E G P (MonadExcept.throw err : ExceptT ε (Prog S) α) s :=
  fun _ h => nomatch h

theorem Normally.bind {x : ExceptT ε (Prog S) α} {k : α → ExceptT ε (Prog S) β} {R : β → σ → Prop}
    {s : σ} (h : Normally E G P x s) (hk : ∀ a s', P a s' → Normally E G R (k a) s') :
    Normally E G R (x >>= k) s := by
  refine Guarantees.bind (p := x.run) (Guarantees.mono h ?_)
  intro r s' hr
  cases r with
  | ok a => exact hk a s' (hr a rfl)
  | error err => exact fun _ h => nomatch h

end fallible

/-! ### Two programs in lockstep -/

section lockstep
variable {ε δ α' β' : Type} {R : α → β → σ → Prop}

/-- The two programs make the same calls, within `G`, and return related results. -/
inductive Lockstep (E : Effect S σ) (G : S.Op → σ → σ → Prop) (R : α → β → σ → Prop) :
    Prog S α → Prog S β → σ → Prop where
  | ret {a : α} {b : β} {s : σ} : R a b s → Lockstep E G R (.ret a) (.ret b) s
  | call {op : S.Op} {k : S.Answer op → Prog S α} {l : S.Answer op → Prog S β} {s : σ} :
      (∀ r s', E op s r s' → G op s s') → (∀ r s', E op s r s' → Lockstep E G R (k r) (l r) s') →
      Lockstep E G R (.call op k) (.call op l) s

namespace Lockstep
variable {p : Prog S α} {q : Prog S β} {s : σ}

theorem bind {f : α → Prog S α'} {g : β → Prog S β'} {R' : α' → β' → σ → Prop}
    (h : Lockstep E G R p q s) (hk : ∀ a b s', R a b s' → Lockstep E G R' (f a) (g b) s') :
    Lockstep E G R' (p >>= f) (q >>= g) s := by
  induction h with
  | ret hR => exact hk _ _ _ hR
  | call hG _ ih => exact .call hG ih

theorem mono {R' : α → β → σ → Prop} (h : Lockstep E G R p q s) (hR : ∀ a b s', R a b s' → R' a b s') :
    Lockstep E G R' p q s := by
  induction h with
  | ret h => exact .ret (hR _ _ _ h)
  | call hG _ ih => exact .call hG ih

theorem left (h : Lockstep E G R p q s) : p.Guarantees E G (fun a s' => ∃ b, R a b s') s := by
  induction h with
  | ret hR => exact ⟨_, hR⟩
  | call hG _ ih => exact fun r s' he => ⟨hG r s' he, ih r s' he⟩

theorem right (h : Lockstep E G R p q s) : q.Guarantees E G (fun b s' => ∃ a, R a b s') s := by
  induction h with
  | ret hR => exact ⟨_, hR⟩
  | call hG _ ih => exact fun r s' he => ⟨hG r s' he, ih r s' he⟩

end Lockstep

/-- A program and the same program with a function applied to what it returns. -/
theorem Guarantees.lockstep_map (g : α → β) {p : Prog S α} {s : σ} (h : p.Guarantees E G Q s) :
    Lockstep E G (fun a b s' => b = g a ∧ Q a s') p (p >>= fun a => .ret (g a)) s := by
  induction p generalizing s with
  | ret a => exact .ret ⟨rfl, h⟩
  | call op k ih =>
      refine .call ?_ ?_
      · exact fun r s' he => (h r s' he).1
      · exact fun r s' he => ih r (h r s' he).2

/-- Both results are normal, and related, or both are the same error. -/
def Match (f : ε → δ) (R : α → β → σ → Prop) : Except ε α → Except δ β → σ → Prop
  | .ok a, .ok b, s => R a b s
  | .error err, .error err', _ => err' = f err
  | _, _, _ => False

/-- Two programs that may fail, in lockstep; the errors of the first are errors of the second. -/
def Agree (E : Effect S σ) (G : S.Op → σ → σ → Prop) (f : ε → δ) (R : α → β → σ → Prop)
    (x : ExceptT ε (Prog S) α) (y : ExceptT δ (Prog S) β) (s : σ) : Prop :=
  Lockstep E G (Match f R) x.run y.run s

/-- A program that may fail, with its errors embedded in a larger type. -/
def embed (f : ε → δ) (x : ExceptT ε (Prog S) α) : ExceptT δ (Prog S) α :=
  ExceptT.mk (x.run >>= fun r => .ret (r.mapError f))

namespace Agree
variable {f : ε → δ} {x : ExceptT ε (Prog S) α} {y : ExceptT δ (Prog S) β} {s : σ}

theorem pure {a : α} {b : β} (h : R a b s) :
    Agree E G f R (Pure.pure a : ExceptT ε (Prog S) α) (Pure.pure b : ExceptT δ (Prog S) β) s :=
  .ret h

theorem bind {k : α → ExceptT ε (Prog S) α'} {l : β → ExceptT δ (Prog S) β'} {R' : α' → β' → σ → Prop}
    (h : Agree E G f R x y s) (hk : ∀ a b s', R a b s' → Agree E G f R' (k a) (l b) s') :
    Agree E G f R' (x >>= k) (y >>= l) s := by
  refine Lockstep.bind (p := x.run) (q := y.run) h ?_
  intro r r' s' hr
  cases r with
  | ok a =>
      cases r' with
      | ok b => exact hk a b s' hr
      | error err' => exact hr.elim
  | error err =>
      cases r' with
      | ok b => exact hr.elim
      | error err' => exact .ret hr

theorem mono {R' : α → β → σ → Prop} (h : Agree E G f R x y s) (hR : ∀ a b s', R a b s' → R' a b s') :
    Agree E G f R' x y s := by
  refine Lockstep.mono h ?_
  intro r r' s' hr
  cases r with
  | ok a =>
      cases r' with
      | ok b => exact hR a b s' hr
      | error err' => exact hr
  | error err => cases r' <;> exact hr

theorem normally (h : Agree E G f R x y s) : Normally E G (fun a s' => ∃ b, R a b s') x s := by
  refine Guarantees.mono (Lockstep.left h) ?_
  rintro r s' ⟨r', hr⟩ a rfl
  cases r' with
  | ok b => exact ⟨b, hr⟩
  | error err' => exact hr.elim

/-- Every error of the second program is one of the first. -/
theorem errors (h : Agree E G f R x y s) :
    y.run.Guarantees E G (fun r _ => ∀ err', r = .error err' → ∃ err, err' = f err) s := by
  refine Guarantees.mono (Lockstep.right h) ?_
  rintro r' s' ⟨r, hr⟩ err' rfl
  cases r with
  | ok a => exact hr.elim
  | error err => exact ⟨err, hr⟩

end Agree

/-- A program agrees with its own embedding. -/
theorem Normally.agree_embed (f : ε → δ) {P : α → σ → Prop} {x : ExceptT ε (Prog S) α} {s : σ}
    (h : Normally E G P x s) : Agree E G f (fun a b s' => a = b ∧ P a s') x (embed f x) s := by
  refine Lockstep.mono (Guarantees.lockstep_map (fun r => r.mapError f) h) ?_
  rintro r _ s' ⟨rfl, hP⟩
  cases r with
  | ok a => exact ⟨rfl, hP a rfl⟩
  | error err => exact rfl

end lockstep

/-! ### Environments -/

section environment
variable {τ : Type}

/-- Along the run from `t`, the answers and state changes of the environment are those of `E`, as
far as they can be seen. -/
def Conforms (E : Effect S σ) (view : τ → σ) (h : (op : S.Op) → τ → S.Answer op × τ) :
    Prog S α → τ → Prop
  | ret _, _ => True
  | call op k, t =>
      E op (view t) (h op t).1 (view (h op t).2) ∧ (k (h op t).1).Conforms E view h (h op t).2

variable {view : τ → σ} {h : (op : S.Op) → τ → S.Answer op × τ}

theorem Conforms.returns {p : Prog S α} {t : τ} (hc : p.Conforms E view h t) :
    Returns E p (view t) (p.run h t).1 (view (p.run h t).2) := by
  induction p generalizing t with
  | ret a => exact .ret a (view t)
  | call op k ih => exact .call hc.1 (ih _ hc.2)

/-- A check of every call along the run. -/
def alongRun (good : (op : S.Op) → τ → Bool) (h : (op : S.Op) → τ → S.Answer op × τ) :
    Prog S α → τ → Bool
  | ret _, _ => true
  | call op k, t => good op t && (k (h op t).1).alongRun good h (h op t).2

/-- An environment conforms if a check that implies the effect succeeds along the run. -/
theorem conforms_of_alongRun {good : (op : S.Op) → τ → Bool}
    (hgood : ∀ op t, good op t = true → E op (view t) (h op t).1 (view (h op t).2)) {p : Prog S α} {t : τ}
    (hp : p.alongRun good h t = true) : p.Conforms E view h t := by
  induction p generalizing t with
  | ret a => trivial
  | call op k ih =>
      obtain ⟨hop, hk⟩ := Bool.and_eq_true_iff.mp hp
      exact ⟨hgood op t hop, ih _ hk⟩

theorem Conforms.of_bind {p : Prog S α} {f : α → Prog S β} {t : τ}
    (hc : (p >>= f).Conforms E view h t) : p.Conforms E view h t := by
  induction p generalizing t with
  | ret a => trivial
  | call op k ih => exact ⟨hc.1, ih _ hc.2⟩

end environment

end Prog
