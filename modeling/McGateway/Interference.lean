import McGateway.Programs

/-! # Programs under interference

Between two calls of a program others may change the state.  `Prog.Withstands` is the rule for this:
the changes of the others are within a relation `R` (what the program relies on), every call of the
program changes the state within `G`, and `Q` holds when the program has returned, also after further
changes of the others.  `R` is a preorder, so that any number of changes is one change.

A program over one of two interfaces is a program over both (`Prog.inl`); what it guarantees on its
own part of the state, which the others leave alone, it guarantees under their interference
(`Guarantees.withstands_inl`). -/

namespace Prog

variable {S : Interface} {α β σ : Type}

/-- Every call changes the state within `G`, and `Q` holds on return, while others change the state
within `R`. -/
def Withstands (E : Effect S σ) (R : σ → σ → Prop) (G : S.Op → σ → σ → Prop) (Q : α → σ → Prop) :
    Prog S α → σ → Prop
  | ret a, s => ∀ s', R s s' → Q a s'
  | call op k, s => ∀ s', R s s' → ∀ r s'', E op s' r s'' → G op s' s'' ∧ (k r).Withstands E R G Q s''

section rules
variable {E : Effect S σ} {R : σ → σ → Prop} {G : S.Op → σ → σ → Prop} {Q Q' : α → σ → Prop}

/-- Others may act first. -/
theorem Withstands.later (htrans : ∀ s t u, R s t → R t u → R s u) {p : Prog S α} {s s' : σ}
    (h : p.Withstands E R G Q s) (hR : R s s') : p.Withstands E R G Q s' := by
  cases p with
  | ret a => exact fun t ht => h t (htrans _ _ _ hR ht)
  | call op k => exact fun t ht => h t (htrans _ _ _ hR ht)

theorem Withstands.of_call (hrefl : ∀ s, R s s) {op : S.Op} {k : S.Answer op → Prog S α} {s s' : σ}
    {r : S.Answer op} (h : (Prog.call op k).Withstands E R G Q s) (he : E op s r s') :
    G op s s' ∧ (k r).Withstands E R G Q s' :=
  h s (hrefl s) r s' he

theorem Withstands.of_ret (hrefl : ∀ s, R s s) {a : α} {s : σ}
    (h : (Prog.ret a).Withstands E R G Q s) : Q a s := h s (hrefl s)

theorem Withstands.mono {p : Prog S α} {s : σ} (h : p.Withstands E R G Q s) (hQ : ∀ a s, Q a s → Q' a s) :
    p.Withstands E R G Q' s := by
  induction p generalizing s with
  | ret a => exact fun s' hs' => hQ a s' (h s' hs')
  | call op k ih =>
      intro s' hs' r s'' he
      obtain ⟨hg, hk⟩ := h s' hs' r s'' he
      exact ⟨hg, ih r hk⟩

theorem Withstands.bind (hrefl : ∀ s, R s s) {p : Prog S α} {f : α → Prog S β} {s : σ}
    {Q' : β → σ → Prop}
    (h : p.Withstands E R G (fun a s => (f a).Withstands E R G Q' s) s) :
    (p >>= f).Withstands E R G Q' s := by
  induction p generalizing s with
  | ret a => exact h s (hrefl s)
  | call op k ih =>
      intro s' hs' r s'' he
      obtain ⟨hg, hk⟩ := h s' hs' r s'' he
      exact ⟨hg, ih r hk⟩

/-- One program after another, with an assertion in between. -/
theorem Withstands.seq (hrefl : ∀ s, R s s) {p : Prog S α} {f : α → Prog S β} {s : σ} {Q' : β → σ → Prop}
    (h : p.Withstands E R G Q s) (hf : ∀ a s, Q a s → (f a).Withstands E R G Q' s) :
    (p >>= f).Withstands E R G Q' s :=
  .bind hrefl (h.mono hf)

end rules

end Prog

/-! ### Two interfaces -/

/-- The operations of both interfaces. -/
@[reducible] def Interface.plus (S T : Interface) : Interface where
  Op := S.Op ⊕ T.Op
  Answer
    | .inl op => S.Answer op
    | .inr op => T.Answer op

namespace Prog

variable {S T : Interface} {α σ τ : Type}

/-- A program over the first interface, with both at hand. -/
def inl : Prog S α → Prog (S.plus T) α
  | ret a => ret a
  | call op k => call (S := S.plus T) (.inl op) fun r => (k r).inl

/-- What a program guarantees on the part of the state it works on, it guarantees among others who
leave that part alone; `P` is what it keeps of the rest. -/
theorem Guarantees.withstands_inl {F : Effect S τ} {G₀ : S.Op → τ → τ → Prop} {Q₀ : α → τ → Prop}
    {E : Effect (S.plus T) σ} {R : σ → σ → Prop} {G : (S.plus T).Op → σ → σ → Prop} {Q : α → σ → Prop}
    (view : σ → τ) {P : σ → Prop} (hview : ∀ {s s'}, R s s' → view s' = view s)
    (hrest : ∀ {s s'}, R s s' → P s → P s')
    (hstep : ∀ op s r s', P s → E (.inl op) s r s' →
      F op (view s) r (view s') ∧ (G₀ op (view s) (view s') → G (.inl op) s s' ∧ P s'))
    (hret : ∀ a s, P s → Q₀ a (view s) → Q a s)
    {p : Prog S α} {s : σ} (hp : p.Guarantees F G₀ Q₀ (view s)) (hP : P s) :
    (p.inl : Prog (S.plus T) α).Withstands E R G Q s := by
  induction p generalizing s with
  | ret a =>
      intro s' hs'
      exact hret a s' (hrest hs' hP) (by rw [hview hs']; exact hp)
  | call op k ih =>
      intro s' hs' r s'' he
      obtain ⟨hF, hG⟩ := hstep op s' r s'' (hrest hs' hP) he
      rw [hview hs'] at hF
      obtain ⟨hg₀, hk⟩ := hp r (view s'') hF
      rw [hview hs'] at hG
      obtain ⟨hg, hP'⟩ := hG hg₀
      exact ⟨hg, ih r hk hP'⟩

end Prog
