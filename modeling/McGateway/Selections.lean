import Mathlib

/-! # Selecting from a list

Two ways of singling out one element among those with a property: the element of least index
(`FirstAt`), and the element of least index among those of greatest rank (`LeftmostMax`).  Both
come with the rules of the loops that compute them, from the front for a search that stops and
one element at the end for a search that keeps the best so far, and both transfer between lists
that are related element by element.  In a sorted list the first element with a property is the
least one.

A loop may also report the items that it does not do well by (`Reporting`). -/

namespace Selections

variable {α β : Type*}

/-- `a` is the first element with the property, at index `i`. -/
structure FirstAt (P : α → Prop) (l : List α) (i : ℕ) (a : α) : Prop where
  get : l[i]? = some a
  holds : P a
  before : ∀ j b, j < i → l[j]? = some b → ¬P b

/-- `a`, at index `i`, has the greatest rank among the elements with the property, and is the
first such element. -/
structure LeftmostMax {R : Type*} [LinearOrder R] (P : α → Prop) (rank : α → R) (l : List α) (i : ℕ)
    (a : α) : Prop where
  get : l[i]? = some a
  holds : P a
  before : ∀ j b, j < i → l[j]? = some b → P b → rank b < rank a
  le : ∀ b ∈ l, P b → rank b ≤ rank a

/-! ### Searching from the front -/

theorem firstAt_cons {P : α → Prop} {l : List α} {a : α} (h : P a) : FirstAt P (a :: l) 0 a :=
  ⟨rfl, h, fun _ _ hj => absurd hj (Nat.not_lt_zero _)⟩

theorem FirstAt.cons {P : α → Prop} {l : List α} {i : ℕ} {a b : α} (h : FirstAt P l i b) (ha : ¬P a) :
    FirstAt P (a :: l) (i + 1) b := by
  refine ⟨h.get, h.holds, ?_⟩
  intro j c hj hc
  cases j with
  | zero =>
      have e : a = c := Option.some.inj hc
      rwa [← e]
  | succ j => exact h.before j c (by omega) hc

/-! ### Keeping the best so far -/

section rank
variable {R : Type*} [LinearOrder R] {P : α → Prop} {rank : α → R} {l : List α} {i : ℕ} {a b : α}

theorem leftmostMax_snoc (hl : ∀ c ∈ l, ¬P c) (hb : P b) : LeftmostMax P rank (l ++ [b]) l.length b := by
  refine ⟨by simp, hb, ?_, ?_⟩
  · intro j c hj hc hp
    rw [List.getElem?_append_left hj] at hc
    exact absurd hp (hl c (List.mem_of_getElem? hc))
  · intro c hc hp
    rcases List.mem_append.mp hc with hc | hc
    · exact absurd hp (hl c hc)
    · rw [List.mem_singleton.mp hc]

theorem LeftmostMax.lt_length (h : LeftmostMax P rank l i a) : i < l.length :=
  (List.getElem?_eq_some_iff.mp h.get).1

theorem LeftmostMax.snoc_of_le (h : LeftmostMax P rank l i a) (hb : P b → rank b ≤ rank a) :
    LeftmostMax P rank (l ++ [b]) i a := by
  refine ⟨?_, h.holds, ?_, ?_⟩
  · rw [List.getElem?_append_left h.lt_length]
    exact h.get
  · intro j c hj hc
    rw [List.getElem?_append_left (hj.trans h.lt_length)] at hc
    exact h.before j c hj hc
  · intro c hc
    rcases List.mem_append.mp hc with hc | hc
    · exact h.le c hc
    · rw [List.mem_singleton.mp hc]
      exact hb

theorem LeftmostMax.snoc_of_lt (h : LeftmostMax P rank l i a) (hb : P b) (hlt : rank a < rank b) :
    LeftmostMax P rank (l ++ [b]) l.length b := by
  refine ⟨by simp, hb, ?_, ?_⟩
  · intro j c hj hc hp
    rw [List.getElem?_append_left hj] at hc
    exact (h.le c (List.mem_of_getElem? hc) hp).trans_lt hlt
  · intro c hc hp
    rcases List.mem_append.mp hc with hc | hc
    · exact ((h.le c hc hp).trans_lt hlt).le
    · rw [List.mem_singleton.mp hc]

end rank

/-! ### Sorted lists -/

/-- In a sorted list the first element with a value is the least one. -/
theorem findSome?_eq_some_iff_of_sorted {R : Type*} [LinearOrder R] {key : α → R} {f : α → Option β} {w : β} :
    ∀ {l : List α}, l.Pairwise (fun a b => key a < key b) →
      (l.findSome? f = some w ↔ ∃ a ∈ l, f a = some w ∧ ∀ b ∈ l, (f b).isSome → key a ≤ key b)
  | [], _ => by simp
  | x :: l, h => by
      obtain ⟨hx, hl⟩ := List.pairwise_cons.mp h
      rw [List.findSome?_cons]
      cases hfx : f x with
      | some v =>
          constructor
          · intro hv
            refine ⟨x, List.mem_cons_self, hfx.trans hv, ?_⟩
            intro b hb _
            rcases List.mem_cons.mp hb with rfl | hb
            · exact le_rfl
            · exact (hx b hb).le
          · rintro ⟨a, ha, hfa, hle⟩
            rcases List.mem_cons.mp ha with rfl | ha
            · exact hfx.symm.trans hfa
            · exact absurd (hle x List.mem_cons_self (by simp [hfx])) (hx a ha).not_ge
      | none =>
          simp only [findSome?_eq_some_iff_of_sorted hl, List.mem_cons, exists_eq_or_imp, forall_eq_or_imp, hfx,
            Option.isSome_none, Bool.false_eq_true, false_implies, true_and, reduceCtorEq, false_and,
            false_or]

/-! ### Related lists -/

section transfer
variable {S : α → β → Prop} {l : List α} {l' : List β}

theorem getElem?_of_forall₂ (h : List.Forall₂ S l l') {j : ℕ} {a : α} (ha : l[j]? = some a) :
    ∃ b, l'[j]? = some b ∧ S a b := by
  obtain ⟨hlen, hget⟩ := List.forall₂_iff_get.mp h
  obtain ⟨hj, rfl⟩ := List.getElem?_eq_some_iff.mp ha
  exact ⟨l'[j], List.getElem?_eq_getElem (hlen ▸ hj), hget j hj (hlen ▸ hj)⟩

theorem exists_mem_of_forall₂ (h : List.Forall₂ S l l') {a : α} (ha : a ∈ l) : ∃ b ∈ l', S a b := by
  obtain ⟨j, hj⟩ := List.mem_iff_getElem?.mp ha
  obtain ⟨b, hb, hab⟩ := getElem?_of_forall₂ h hj
  exact ⟨b, List.mem_of_getElem? hb, hab⟩

theorem FirstAt.transfer {P : α → Prop} {Q : β → Prop} {i : ℕ} {a : α} (h : FirstAt P l i a)
    (hS : List.Forall₂ S l l') (hP : ∀ x y, S x y → (P x ↔ Q y)) : ∃ b, S a b ∧ FirstAt Q l' i b := by
  obtain ⟨b, hb, hab⟩ := getElem?_of_forall₂ hS h.get
  refine ⟨b, hab, hb, (hP a b hab).mp h.holds, ?_⟩
  intro j y hj hy hq
  obtain ⟨x, hx, hxy⟩ := getElem?_of_forall₂ hS.flip hy
  exact h.before j x hj hx ((hP x y hxy).mpr hq)

theorem LeftmostMax.transfer {R : Type*} [LinearOrder R] {P : α → Prop} {Q : β → Prop}
    {rank : α → R} {rank' : β → R} {i : ℕ} {a : α} (h : LeftmostMax P rank l i a)
    (hS : List.Forall₂ S l l') (hP : ∀ x y, S x y → (P x ↔ Q y))
    (hrank : ∀ x y, S x y → P x → rank x = rank' y) :
    ∃ b, S a b ∧ LeftmostMax Q rank' l' i b := by
  obtain ⟨b, hb, hab⟩ := getElem?_of_forall₂ hS h.get
  refine ⟨b, hab, hb, (hP a b hab).mp h.holds, ?_, ?_⟩
  · intro j y hj hy hq
    obtain ⟨x, hx, hxy⟩ := getElem?_of_forall₂ hS.flip hy
    have hp := (hP x y hxy).mpr hq
    rw [← hrank x y hxy hp, ← hrank a b hab h.holds]
    exact h.before j x hj hx hp
  · intro y hy hq
    obtain ⟨x, hx, hxy⟩ := exists_mem_of_forall₂ hS.flip hy
    have hp := (hP x y hxy).mpr hq
    rw [← hrank x y hxy hp, ← hrank a b hab h.holds]
    exact h.le x hx hp

end transfer

/-- A successful map relates the two lists. -/
theorem forall₂_of_mapM_ok {ε : Type*} {f : α → Except ε β} : ∀ {l : List α} {l' : List β},
    l.mapM f = .ok l' → List.Forall₂ (fun a b => f a = .ok b) l l'
  | [], l', h => by
      obtain rfl : [] = l' := Except.ok.inj h
      exact .nil
  | a :: l, l', h => by
      rw [List.mapM_cons] at h
      cases ha : f a with
      | error err => simp [ha, bind, Except.bind] at h
      | ok b =>
          cases hl : l.mapM f with
          | error err => simp [ha, hl, bind, Except.bind] at h
          | ok bs =>
              simp only [ha, hl, bind, Except.bind, pure, Except.pure, Except.ok.injEq] at h
              subst h
              exact .cons ha (forall₂_of_mapM_ok hl)

/-- A map succeeds exactly if it does at every element. -/
theorem exists_mapM_ok_iff {ε : Type*} {f : α → Except ε β} : ∀ {l : List α},
    (∃ l', l.mapM f = .ok l') ↔ ∀ a ∈ l, ∃ b, f a = .ok b
  | [] => by simpa using ⟨[], rfl⟩
  | a :: l => by
      rw [List.forall_mem_cons, ← exists_mapM_ok_iff (l := l), List.mapM_cons]
      constructor
      · rintro ⟨l', h⟩
        cases ha : f a with
        | error err => simp [ha, bind, Except.bind] at h
        | ok b =>
            cases hl : l.mapM f with
            | error err => simp [ha, hl, bind, Except.bind] at h
            | ok bs => exact ⟨⟨b, rfl⟩, bs, rfl⟩
      · rintro ⟨⟨b, hb⟩, bs, hbs⟩
        rw [hb, hbs]
        exact ⟨b :: bs, rfl⟩

/-! ### Loops that report -/

section loops
variable {σ : Type*} {L : List α} {I : List α → σ → Prop} {step : σ → α → σ} {reports : σ → List β}
  {Fine : σ → α → Prop} {About : σ → α → β → Prop}

/-- A loop over `L`, with an invariant of what has been visited.  A round does well by its item, or says
something about it; and this is not undone later. -/
structure Reporting (L : List α) (I : List α → σ → Prop) (step : σ → α → σ) (reports : σ → List β)
    (Fine : σ → α → Prop) (About : σ → α → β → Prop) : Prop where
  inv : ∀ earlier acc x, earlier ++ [x] <+: L → I earlier acc → I (earlier ++ [x]) (step acc x)
  round : ∀ earlier acc x, earlier ++ [x] <+: L → I earlier acc →
    (reports (step acc x) = reports acc ∧ Fine (step acc x) x) ∨
      ∃ r, reports (step acc x) = reports acc ++ [r] ∧ About (step acc x) x r
  fine : ∀ acc x y, Fine acc x → Fine (step acc y) x
  about : ∀ acc x y r, About acc x r → About (step acc y) x r

/-- What such a loop has reported of the items visited, besides what was there before. -/
structure Reported (Fine : σ → α → Prop) (About : σ → α → β → Prop) (reports : σ → List β) (before : List β)
    (earlier : List α) (acc : σ) : Prop where
  keeps : ∀ r ∈ before, r ∈ reports acc
  sound : ∀ r ∈ reports acc, r ∈ before ∨ ∃ x ∈ earlier, About acc x r
  complete : ∀ x ∈ earlier, Fine acc x ∨ ∃ r ∈ reports acc, About acc x r

theorem Reporting.step_reported (h : Reporting L I step reports Fine About) {before : List β} {earlier : List α}
    {acc : σ} {x : α} (hx : earlier ++ [x] <+: L) (hI : I earlier acc)
    (hacc : Reported Fine About reports before earlier acc) :
    Reported Fine About reports before (earlier ++ [x]) (step acc x) := by
  have hsound : ∀ r ∈ reports acc, r ∈ before ∨ ∃ y ∈ earlier ++ [x], About (step acc x) y r := by
    intro r hr
    rcases hacc.sound r hr with hold | ⟨y, hy, habout⟩
    · exact Or.inl hold
    · exact Or.inr ⟨y, List.mem_append_left _ hy, h.about acc y x r habout⟩
  have hcomplete : ∀ y ∈ earlier, Fine (step acc x) y ∨ ∃ r ∈ reports acc, About (step acc x) y r := by
    intro y hy
    rcases hacc.complete y hy with hfine | ⟨r, hr, habout⟩
    · exact Or.inl (h.fine acc y x hfine)
    · exact Or.inr ⟨r, hr, h.about acc y x r habout⟩
  rcases h.round earlier acc x hx hI with ⟨hsame, hfine⟩ | ⟨r, hmore, habout⟩
  · refine ⟨by rw [hsame]; exact hacc.keeps, by rw [hsame]; exact hsound, ?_⟩
    intro y hy
    rcases List.mem_append.mp hy with hy | hy
    · rw [hsame]
      exact hcomplete y hy
    · rw [List.mem_singleton.mp hy]
      exact Or.inl hfine
  · refine ⟨?_, ?_, ?_⟩
    · intro r' hr'
      rw [hmore]
      exact List.mem_append_left _ (hacc.keeps r' hr')
    · intro r' hr'
      rw [hmore, List.mem_append, List.mem_singleton] at hr'
      rcases hr' with hr' | rfl
      · exact hsound r' hr'
      · exact Or.inr ⟨x, by simp, habout⟩
    · intro y hy
      rw [hmore]
      rcases List.mem_append.mp hy with hy | hy
      · rcases hcomplete y hy with hfine | ⟨r', hr', habout'⟩
        · exact Or.inl hfine
        · exact Or.inr ⟨r', List.mem_append_left _ hr', habout'⟩
      · rw [List.mem_singleton.mp hy]
        exact Or.inr ⟨r, by simp, habout⟩

theorem Reporting.foldl_reported (h : Reporting L I step reports Fine About) {before : List β} :
    ∀ (rest earlier : List α) (acc : σ), earlier ++ rest = L → I earlier acc →
      Reported Fine About reports before earlier acc → Reported Fine About reports before L (rest.foldl step acc)
  | [], earlier, acc, heq, _, hacc => by
      rw [List.append_nil] at heq
      exact heq ▸ hacc
  | x :: rest, earlier, acc, heq, hI, hacc => by
      have hassoc : earlier ++ [x] ++ rest = L := by simpa using heq
      have hx : earlier ++ [x] <+: L := ⟨rest, hassoc⟩
      exact h.foldl_reported rest _ _ hassoc (h.inv earlier acc x hx hI) (h.step_reported hx hI hacc)

/-- The whole loop: what is reported was reported of an item, and an item that the loop does not do well by is
reported. -/
theorem Reporting.loop (h : Reporting L I step reports Fine About) (acc : σ) (hI : I [] acc) :
    Reported Fine About reports (reports acc) L (L.foldl step acc) :=
  h.foldl_reported L [] acc rfl hI ⟨fun _ => id, fun _ => Or.inl, by simp⟩

end loops

end Selections
