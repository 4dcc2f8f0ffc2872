import Mathlib

/-! # Directories, and what a power failure leaves of them

A file system as its directories, each a map from names to what they are bound to, and the contents of
its files, by inode.  Processes see the current view of a directory.  A change of a directory reaches
stable storage by itself at some later time, and at the latest with the next sync of the directory;
until then a power failure may bring back any of the views it has had since its last sync.  A file that
has been written and not synced may be found with any content.

`Storage.PowerLoss` is this; the order of changes is kept within a directory and not between
directories. -/

/-- What a name is bound to. -/
inductive Binding where
  | dir
  | file (ino : ℕ)
deriving DecidableEq, Repr

/-- The entries of a directory. -/
abbrev DirView (ν : Type) := ν → Option Binding

structure Storage (ν γ : Type) where
  /-- The directory at a path, as processes see it. -/
  view : List ν → DirView ν
  /-- What the directory may still be found as. -/
  older : List ν → List (DirView ν)
  data : ℕ → γ
  /-- The content is on stable storage. -/
  clean : ℕ → Bool

/-- Follow the names from the directory `g`. -/
def walk {ν : Type} (view : List ν → DirView ν) (g : List ν) : List ν → Option Binding
  | [] => some .dir
  | f :: rest =>
      match view g f with
      | some .dir => walk view (g ++ [f]) rest
      | b => if rest.isEmpty then b else none

namespace Storage

variable {ν γ : Type} {s s' : Storage ν γ} {g g' p q : List ν} {f f' x : ν} {i j : ℕ}

/-- The current view and those that may be found instead. -/
def views (s : Storage ν γ) (g : List ν) : List (DirView ν) := s.view g :: s.older g

def lookup (s : Storage ν γ) (p : List ν) : Option Binding := walk s.view [] p

/-- No directory has the inode, nor may it be found with it. -/
def Unused (s : Storage ν γ) (i : ℕ) : Prop := ∀ g, ∀ v ∈ s.views g, ∀ f, v f ≠ some (.file i)

/-- After a power failure: each directory is found in one of its views, and every file whose content was
on stable storage has kept it. -/
structure PowerLoss (s s' : Storage ν γ) : Prop where
  view : ∀ g, s'.view g ∈ s.views g
  older : ∀ g, s'.older g = []
  data : ∀ i, s.clean i = true → s'.data i = s.data i
  clean : ∀ i, s'.clean i = true

/-! ### Operations -/

section ops
variable [DecidableEq ν]

/-- A directory gets a new view. -/
def setView (s : Storage ν γ) (g : List ν) (v : DirView ν) : Storage ν γ where
  view := Function.update s.view g v
  older := Function.update s.older g (s.views g)
  data := s.data
  clean := s.clean

/-- A single entry changes. -/
def bind (s : Storage ν γ) (g : List ν) (f : ν) (b : Option Binding) : Storage ν γ :=
  s.setView g (Function.update (s.view g) f b)

/-- A new directory, which is empty. -/
def mkdir (s : Storage ν γ) (g : List ν) (f : ν) : Storage ν γ where
  view := Function.update (s.bind g f (some .dir)).view (g ++ [f]) fun _ => none
  older := Function.update (s.bind g f (some .dir)).older (g ++ [f]) []
  data := s.data
  clean := s.clean

/-- A file moves; within one directory this is a single change. -/
def move (s : Storage ν γ) (g : List ν) (f : ν) (g' : List ν) (f' : ν) (i : ℕ) : Storage ν γ :=
  if g = g' then s.setView g (Function.update (Function.update (s.view g) f none) f' (some (.file i)))
  else (s.bind g' f' (some (.file i))).bind g f none

/-- The sync of a directory. -/
def flush (s : Storage ν γ) (g : List ν) : Storage ν γ := { s with older := Function.update s.older g [] }

end ops

/-- A file is written. -/
def put (s : Storage ν γ) (i : ℕ) (c : γ) : Storage ν γ :=
  { s with data := Function.update s.data i c, clean := Function.update s.clean i false }

/-- The sync of a file. -/
def settle (s : Storage ν γ) (i : ℕ) : Storage ν γ := { s with clean := Function.update s.clean i true }

section making
variable [DecidableEq ν]

/-- Directories have been made on the way to `g`. -/
inductive Made (s : Storage ν γ) (g : List ν) : Storage ν γ → Prop where
  | refl : Made s g s
  | mkdir (s' : Storage ν γ) (p : List ν) (f : ν) (h : Made s g s') (hdir : s'.lookup p = some .dir)
      (hnone : s'.view p f = none) (habove : p ++ [f] <+: g) : Made s g (s'.mkdir p f)

/-- The file `f` of `g` has been opened, and created if there was none; its inode is `i`. -/
inductive Opened (s : Storage ν γ) (g : List ν) (f : ν) (i : ℕ) : Storage ν γ → Prop where
  | there (h : s.view g f = some (.file i)) : Opened s g f i s
  | created (h : s.view g f = none) (hi : s.Unused i) : Opened s g f i (s.bind g f (some (.file i)))

end making

/-! ### Lookups -/

theorem walk_concat (view : List ν → DirView ν) (g p : List ν) (f : ν) :
    walk view g (p ++ [f]) = if walk view g p = some .dir then view (g ++ p) f else none := by
  induction p generalizing g with
  | nil =>
      rw [List.nil_append, List.append_nil, walk, walk, if_pos rfl]
      cases hb : view g f with
      | none => rfl
      | some b =>
          cases b with
          | dir => rfl
          | file i => rfl
  | cons f₀ p ih =>
      rw [List.cons_append, walk, walk]
      have hne : (p ++ [f]).isEmpty = false := by simp
      cases hb : view g f₀ with
      | none =>
          simp only [hne, Bool.false_eq_true, if_false]
          rw [if_neg]
          split_ifs <;> simp
      | some b =>
          cases b with
          | dir =>
              simp only
              rw [ih (g ++ [f₀]), List.append_assoc, List.singleton_append]
          | file i =>
              simp only [hne, Bool.false_eq_true, if_false]
              rw [if_neg]
              split_ifs <;> simp

theorem view_mem_views (s : Storage ν γ) (g : List ν) : s.view g ∈ s.views g := List.mem_cons_self

@[simp] theorem lookup_nil : s.lookup [] = some .dir := rfl

theorem lookup_concat (s : Storage ν γ) (g : List ν) (f : ν) :
    s.lookup (g ++ [f]) = if s.lookup g = some .dir then s.view g f else none := by
  rw [lookup, walk_concat, List.nil_append, lookup]

theorem lookup_singleton (s : Storage ν γ) (f : ν) : s.lookup [f] = s.view [] f := by
  have h := s.lookup_concat [] f
  rwa [lookup_nil, if_pos rfl] at h

theorem lookup_pair (s : Storage ν γ) (f f' : ν) :
    s.lookup [f, f'] = if s.view [] f = some .dir then s.view [f] f' else none := by
  have h := s.lookup_concat [f] f'
  rwa [lookup_singleton] at h

/-- What is below a path that leads somewhere is in directories. -/
theorem lookup_above (h : s.lookup p ≠ none) (hq : q <+: p) (hne : q ≠ p) : s.lookup q = some .dir := by
  induction p using List.reverseRecOn with
  | nil => exact absurd (List.prefix_nil.mp hq) hne
  | append_singleton g f ih =>
      rw [lookup_concat] at h
      have hdir : s.lookup g = some .dir := by
        by_contra hg
        rw [if_neg hg] at h
        exact h rfl
      rcases List.prefix_concat_iff.mp hq with heq | hq
      · exact absurd heq hne
      · by_cases heq : q = g
        · rw [heq, hdir]
        · exact ih (by rw [hdir]; exact Option.some_ne_none _) hq heq

/-- Directories stay where they are as long as their entries do. -/
theorem lookup_dir (hview : ∀ g f, s.view g f = some .dir → s'.view g f = some .dir) (h : s.lookup p = some .dir) :
    s'.lookup p = some .dir := by
  induction p using List.reverseRecOn with
  | nil => rfl
  | append_singleton g f ih =>
      rw [lookup_concat] at h ⊢
      split_ifs at h with hg
      rw [if_pos (ih hg), hview g f h]

/-- A change of one entry that is not a directory is seen at its own path only. -/
theorem lookup_of_ne (hview : ∀ g' f', (g' ≠ g ∨ f' ≠ f) → s'.view g' f' = s.view g' f')
    (hb : s.view g f ≠ some .dir) (hb' : s'.view g f ≠ some .dir) (hp : p ≠ g ++ [f]) :
    s'.lookup p = s.lookup p := by
  induction p using List.reverseRecOn with
  | nil => rfl
  | append_singleton q x ih =>
      rw [lookup_concat, lookup_concat]
      have hqx : q ≠ g ∨ x ≠ f := by
        by_contra hnot
        rw [not_or, not_not, not_not] at hnot
        exact hp (by rw [hnot.1, hnot.2])
      rw [hview q x hqx]
      by_cases hq : q = g ++ [f]
      · -- below the entry there is nothing, before and after
        have hnot : ∀ t : Storage ν γ, t.view g f ≠ some .dir → t.lookup q ≠ some .dir := by
          intro t ht
          rw [hq, lookup_concat]
          split_ifs
          · exact ht
          · simp
        rw [if_neg (hnot s' hb'), if_neg (hnot s hb)]
      · rw [ih hq]

@[simp] theorem data_put (s : Storage ν γ) (i : ℕ) (c : γ) : (s.put i c).data i = c := Function.update_self ..

@[simp] theorem put_put (s : Storage ν γ) (i : ℕ) (c c' : γ) : (s.put i c).put i c' = s.put i c' := by
  simp [put]

section ops
variable [DecidableEq ν]

theorem view_bind (b : Option Binding) :
    (s.bind g f b).view g' f' = if g' = g ∧ f' = f then b else s.view g' f' := by
  show Function.update s.view g (Function.update (s.view g) f b) g' f' = _
  by_cases hg : g' = g
  · subst hg
    rw [Function.update_self]
    by_cases hf : f' = f
    · rw [hf, Function.update_self, if_pos ⟨rfl, rfl⟩]
    · rw [Function.update_of_ne hf, if_neg fun h => hf h.2]
  · rw [Function.update_of_ne hg, if_neg fun h => hg h.1]

theorem view_mkdir : (s.mkdir g f).view g' f' =
    if g' = g ++ [f] then none else if g' = g ∧ f' = f then some .dir else s.view g' f' := by
  show Function.update (s.bind g f (some .dir)).view (g ++ [f]) (fun _ => none) g' f' = _
  by_cases hg : g' = g ++ [f]
  · rw [hg, Function.update_self, if_pos rfl]
  · rw [Function.update_of_ne hg, if_neg hg, view_bind]

theorem view_move : (s.move g f g' f' i).view p x =
    if p = g' ∧ x = f' then some (.file i) else if p = g ∧ x = f then none else s.view p x := by
  unfold move
  split_ifs with hg h₁ h₂
  · obtain ⟨rfl, rfl⟩ := h₁
    subst hg
    show Function.update s.view g _ g x = _
    rw [Function.update_self, Function.update_self]
  · obtain ⟨rfl, rfl⟩ := h₂
    subst hg
    show Function.update s.view p _ p x = _
    rw [Function.update_self, Function.update_of_ne fun h => h₁ ⟨rfl, h⟩, Function.update_self]
  · subst hg
    show Function.update s.view g _ p x = _
    by_cases hp : p = g
    · subst hp
      rw [Function.update_self, Function.update_of_ne fun h => h₁ ⟨rfl, h⟩, Function.update_of_ne fun h => h₂ ⟨rfl, h⟩]
    · rw [Function.update_of_ne hp]
  · rename_i h₁
    obtain ⟨rfl, rfl⟩ := h₁
    rw [view_bind, if_neg fun h => hg h.1.symm, view_bind, if_pos ⟨rfl, rfl⟩]
  · rename_i h₂
    rw [view_bind, if_pos h₂]
  · rename_i h₁ h₂
    rw [view_bind, if_neg h₂, view_bind, if_neg h₁]

@[simp] theorem data_move : (s.move g f g' f' i).data = s.data := by
  unfold move
  split_ifs <;> rfl

theorem lookup_mkdir (hdir : s.lookup g = some .dir) (hnone : s.view g f = none) :
    (s.mkdir g f).lookup p = if p = g ++ [f] then some .dir else s.lookup p := by
  induction p using List.reverseRecOn with
  | nil => simp
  | append_singleton q x ih =>
      rw [lookup_concat, lookup_concat, ih, view_mkdir]
      by_cases hq : q = g ++ [f]
      · subst hq
        rw [if_pos rfl, if_pos rfl, if_pos rfl, if_neg (by simp), lookup_concat, if_pos hdir, hnone, if_neg (by simp)]
      · rw [if_neg hq, if_neg hq]
        by_cases hqx : q = g ∧ x = f
        · obtain ⟨rfl, rfl⟩ := hqx
          rw [if_pos hdir, if_pos ⟨rfl, rfl⟩, if_pos rfl]
        · have hne : q ++ [x] ≠ g ++ [f] := mt List.append_singleton_inj.mp hqx
          rw [if_neg hqx, if_neg hne]

/-! ### Views -/

theorem mem_views_setView {v w : DirView ν} : v ∈ (s.setView g w).views p ↔ (p = g ∧ v = w) ∨ v ∈ s.views p := by
  unfold views setView
  by_cases hp : p = g
  · subst hp
    simp [views]
  · simp [hp]

theorem mem_views_bind {v : DirView ν} {b : Option Binding} : v ∈ (s.bind g f b).views p ↔
    (p = g ∧ v = Function.update (s.view g) f b) ∨ v ∈ s.views p := mem_views_setView

theorem mem_views_mkdir {v : DirView ν} : v ∈ (s.mkdir g f).views p ↔ (p = g ++ [f] ∧ v = fun _ => none) ∨
    (p ≠ g ++ [f] ∧ ((p = g ∧ v = Function.update (s.view g) f (some .dir)) ∨ v ∈ s.views p)) := by
  rw [← mem_views_bind]
  unfold views mkdir
  by_cases hp : p = g ++ [f]
  · subst hp
    simp
  · simp [hp]

theorem mem_views_move {v : DirView ν} : v ∈ (s.move g f g f' i).views p ↔
    (p = g ∧ v = Function.update (Function.update (s.view g) f none) f' (some (.file i))) ∨ v ∈ s.views p := by
  rw [move, if_pos rfl]
  exact mem_views_setView

theorem views_setView_ne {w : DirView ν} (h : p ≠ g) : (s.setView g w).views p = s.views p := by
  unfold views setView
  simp [h]

theorem views_bind_ne {b : Option Binding} (h : p ≠ g) : (s.bind g f b).views p = s.views p := views_setView_ne h

theorem views_move_ne (h : p ≠ g) : (s.move g f g f' i).views p = s.views p := by
  rw [move, if_pos rfl]
  exact views_setView_ne h

/-- A directory has a single view once it is synced. -/
theorem views_flush : (s.flush g).views g = [s.view g] := by
  unfold views flush
  simp

theorem views_flush_ne (h : p ≠ g) : (s.flush g).views p = s.views p := by
  unfold views flush
  simp [h]

theorem mem_views_of_flush {v : DirView ν} (h : v ∈ (s.flush g).views p) : v ∈ s.views p := by
  by_cases hp : p = g
  · subst hp
    rw [views_flush, List.mem_singleton] at h
    exact h ▸ s.view_mem_views p
  · rwa [views_flush_ne hp] at h

/-- What making directories changes. -/
theorem Made.lookup (h : s.Made g s') (q : List ν) :
    s'.lookup q = s.lookup q ∨ (s.lookup q = none ∧ s'.lookup q = some .dir ∧ q <+: g) := by
  induction h with
  | refl => exact Or.inl rfl
  | mkdir s' p f h hdir hnone habove ih =>
      rw [lookup_mkdir hdir hnone]
      by_cases hq : q = p ++ [f]
      · rw [if_pos hq]
        have hbefore : s'.lookup q = none := by rw [hq, lookup_concat, if_pos hdir, hnone]
        rcases ih with hsame | ⟨-, hdir', -⟩
        · exact Or.inr ⟨hsame.symm.trans hbefore, rfl, hq ▸ habove⟩
        · rw [hbefore] at hdir'
          cases hdir'
      · rw [if_neg hq]
        exact ih

theorem Made.file (h : s.Made g s') (hi : s'.view p f = some (.file i)) : s.view p f = some (.file i) := by
  induction h with
  | refl => exact hi
  | mkdir s' p' f' _ _ _ _ ih =>
      rw [view_mkdir] at hi
      split_ifs at hi
      · cases hi
      · exact ih hi

theorem Made.data_eq (h : s.Made g s') : s'.data = s.data := by
  induction h with
  | refl => rfl
  | mkdir s' p' f' _ _ _ _ ih => exact ih

theorem Opened.view_eq (h : s.Opened g f i s') : s'.view g f = some (.file i) := by
  cases h with
  | there hi => exact hi
  | created _ _ => rw [view_bind, if_pos ⟨rfl, rfl⟩]

theorem Unused.bind {b : Option Binding} (h : s.Unused j) (hb : b ≠ some (.file j)) : (s.bind g f b).Unused j := by
  intro p v hv x
  rcases mem_views_bind.mp hv with ⟨rfl, rfl⟩ | hv
  · by_cases hx : x = f
    · subst hx
      rwa [Function.update_self]
    · rw [Function.update_of_ne hx]
      exact h p _ (s.view_mem_views p) x
  · exact h p v hv x

theorem Unused.made (h : s.Unused j) (hm : s.Made g s') : s'.Unused j := by
  induction hm with
  | refl => exact h
  | mkdir s' p f _ _ _ _ ih =>
      intro q v hv x
      rcases mem_views_mkdir.mp hv with ⟨-, rfl⟩ | ⟨-, hv⟩
      · simp
      · exact ih.bind (by simp) q v (mem_views_bind.mpr hv) x

theorem Unused.flush (h : s.Unused j) : (s.flush g).Unused j :=
  fun p v hv x => h p v (mem_views_of_flush hv) x

theorem Unused.move (h : s.Unused j) (hi : i ≠ j) : (s.move g f g' f' i).Unused j := by
  have hb : some (Binding.file i) ≠ some (.file j) := by simpa using hi
  unfold Storage.move
  split_ifs with hg
  · intro p v hv x
    rcases mem_views_setView.mp hv with ⟨-, rfl⟩ | hv
    · by_cases hx : x = f'
      · subst hx
        rwa [Function.update_self]
      · rw [Function.update_of_ne hx]
        by_cases hx' : x = f
        · subst hx'
          simp
        · rw [Function.update_of_ne hx']
          exact h g _ (s.view_mem_views g) x
    · exact h p v hv x
  · exact (h.bind hb).bind (by simp)

end ops

end Storage
