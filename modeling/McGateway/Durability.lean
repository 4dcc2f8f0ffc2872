import McGateway.OsRefinement

/-! # What is on stable storage

Assertions about the storage of the mount that hold also of what a power failure leaves of it.

`Sound` is about single files: under every name but that of a temp file there is a whole file of a tree
that a commit was started with, in every view that may be found.  It needs nothing but the order of the
calls within a write.

`Calm` is about files together: a `config.lua` that may be found is found with the modules it refers to.
`Steady` is what a commit can rely on when it finds a file as it should be and leaves it alone: the file is
found so after a power failure as well.  `Pinned` and `ConfigPinned` are what a commit achieves.

A change that concerns temp files only is `Tidy`, and keeps all of them. -/

open Bytes (ascii hasSuffix)

namespace McGateway.Operator

/-! ### Assertions -/

/-- The name is that of a temp file. -/
def IsTmp (f : Name) : Prop := hasSuffix f.1 tmpSuffix = true

/-- The bytes are the file at `q` of a tree that a commit was started with. -/
def Genuine (started : List Snapshot) (q : Path) (b : Bytes) : Prop :=
  ∃ sn ∈ started, ∃ path, resolve path = some q ∧ (render sn).1.lookup path = some b

/-- Whole files under every name but those of temp files, which cannot be written through a temp name. -/
structure Sound (started : List Snapshot) (s : Storage Name Bytes) : Prop where
  apart : ∀ g g' v v' f f' i, v ∈ s.views g → v' ∈ s.views g' → v f = some (.file i) →
    v' f' = some (.file i) → g = g'
  single : ∀ g v f f' i, v ∈ s.views g → v f = some (.file i) → v f' = some (.file i) → f = f'
  temp : ∀ g f i, IsTmp f → s.view g f = some (.file i) → ∀ v ∈ s.views g, ∀ f', v f' = some (.file i) → IsTmp f'
  final : ∀ g v f i, v ∈ s.views g → v f = some (.file i) → ¬IsTmp f →
    s.clean i = true ∧ Genuine started (g ++ [f]) (s.data i)

/-- The bytes of a configuration refer to the module file `f`. -/
def Refers (b : Bytes) (f : Name) : Prop := ∃ n ∈ referencedMerges b, n ∉ builtinMerges ∧ f.1 = n ++ wasmSuffix

/-- A configuration is found with the modules it refers to, whichever views are found together. -/
structure Calm (s : Storage Name Bytes) : Prop where
  backed : ∀ v ∈ s.views [], ∀ i, v configName = some (.file i) → ∀ f, Refers (s.data i) f →
    v udfName = some .dir ∧ ∀ u ∈ s.views [udfName], ∃ j, u f = some (.file j)
  udf : ∀ v ∈ s.views [], v udfName = some .dir → s.view [] udfName = some .dir

/-- What is seen is what is found. -/
structure Steady (s : Storage Name Bytes) : Prop where
  modules : ∀ u ∈ s.views [udfName], ∀ f i, ¬IsTmp f → s.view [udfName] f = some (.file i) → u f = some (.file i)
  config : ∀ v ∈ s.views [], v configName = s.view [] configName

/-- The modules of the snapshot that `P` selects are found as rendered. -/
structure Pinned (sn : Snapshot) (P : Name → Prop) (s : Storage Name Bytes) : Prop where
  modules : ∀ f, P f → ∀ b, (render sn).1.lookup (udfPath f) = some b → ∀ u ∈ s.views [udfName],
    ∃ j, u f = some (.file j) ∧ s.data j = b
  udf : ∀ f, P f → s.view [] udfName = some .dir

/-- The configuration of the snapshot is found. -/
def ConfigPinned (sn : Snapshot) (s : Storage Name Bytes) : Prop :=
  ∀ v ∈ s.views [], ∃ i, v configName = some (.file i) ∧ s.data i = configBytes sn

/-! ### Names -/

theorem not_isTmp_of_wasm {f : Name} (h : hasSuffix f.1 wasmSuffix = true) : ¬IsTmp f :=
  fun hf => not_temp_of_wasm h ⟨f, rfl, hf⟩

theorem not_isTmp_config : ¬IsTmp configName := by
  unfold IsTmp
  decide

theorem not_isTmp_udf : ¬IsTmp udfName := by
  unfold IsTmp
  decide

theorem isTmp_tmp (f : Name) : IsTmp f.tmp := Bytes.hasSuffix_append _ _

theorem Refers.not_isTmp {b : Bytes} {f : Name} (h : Refers b f) : ¬IsTmp f := by
  obtain ⟨n, -, -, hf⟩ := h
  apply not_isTmp_of_wasm
  rw [hf]
  exact Bytes.hasSuffix_append _ _

/-- The modules a rendered configuration refers to are in the tree. -/
theorem Refers.mem_render {sn : Snapshot} {f : Name} (h : Refers (configBytes sn) f) :
    udfPath f ∈ (render sn).1 := by
  obtain ⟨n, hn, hnot, hf⟩ := h
  rw [referencedMerges_configBytes, List.mem_map] at hn
  obtain ⟨ks, hks, rfl⟩ := hn
  have hmod : mergeName ks.spec ∈ (emittedModules sn).1 :=
    (mergeName_emitted ((emittedKeyspaces_spec sn).admissible ks hks)).resolve_left hnot
  have hpath : udfPath f = modulePath (mergeName ks.spec) := by
    simp [udfPath, modulePath, hf, wasmSuffix]
  rw [hpath]
  exact modulePath_mem_render.mpr hmod

theorem Genuine.mono {started started' : List Snapshot} {q : Path} {b : Bytes} (h : Genuine started q b)
    (hsub : ∀ sn ∈ started, sn ∈ started') : Genuine started' q b := by
  obtain ⟨sn, hsn, hpath⟩ := h
  exact ⟨sn, hsub sn hsn, hpath⟩

theorem Genuine.config {started : List Snapshot} {b : Bytes} (h : Genuine started [configName] b) :
    ∃ sn ∈ started, b = configBytes sn := by
  obtain ⟨sn, hsn, path, hpath, hb⟩ := h
  have hmem : path ∈ (render sn).1 := AList.lookup_isSome.mp (by rw [hb]; rfl)
  by_cases hc : path = configFile
  · rw [hc, lookup_render_config] at hb
    exact ⟨sn, hsn, (Option.some.inj hb).symm⟩
  · obtain ⟨f, h0, -, rfl⟩ := (flatTree_render sn).flat path hmem hc
    rw [resolve_udfPath h0] at hpath
    cases hpath

theorem Genuine.module {started : List Snapshot} {f : Name} {b : Bytes} (h : Genuine started [udfName, f] b) :
    ∃ sn ∈ started, (render sn).1.lookup (udfPath f) = some b := by
  obtain ⟨sn, hsn, path, hpath, hb⟩ := h
  have hmem : path ∈ (render sn).1 := AList.lookup_isSome.mp (by rw [hb]; rfl)
  by_cases hc : path = configFile
  · rw [hc, resolve_configFile] at hpath
    cases hpath
  · obtain ⟨f', h0, -, rfl⟩ := (flatTree_render sn).flat path hmem hc
    rw [resolve_udfPath h0] at hpath
    cases hpath
    exact ⟨sn, hsn, hb⟩

/-! ### Single files -/

section sound
variable {started : List Snapshot} {s s' : Storage Name Bytes} {g : Path} {f f' : Name} {i : ℕ}

theorem Sound.mono {started' : List Snapshot} (h : Sound started s) (hsub : ∀ sn ∈ started, sn ∈ started') :
    Sound started' s where
  apart := h.apart
  single := h.single
  temp := h.temp
  final g v f i hv hi hf := ⟨(h.final g v f i hv hi hf).1, (h.final g v f i hv hi hf).2.mono hsub⟩

/-- An inode under a temp name is under no other. -/
theorem Sound.ne_of_isTmp (h : Sound started s) (hf : IsTmp f) (hi : s.view g f = some (.file i)) {p : Path}
    {v : DirView Name} {x : Name} {j : ℕ} (hv : v ∈ s.views p) (hx : v x = some (.file j)) (hnot : ¬IsTmp x) :
    j ≠ i := by
  rintro rfl
  obtain rfl := h.apart _ _ _ _ _ _ j hv (s.view_mem_views g) hx hi
  exact hnot (h.temp p f j hf hi v hv x hx)

/-- Fewer names are bound to files, and the files in place are as they were. -/
theorem Sound.shrink (h : Sound started s)
    (hviews : ∀ g, ∀ v' ∈ s'.views g, ∃ v ∈ s.views g, ∀ f i, v' f = some (.file i) → v f = some (.file i))
    (hview : ∀ g f i, s'.view g f = some (.file i) → s.view g f = some (.file i))
    (hkept : ∀ g v f i, v ∈ s.views g → v f = some (.file i) → ¬IsTmp f → s.clean i = true →
      s'.clean i = true ∧ s'.data i = s.data i) : Sound started s' where
  apart g₁ g₂ v₁ v₂ f₁ f₂ i hv₁ hv₂ h₁ h₂ := by
    obtain ⟨w₁, hw₁, hsub₁⟩ := hviews g₁ v₁ hv₁
    obtain ⟨w₂, hw₂, hsub₂⟩ := hviews g₂ v₂ hv₂
    exact h.apart _ _ _ _ _ _ i hw₁ hw₂ (hsub₁ _ _ h₁) (hsub₂ _ _ h₂)
  single g v f f' i hv h₁ h₂ := by
    obtain ⟨w, hw, hsub⟩ := hviews g v hv
    exact h.single g w f f' i hw (hsub _ _ h₁) (hsub _ _ h₂)
  temp g f i hf hi v hv f' hf' := by
    obtain ⟨w, hw, hsub⟩ := hviews g v hv
    exact h.temp g f i hf (hview g f i hi) w hw f' (hsub _ _ hf')
  final g v f i hv hi hf := by
    obtain ⟨w, hw, hsub⟩ := hviews g v hv
    obtain ⟨hclean, hgood⟩ := h.final g w f i hw (hsub _ _ hi) hf
    obtain ⟨hclean', hdata⟩ := hkept g w f i hw (hsub _ _ hi) hf hclean
    exact ⟨hclean', hdata ▸ hgood⟩

theorem Sound.unlink (h : Sound started s) (g : Path) (f : Name) : Sound started (s.bind g f none) := by
  have hupdate : ∀ x i, Function.update (s.view g) f none x = some (.file i) → s.view g x = some (.file i) := by
    intro x i hx
    by_cases hxf : x = f
    · rw [hxf, Function.update_self] at hx
      cases hx
    · rwa [Function.update_of_ne hxf] at hx
  refine h.shrink ?_ ?_ fun _ _ _ _ _ _ _ hc => ⟨hc, rfl⟩
  · intro p v' hv'
    rcases Storage.mem_views_bind.mp hv' with ⟨rfl, rfl⟩ | hv
    · exact ⟨_, s.view_mem_views p, hupdate⟩
    · exact ⟨v', hv, fun _ _ => id⟩
  · intro p x i hi
    rw [Storage.view_bind] at hi
    split_ifs at hi
    exact hi

theorem Sound.mkdir (h : Sound started s) (g : Path) (f : Name) : Sound started (s.mkdir g f) := by
  have hupdate : ∀ x i, Function.update (s.view g) f (some .dir) x = some (.file i) → s.view g x = some (.file i) := by
    intro x i hx
    by_cases hxf : x = f
    · rw [hxf, Function.update_self] at hx
      cases hx
    · rwa [Function.update_of_ne hxf] at hx
  refine h.shrink ?_ ?_ fun _ _ _ _ _ _ _ hc => ⟨hc, rfl⟩
  · intro p v' hv'
    rcases Storage.mem_views_mkdir.mp hv' with ⟨rfl, rfl⟩ | ⟨-, ⟨rfl, rfl⟩ | hv⟩
    · exact ⟨_, s.view_mem_views _, fun _ _ hx => by cases hx⟩
    · exact ⟨_, s.view_mem_views p, hupdate⟩
    · exact ⟨v', hv, fun _ _ => id⟩
  · intro p x i hi
    rw [Storage.view_mkdir] at hi
    split_ifs at hi
    · cases hi
    · exact hi

theorem Sound.made (h : Sound started s) (hm : s.Made g s') : Sound started s' := by
  induction hm with
  | refl => exact h
  | mkdir s' p f _ _ _ _ ih => exact ih.mkdir p f

theorem Sound.flush (h : Sound started s) (g : Path) : Sound started (s.flush g) :=
  h.shrink (fun _ v' hv' => ⟨v', Storage.mem_views_of_flush hv', fun _ _ => id⟩) (fun _ _ _ => id)
    fun _ _ _ _ _ _ _ hc => ⟨hc, rfl⟩

theorem Sound.settle (h : Sound started s) (i : ℕ) : Sound started (s.settle i) := by
  refine h.shrink (fun _ v' hv' => ⟨v', hv', fun _ _ => id⟩) (fun _ _ _ => id) ?_
  intro _ _ _ j _ _ _ hc
  refine ⟨?_, rfl⟩
  show Function.update s.clean i true j = true
  by_cases hj : j = i
  · rw [hj, Function.update_self]
  · rw [Function.update_of_ne hj, hc]

/-- A temp file is written. -/
theorem Sound.put (h : Sound started s) (hf : IsTmp f) (hi : s.view g f = some (.file i)) (b : Bytes) :
    Sound started (s.put i b) := by
  refine h.shrink (fun _ v' hv' => ⟨v', hv', fun _ _ => id⟩) (fun _ _ _ => id) ?_
  intro p v x j hv hx hnot hc
  have hj := h.ne_of_isTmp hf hi hv hx hnot
  exact ⟨(Function.update_of_ne hj _ _).trans hc, Function.update_of_ne hj _ _⟩

/-- One more view of a directory, in which the inode `i` is bound once and every other as before. -/
theorem Sound.bound {w : DirView Name} (h : Sound started s) (hviews : ∀ p v, v ∈ s'.views p ↔ (p = g ∧ v = w) ∨ v ∈ s.views p)
    (hview : s'.view g = w) (hother : ∀ p, p ≠ g → s'.view p = s.view p)
    (hdata : s'.data = s.data) (hclean : s'.clean = s.clean) (hw : w f' = some (.file i))
    (hold : ∀ x j, x ≠ f' → w x = some (.file j) → j ≠ i ∧ s.view g x = some (.file j))
    (hapart : ∀ p v x, v ∈ s.views p → v x = some (.file i) → p = g)
    (htemp : IsTmp f' → ∀ v ∈ s.views g, ∀ x, v x = some (.file i) → IsTmp x)
    (hfinal : ¬IsTmp f' → s.clean i = true ∧ Genuine started (g ++ [f']) (s.data i)) : Sound started s' := by
  -- in the new view, an inode is `i` at `f'` or in its old place
  have hin : ∀ x j, w x = some (.file j) → (x = f' ∧ j = i) ∨ (j ≠ i ∧ s.view g x = some (.file j)) := by
    intro x j hx
    by_cases hxf : x = f'
    · subst hxf
      rw [hw, Option.some.injEq, Binding.file.injEq] at hx
      exact Or.inl ⟨rfl, hx.symm⟩
    · exact Or.inr (hold x j hxf hx)
  refine ⟨?_, ?_, ?_, ?_⟩
  · intro p p' v v' x x' j hv hv' hx hx'
    rcases (hviews p v).mp hv with ⟨rfl, rfl⟩ | hv
    · rcases (hviews p' v').mp hv' with ⟨rfl, -⟩ | hv'
      · rfl
      · rcases hin x j hx with ⟨-, rfl⟩ | ⟨-, hx⟩
        · exact (hapart _ _ _ hv' hx').symm
        · exact h.apart _ _ _ _ _ _ j (s.view_mem_views p) hv' hx hx'
    · rcases (hviews p' v').mp hv' with ⟨rfl, rfl⟩ | hv'
      · rcases hin x' j hx' with ⟨-, rfl⟩ | ⟨-, hx'⟩
        · exact hapart _ _ _ hv hx
        · exact h.apart _ _ _ _ _ _ j hv (s.view_mem_views p') hx hx'
      · exact h.apart _ _ _ _ _ _ j hv hv' hx hx'
  · intro p v x x' j hv hx hx'
    rcases (hviews p v).mp hv with ⟨rfl, rfl⟩ | hv
    · rcases hin x j hx with ⟨rfl, rfl⟩ | ⟨hne, hx⟩
      · rcases hin x' j hx' with ⟨rfl, -⟩ | ⟨hne, -⟩
        · rfl
        · exact absurd rfl hne
      · rcases hin x' j hx' with ⟨-, rfl⟩ | ⟨-, hx'⟩
        · exact absurd rfl hne
        · exact h.single p _ x x' j (s.view_mem_views p) hx hx'
    · exact h.single p v x x' j hv hx hx'
  · intro p x j hx hj v hv x' hx'
    by_cases hp : p = g
    · subst hp
      rw [hview] at hj
      rcases hin x j hj with ⟨rfl, rfl⟩ | ⟨hne, hwas⟩
      · rcases (hviews p v).mp hv with ⟨-, rfl⟩ | hv
        · rcases hin x' j hx' with ⟨rfl, -⟩ | ⟨hne, -⟩
          · exact hx
          · exact absurd rfl hne
        · exact htemp hx v hv x' hx'
      · rcases (hviews p v).mp hv with ⟨-, rfl⟩ | hv
        · rcases hin x' j hx' with ⟨-, rfl⟩ | ⟨-, hwas'⟩
          · exact absurd rfl hne
          · exact h.temp p x j hx hwas _ (s.view_mem_views p) x' hwas'
        · exact h.temp p x j hx hwas v hv x' hx'
    · rw [hother p hp] at hj
      rcases (hviews p v).mp hv with ⟨rfl, -⟩ | hv
      · exact absurd rfl hp
      · exact h.temp p x j hx hj v hv x' hx'
  · intro p v x j hv hx hnot
    rw [hdata, hclean]
    rcases (hviews p v).mp hv with ⟨rfl, rfl⟩ | hv
    · rcases hin x j hx with ⟨rfl, rfl⟩ | ⟨-, hx⟩
      · exact hfinal hnot
      · exact h.final p _ x j (s.view_mem_views p) hx hnot
    · exact h.final p v x j hv hx hnot

/-- A temp file is created. -/
theorem Sound.create (h : Sound started s) (hf : IsTmp f) (hi : s.Unused i) :
    Sound started (s.bind g f (some (.file i))) := by
  refine h.bound (fun p v => Storage.mem_views_bind) (Function.update_self ..)
    (fun p hp => Function.update_of_ne hp _ _) rfl rfl (Function.update_self ..) ?_ ?_ ?_ ?_
  · intro x j hx hj
    rw [Function.update_of_ne hx] at hj
    refine ⟨?_, hj⟩
    rintro rfl
    exact hi g _ (s.view_mem_views g) x hj
  · exact fun p v x hv hx => absurd hx (hi p v hv x)
  · exact fun _ v hv x hx => absurd hx (hi g v hv x)
  · exact fun hnot => absurd hf hnot

/-- A temp file that is whole is renamed. -/
theorem Sound.move (h : Sound started s) (hi : s.view g f = some (.file i)) (hc : s.clean i = true)
    (hgood : Genuine started (g ++ [f']) (s.data i)) (hf' : ¬IsTmp f') : Sound started (s.move g f g f' i) := by
  have hmove : s.move g f g f' i =
      s.setView g (Function.update (Function.update (s.view g) f none) f' (some (.file i))) := if_pos rfl
  rw [hmove]
  refine h.bound (fun p v => Storage.mem_views_setView) (Function.update_self ..)
    (fun p hp => Function.update_of_ne hp _ _) rfl rfl (Function.update_self ..) ?_ ?_ ?_ ?_
  · intro x j hx hj
    rw [Function.update_of_ne hx] at hj
    have hxf : x ≠ f := by
      rintro rfl
      rw [Function.update_self] at hj
      cases hj
    rw [Function.update_of_ne hxf] at hj
    refine ⟨?_, hj⟩
    rintro rfl
    exact hxf (h.single g _ x f j (s.view_mem_views g) hj hi)
  · exact fun p v x hv hx => h.apart _ _ _ _ _ _ i hv (s.view_mem_views g) hx hi
  · exact fun htmp => absurd htmp hf'
  · exact fun _ => ⟨hc, hgood⟩

end sound

/-! ### Changes of temp files -/

/-- What is under names other than those of temp files is as before. -/
structure Tidy (s s' : Storage Name Bytes) : Prop where
  views : ∀ g, ∀ v' ∈ s'.views g, ∃ v ∈ s.views g, ∀ f, ¬IsTmp f → v' f = v f
  view : ∀ g f, ¬IsTmp f → s'.view g f = s.view g f
  data : ∀ g v f i, v ∈ s.views g → v f = some (.file i) → ¬IsTmp f → s'.data i = s.data i

/-- The assertion survives changes of temp files and the making of the module directory. -/
structure Kept (A : Storage Name Bytes → Prop) : Prop where
  tidy : ∀ s s', Tidy s s' → A s → A s'
  mkdir : ∀ s, s.view [] udfName = none → A s → A (s.mkdir [] udfName)

section tidy
variable {started : List Snapshot} {s s' : Storage Name Bytes} {g : Path} {f : Name} {i : ℕ}

theorem Tidy.bind (s : Storage Name Bytes) (g : Path) (hf : IsTmp f) (b : Option Binding) :
    Tidy s (s.bind g f b) := by
  refine ⟨?_, ?_, fun _ _ _ _ _ _ _ => rfl⟩
  · intro p v' hv'
    rcases Storage.mem_views_bind.mp hv' with ⟨rfl, rfl⟩ | hv
    · refine ⟨_, s.view_mem_views p, fun x hx => Function.update_of_ne ?_ _ _⟩
      rintro rfl
      exact hx hf
    · exact ⟨v', hv, fun _ _ => rfl⟩
  · intro p x hx
    rw [Storage.view_bind, if_neg]
    rintro ⟨-, rfl⟩
    exact hx hf

theorem Tidy.put (h : Sound started s) (hf : IsTmp f) (hi : s.view g f = some (.file i)) (b : Bytes) :
    Tidy s (s.put i b) where
  views _ v hv := ⟨v, hv, fun _ _ => rfl⟩
  view _ _ _ := rfl
  data _ _ _ _ hv hx hnot := Function.update_of_ne (h.ne_of_isTmp hf hi hv hx hnot) _ _

theorem Tidy.settle (s : Storage Name Bytes) (i : ℕ) : Tidy s (s.settle i) where
  views _ v hv := ⟨v, hv, fun _ _ => rfl⟩
  view _ _ _ := rfl
  data _ _ _ _ _ _ _ := rfl

theorem Tidy.flush (s : Storage Name Bytes) (g : Path) : Tidy s (s.flush g) where
  views _ v hv := ⟨v, Storage.mem_views_of_flush hv, fun _ _ => rfl⟩
  view _ _ _ := rfl
  data _ _ _ _ _ _ _ := rfl

theorem Kept.and {A B : Storage Name Bytes → Prop} (hA : Kept A) (hB : Kept B) : Kept fun s => A s ∧ B s where
  tidy s s' ht h := ⟨hA.tidy s s' ht h.1, hB.tidy s s' ht h.2⟩
  mkdir s hs h := ⟨hA.mkdir s hs h.1, hB.mkdir s hs h.2⟩

/-- The root after the module directory has been made. -/
theorem mem_views_root_mkdir {v : DirView Name} (hv : v ∈ (s.mkdir [] udfName).views []) :
    v = Function.update (s.view []) udfName (some .dir) ∨ v ∈ s.views [] := by
  rcases Storage.mem_views_mkdir.mp hv with ⟨hnil, -⟩ | ⟨-, ⟨-, hv⟩ | hv⟩
  · cases hnil
  · exact Or.inl hv
  · exact Or.inr hv

theorem update_udf_config (v : DirView Name) (b : Option Binding) :
    Function.update v udfName b configName = v configName := Function.update_of_ne (by decide) _ _

theorem view_root_mkdir (s : Storage Name Bytes) : (s.mkdir [] udfName).view [] udfName = some .dir := by
  rw [Storage.view_mkdir, if_neg (by simp), if_pos ⟨rfl, rfl⟩]

theorem kept_calm : Kept Calm := by
  refine ⟨?_, ?_⟩
  · intro s s' ht h
    refine ⟨?_, ?_⟩
    · intro v' hv' i hi f hf
      obtain ⟨v, hv, hsame⟩ := ht.views [] v' hv'
      rw [hsame _ not_isTmp_config] at hi
      rw [ht.data [] v _ i hv hi not_isTmp_config] at hf
      obtain ⟨hdir, hall⟩ := h.backed v hv i hi f hf
      refine ⟨(hsame _ not_isTmp_udf).trans hdir, ?_⟩
      intro u' hu'
      obtain ⟨u, hu, hsame'⟩ := ht.views _ u' hu'
      obtain ⟨j, hj⟩ := hall u hu
      exact ⟨j, (hsame' f hf.not_isTmp).trans hj⟩
    · intro v' hv' hdir
      obtain ⟨v, hv, hsame⟩ := ht.views [] v' hv'
      rw [hsame _ not_isTmp_udf] at hdir
      exact (ht.view _ _ not_isTmp_udf).trans (h.udf v hv hdir)
  · intro s hnone h
    -- without the directory, no configuration that may be found refers to a module
    have hno : ∀ v ∈ s.views [], ∀ i, v configName = some (.file i) → ∀ f, ¬Refers (s.data i) f := by
      intro v hv i hi f hf
      have hdir := h.udf v hv (h.backed v hv i hi f hf).1
      rw [hnone] at hdir
      cases hdir
    refine ⟨?_, fun v _ _ => view_root_mkdir s⟩
    intro v hv i hi f hf
    rcases mem_views_root_mkdir hv with rfl | hv
    · rw [update_udf_config] at hi
      exact absurd hf (hno _ (s.view_mem_views []) i hi f)
    · exact absurd hf (hno v hv i hi f)

theorem kept_steady : Kept Steady := by
  refine ⟨?_, ?_⟩
  · intro s s' ht h
    refine ⟨?_, ?_⟩
    · intro u' hu' f i hf hi
      obtain ⟨u, hu, hsame⟩ := ht.views _ u' hu'
      rw [ht.view _ _ hf] at hi
      exact (hsame f hf).trans (h.modules u hu f i hf hi)
    · intro v' hv'
      obtain ⟨v, hv, hsame⟩ := ht.views _ v' hv'
      rw [hsame _ not_isTmp_config, ht.view _ _ not_isTmp_config, h.config v hv]
  · intro s hnone h
    refine ⟨?_, ?_⟩
    · intro u hu f i _ hi
      rw [Storage.view_mkdir, if_pos (by rfl)] at hi
      cases hi
    · intro v hv
      have hview : (s.mkdir [] udfName).view [] configName = s.view [] configName := by
        rw [Storage.view_mkdir, if_neg (by simp), if_neg]
        rintro ⟨-, heq⟩
        exact absurd heq (by decide)
      rw [hview]
      rcases mem_views_root_mkdir hv with rfl | hv
      · exact update_udf_config _ _
      · exact h.config v hv

theorem kept_pinned {sn : Snapshot} {P : Name → Prop} (hP : ∀ f, P f → ¬IsTmp f) : Kept (Pinned sn P) := by
  refine ⟨?_, ?_⟩
  · intro s s' ht h
    refine ⟨?_, fun f hf => (ht.view _ _ not_isTmp_udf).trans (h.udf f hf)⟩
    intro f hf b hb u' hu'
    obtain ⟨u, hu, hsame⟩ := ht.views _ u' hu'
    obtain ⟨j, hj, hdata⟩ := h.modules f hf b hb u hu
    exact ⟨j, (hsame f (hP f hf)).trans hj, (ht.data _ u f j hu hj (hP f hf)).trans hdata⟩
  · intro s hnone h
    -- nothing has been pinned yet
    have hno : ∀ f, ¬P f := by
      intro f hf
      have hdir := h.udf f hf
      rw [hnone] at hdir
      cases hdir
    exact ⟨fun f hf => absurd hf (hno f), fun f hf => absurd hf (hno f)⟩

theorem kept_configPinned {sn : Snapshot} : Kept (ConfigPinned sn) := by
  refine ⟨?_, ?_⟩
  · intro s s' ht h v' hv'
    obtain ⟨v, hv, hsame⟩ := ht.views _ v' hv'
    obtain ⟨i, hi, hdata⟩ := h v hv
    exact ⟨i, (hsame _ not_isTmp_config).trans hi, (ht.data _ v _ i hv hi not_isTmp_config).trans hdata⟩
  · intro s hnone h v hv
    rcases mem_views_root_mkdir hv with rfl | hv
    · rw [update_udf_config]
      exact h _ (s.view_mem_views [])
    · exact h v hv

end tidy

/-! ### Moving files into place -/

section moves
variable {sn : Snapshot} {P : Name → Prop} {s s' : Storage Name Bytes} {f f' : Name} {i : ℕ}

/-- A module is moved into place. -/
theorem Calm.move_module (h : Calm s) (hf : IsTmp f) : Calm (s.move [udfName] f [udfName] f' i) := by
  have hroot : ∀ v, v ∈ (s.move [udfName] f [udfName] f' i).views [] → v ∈ s.views [] := by
    intro v hv
    rcases Storage.mem_views_move.mp hv with ⟨hnil, -⟩ | hv
    · cases hnil
    · exact hv
  refine ⟨?_, ?_⟩
  · intro v hv j hj x hx
    rw [Storage.data_move] at hx
    obtain ⟨hdir, hall⟩ := h.backed v (hroot v hv) j hj x hx
    refine ⟨hdir, ?_⟩
    intro u hu
    rcases Storage.mem_views_move.mp hu with ⟨-, rfl⟩ | hu
    · by_cases hxf : x = f'
      · exact ⟨i, by rw [hxf, Function.update_self]⟩
      · have hne : x ≠ f := by
          rintro rfl
          exact hx.not_isTmp hf
        rw [Function.update_of_ne hxf, Function.update_of_ne hne]
        exact hall _ (s.view_mem_views _)
    · exact hall u hu
  · intro v hv hdir
    rw [Storage.view_move, if_neg (by simp), if_neg (by simp)]
    exact h.udf v (hroot v hv) hdir

/-- The new configuration is moved into place; its modules are there. -/
theorem Calm.move_config (h : Calm s) (hf : IsTmp f) (hnew : ∀ x, Refers (s.data i) x → s.view [] udfName = some .dir ∧
    ∀ u ∈ s.views [udfName], ∃ j, u x = some (.file j)) : Calm (s.move [] f [] configName i) := by
  have hudf : ∀ u, u ∈ (s.move [] f [] configName i).views [udfName] → u ∈ s.views [udfName] := by
    intro u hu
    rcases Storage.mem_views_move.mp hu with ⟨hnil, -⟩ | hu
    · cases hnil
    · exact hu
  have hne : udfName ≠ f := by
    rintro rfl
    exact not_isTmp_udf hf
  have hupdate : Function.update (Function.update (s.view []) f none) configName (some (.file i)) udfName =
      s.view [] udfName := by
    rw [Function.update_of_ne (by decide), Function.update_of_ne hne]
  have hview : (s.move [] f [] configName i).view [] udfName = s.view [] udfName := by
    rw [Storage.view_move, if_neg, if_neg fun h => hne h.2]
    rintro ⟨-, heq⟩
    exact absurd heq (by decide)
  refine ⟨?_, ?_⟩
  · intro v hv j hj x hx
    rw [Storage.data_move] at hx
    rcases Storage.mem_views_move.mp hv with ⟨-, rfl⟩ | hv
    · rw [Function.update_self, Option.some.injEq, Binding.file.injEq] at hj
      subst hj
      obtain ⟨hdir, hall⟩ := hnew x hx
      exact ⟨hupdate.trans hdir, fun u hu => hall u (hudf u hu)⟩
    · obtain ⟨hdir, hall⟩ := h.backed v hv j hj x hx
      exact ⟨hdir, fun u hu => hall u (hudf u hu)⟩
  · intro v hv hdir
    rw [hview]
    rcases Storage.mem_views_move.mp hv with ⟨-, rfl⟩ | hv
    · exact hupdate.symm.trans hdir
    · exact h.udf v hv hdir

theorem Steady.move_module (h : Steady s) (f f' : Name) (i : ℕ) :
    Steady ((s.move [udfName] f [udfName] f' i).flush [udfName]) := by
  refine ⟨?_, ?_⟩
  · intro u hu x j _ hx
    rw [Storage.views_flush, List.mem_singleton] at hu
    rw [hu]
    exact hx
  · intro v hv
    rw [Storage.views_flush_ne (by simp), Storage.views_move_ne (by simp)] at hv
    rw [h.config v hv]
    show _ = (s.move [udfName] f [udfName] f' i).view [] configName
    rw [Storage.view_move, if_neg (by simp), if_neg (by simp)]

theorem Steady.move_config (h : Steady s) (f : Name) (i : ℕ) : Steady ((s.move [] f [] configName i).flush []) := by
  refine ⟨?_, ?_⟩
  · intro u hu x j hnot hx
    rw [Storage.views_flush_ne (by simp), Storage.views_move_ne (by simp)] at hu
    have hx' : (s.move [] f [] configName i).view [udfName] x = some (.file j) := hx
    rw [Storage.view_move, if_neg (by simp), if_neg (by simp)] at hx'
    exact h.modules u hu x j hnot hx'
  · intro v hv
    rw [Storage.views_flush, List.mem_singleton] at hv
    rw [hv]
    rfl

theorem Pinned.move_module (h : Pinned sn P s) (hP : ∀ x, P x → ¬IsTmp x) (hf : IsTmp f)
    (hdir : s.view [] udfName = some .dir) (hb : (render sn).1.lookup (udfPath f') = some (s.data i)) :
    Pinned sn (fun x => P x ∨ x = f') ((s.move [udfName] f [udfName] f' i).flush [udfName]) := by
  refine ⟨?_, ?_⟩
  · intro x hx b hxb u hu
    rw [Storage.views_flush, List.mem_singleton] at hu
    subst hu
    show ∃ j, _ ∧ (s.move [udfName] f [udfName] f' i).data j = b
    rw [Storage.view_move, Storage.data_move]
    by_cases hxf : x = f'
    · subst hxf
      rw [if_pos ⟨rfl, rfl⟩]
      exact ⟨i, rfl, Option.some.inj (hb.symm.trans hxb)⟩
    · have hPx := hx.resolve_right hxf
      rw [if_neg fun h => hxf h.2, if_neg]
      · exact h.modules x hPx b hxb _ (s.view_mem_views _)
      · rintro ⟨-, rfl⟩
        exact hP x hPx hf
  · intro _ _
    show (s.move [udfName] f [udfName] f' i).view [] udfName = _
    rw [Storage.view_move, if_neg (by simp), if_neg (by simp), hdir]

theorem Pinned.move_config (h : Pinned sn P s) (hf : IsTmp f) :
    Pinned sn P ((s.move [] f [] configName i).flush []) := by
  refine ⟨?_, ?_⟩
  · intro x hx b hxb u hu
    rw [Storage.views_flush_ne (by simp), Storage.views_move_ne (by simp)] at hu
    show ∃ j, _ ∧ (s.move [] f [] configName i).data j = b
    rw [Storage.data_move]
    exact h.modules x hx b hxb u hu
  · intro x hx
    show (s.move [] f [] configName i).view [] udfName = _
    rw [Storage.view_move, if_neg, if_neg, h.udf x hx]
    · rintro ⟨-, rfl⟩
      exact not_isTmp_udf hf
    · rintro ⟨-, heq⟩
      exact absurd heq (by decide)

theorem ConfigPinned.move_config (hb : s.data i = configBytes sn) :
    ConfigPinned sn ((s.move [] f [] configName i).flush []) := by
  intro v hv
  rw [Storage.views_flush, List.mem_singleton] at hv
  subst hv
  show ∃ j, _ ∧ (s.move [] f [] configName i).data j = _
  rw [Storage.view_move, if_pos ⟨rfl, rfl⟩, Storage.data_move]
  exact ⟨i, rfl, hb⟩

/-! ### Finding files in place -/

/-- A module that is seen as rendered is found so. -/
theorem Pinned.unchanged (h : Pinned sn P s) (hs : Steady s) (hf : ¬IsTmp f) (hi : s.lookup [udfName, f] = some (.file i))
    (hb : (render sn).1.lookup (udfPath f) = some (s.data i)) : Pinned sn (fun x => P x ∨ x = f) s := by
  rw [Storage.lookup_pair] at hi
  split_ifs at hi with hdir
  refine ⟨?_, fun _ _ => hdir⟩
  intro x hx b hxb u hu
  rcases hx with hx | rfl
  · exact h.modules x hx b hxb u hu
  · exact ⟨i, hs.modules u hu x i hf hi, Option.some.inj (hb.symm.trans hxb)⟩

/-- A configuration that is seen as rendered is found so. -/
theorem Steady.configPinned (hs : Steady s) (hi : s.lookup [configName] = some (.file i))
    (hb : s.data i = configBytes sn) : ConfigPinned sn s := by
  rw [Storage.lookup_singleton] at hi
  exact fun v hv => ⟨i, (hs.config v hv).trans hi, hb⟩

/-! ### Removing modules -/

/-- A module to which no configuration refers that may be found is removed. -/
theorem Calm.unlink_module (h : Calm s)
    (hno : ∀ v ∈ s.views [], ∀ i, v configName = some (.file i) → ¬Refers (s.data i) f) :
    Calm (s.bind [udfName] f none) := by
  refine ⟨?_, ?_⟩
  · intro v hv j hj x hx
    rw [Storage.views_bind_ne (by simp)] at hv
    obtain ⟨hdir, hall⟩ := h.backed v hv j hj x hx
    refine ⟨hdir, ?_⟩
    intro u hu
    rcases Storage.mem_views_bind.mp hu with ⟨-, rfl⟩ | hu
    · have hne : x ≠ f := by
        rintro rfl
        exact hno v hv j hj hx
      rw [Function.update_of_ne hne]
      exact hall _ (s.view_mem_views _)
    · exact hall u hu
  · intro v hv hdir
    rw [Storage.views_bind_ne (by simp)] at hv
    rw [Storage.view_bind, if_neg (by simp)]
    exact h.udf v hv hdir

theorem Steady.unlink_module (h : Steady s) (f : Name) : Steady (s.bind [udfName] f none) := by
  refine ⟨?_, ?_⟩
  · intro u hu x j hnot hx
    rw [Storage.view_bind] at hx
    split_ifs at hx with hxf
    rcases Storage.mem_views_bind.mp hu with ⟨-, rfl⟩ | hu
    · rw [Function.update_of_ne fun heq => hxf ⟨rfl, heq⟩]
      exact hx
    · exact h.modules u hu x j hnot hx
  · intro v hv
    rw [Storage.views_bind_ne (by simp)] at hv
    rw [h.config v hv, Storage.view_bind, if_neg (by simp)]

theorem Pinned.unlink_module (h : Pinned sn P s) (hf : ¬P f) : Pinned sn P (s.bind [udfName] f none) := by
  refine ⟨?_, ?_⟩
  · intro x hx b hxb u hu
    rcases Storage.mem_views_bind.mp hu with ⟨-, rfl⟩ | hu
    · have hne : x ≠ f := by
        rintro rfl
        exact hf hx
      rw [Function.update_of_ne hne]
      exact h.modules x hx b hxb _ (s.view_mem_views _)
    · exact h.modules x hx b hxb u hu
  · intro x hx
    rw [Storage.view_bind, if_neg (by simp)]
    exact h.udf x hx

theorem ConfigPinned.unlink_module (h : ConfigPinned sn s) (f : Name) :
    ConfigPinned sn (s.bind [udfName] f none) := by
  intro v hv
  rw [Storage.views_bind_ne (by simp)] at hv
  exact h v hv

end moves

/-! ### Power failures -/

section failures
variable {started : List Snapshot} {sn : Snapshot} {s s' : Storage Name Bytes}

theorem mem_views_powerLoss (hp : s.PowerLoss s') {g : Path} {v : DirView Name} (hv : v ∈ s'.views g) :
    v = s'.view g ∧ v ∈ s.views g := by
  rw [Storage.views, hp.older, List.mem_singleton] at hv
  exact ⟨hv, hv ▸ hp.view g⟩

theorem Sound.powerLoss (h : Sound started s) (hp : s.PowerLoss s') : Sound started s' := by
  refine ⟨?_, ?_, ?_, ?_⟩
  · intro p p' v v' x x' j hv hv' hx hx'
    exact h.apart _ _ _ _ _ _ j (mem_views_powerLoss hp hv).2 (mem_views_powerLoss hp hv').2 hx hx'
  · intro p v x x' j hv hx hx'
    exact h.single p v x x' j (mem_views_powerLoss hp hv).2 hx hx'
  · intro p x j hx hj v hv x' hx'
    obtain ⟨rfl, hv⟩ := mem_views_powerLoss hp hv
    exact h.single p _ x x' j hv hj hx' ▸ hx
  · intro p v x j hv hx hnot
    obtain ⟨hclean, hgood⟩ := h.final p v x j (mem_views_powerLoss hp hv).2 hx hnot
    exact ⟨hp.clean j, (hp.data j hclean).symm ▸ hgood⟩

/-- The files in place have kept their content. -/
theorem Sound.data_powerLoss (h : Sound started s) (hp : s.PowerLoss s') {g : Path} {v : DirView Name} {f : Name} {i : ℕ}
    (hv : v ∈ s'.views g) (hi : v f = some (.file i)) (hf : ¬IsTmp f) : s'.data i = s.data i :=
  hp.data i (h.final g v f i (mem_views_powerLoss hp hv).2 hi hf).1

theorem Calm.powerLoss (h : Calm s) (hs : Sound started s) (hp : s.PowerLoss s') : Calm s' := by
  refine ⟨?_, ?_⟩
  · intro v hv i hi f hf
    rw [hs.data_powerLoss hp hv hi not_isTmp_config] at hf
    obtain ⟨hdir, hall⟩ := h.backed v (mem_views_powerLoss hp hv).2 i hi f hf
    exact ⟨hdir, fun u hu => hall u (mem_views_powerLoss hp hu).2⟩
  · intro v hv hdir
    obtain ⟨rfl, -⟩ := mem_views_powerLoss hp hv
    exact hdir

theorem Steady.powerLoss (hp : s.PowerLoss s') : Steady s' := by
  refine ⟨?_, ?_⟩
  · intro u hu f i _ hi
    obtain ⟨rfl, -⟩ := mem_views_powerLoss hp hu
    exact hi
  · intro v hv
    obtain ⟨rfl, -⟩ := mem_views_powerLoss hp hv
    rfl

theorem ConfigPinned.powerLoss (h : ConfigPinned sn s) (hs : Sound started s) (hp : s.PowerLoss s') :
    ConfigPinned sn s' := by
  intro v hv
  obtain ⟨i, hi, hb⟩ := h v (mem_views_powerLoss hp hv).2
  exact ⟨i, hi, (hs.data_powerLoss hp hv hi not_isTmp_config).trans hb⟩

/-- The modules the configuration refers to stay pinned with it. -/
theorem Pinned.powerLoss (h : Pinned sn (Refers (configBytes sn)) s) (hc : ConfigPinned sn s) (hcalm : Calm s)
    (hs : Sound started s) (hp : s.PowerLoss s') : Pinned sn (Refers (configBytes sn)) s' := by
  refine ⟨?_, ?_⟩
  · intro f hf b hb u hu
    obtain ⟨j, hj, hdata⟩ := h.modules f hf b hb u (mem_views_powerLoss hp hu).2
    exact ⟨j, hj, (hs.data_powerLoss hp hu hj hf.not_isTmp).trans hdata⟩
  · intro f hf
    obtain ⟨i, hi, hdata⟩ := hc _ (hp.view [])
    exact (hcalm.backed _ (hp.view []) i hi f (hdata.symm ▸ hf)).1

end failures

end McGateway.Operator
