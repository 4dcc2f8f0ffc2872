import McGateway.Kernel
import McGateway.Reconciler

/-! # `osFS` implements `FS`

The commits of the earlier modules run on a mount that is a map from paths to files, with the operations
of `FS`; what these may do when something fails was read off the code of `osFS`.  Here it is proved from
the calls that `osFS` makes: every execution of a method over the system of `Kernel` is a step of the
mount (`perform_simulates`), and so every commit over `osFS` is a commit of the earlier modules
(`osfs_commit_refines`). -/

open Bytes (ascii)
open UnixPath (isAbs)

namespace McGateway.Operator

def Binding.node (data : ℕ → Bytes) : Binding → Node
  | .dir => .dir
  | .file i => .file (data i)

/-- The mount as processes see it; no two names are bound to the same file. -/
structure Presents (s : Storage Name Bytes) (d : Disk) : Prop where
  node : ∀ p, d.node p = (s.lookup p).map (Binding.node s.data)
  separate : ∀ g f g' f' i, s.view g f = some (.file i) → s.view g' f' = some (.file i) → g = g' ∧ f = f'

section shows
variable {s s' : Storage Name Bytes} {d d' : Disk} {g p q : Path} {f : Name} {i : ℕ}

theorem Presents.dir_iff (h : Presents s d) : d.node p = some .dir ↔ s.lookup p = some .dir := by
  rw [h.node]
  cases s.lookup p with
  | none => simp
  | some b => cases b <;> simp [Binding.node]

theorem Presents.none_iff (h : Presents s d) : d.node p = none ↔ s.lookup p = none := by
  rw [h.node, Option.map_eq_none_iff]

theorem Presents.file (h : Presents s d) (hi : s.lookup p = some (.file i)) : d.node p = some (.file (s.data i)) := by
  rw [h.node, hi]
  rfl

theorem Presents.of_file {data : Bytes} (h : Presents s d) (hp : d.node p = some (.file data)) :
    ∃ i, s.lookup p = some (.file i) ∧ s.data i = data := by
  rw [h.node, Option.map_eq_some_iff] at hp
  obtain ⟨b, hb, heq⟩ := hp
  cases b with
  | dir => cases heq
  | file i => exact ⟨i, hb, Node.file.inj heq⟩

theorem Presents.tree (h : Presents s d) : d.Tree := by
  intro p f n hn
  rw [h.dir_iff]
  by_contra hnot
  rw [h.node, Storage.lookup_concat, if_neg hnot] at hn
  cases hn

/-- The regular files of a directory. -/
theorem Presents.mem_files {n : Bytes} (h : Presents s d) (hdir : s.lookup g = some .dir) :
    n ∈ d.files g ↔ ∃ f : Name, f.1 = n ∧ ∃ i, s.view g f = some (.file i) := by
  rw [Operator.mem_files]
  refine exists_congr fun f => and_congr_right fun _ => ?_
  rw [h.node, Storage.lookup_concat, if_pos hdir]
  constructor
  · rintro ⟨data, hdata⟩
    obtain ⟨b, hb, heq⟩ := Option.map_eq_some_iff.mp hdata
    cases b with
    | dir => cases heq
    | file i => exact ⟨i, hb⟩
  · rintro ⟨i, hi⟩
    exact ⟨_, by rw [hi]; rfl⟩

/-- A file gets a name, or other content. -/
theorem Presents.bound (h : Presents s d) (hdir : s.lookup g = some .dir) (hb : s.view g f ≠ some .dir)
    (hview : ∀ g' f', s'.view g' f' = if g' = g ∧ f' = f then some (.file i) else s.view g' f')
    (hi : ∀ g' f', s.view g' f' = some (.file i) → g' = g ∧ f' = f)
    (hdata : ∀ j, j ≠ i → s'.data j = s.data j) :
    Presents s' (d.insert (g ++ [f]) (.file (s'.data i))) := by
  have hother : ∀ g' f', (g' ≠ g ∨ f' ≠ f) → s'.view g' f' = s.view g' f' := by
    intro g' f' hne
    rw [hview, if_neg]
    rintro ⟨rfl, rfl⟩
    exact hne.elim (fun hn => hn rfl) fun hn => hn rfl
  have hself : s'.view g f = some (.file i) := by rw [hview, if_pos ⟨rfl, rfl⟩]
  have hb' : s'.view g f ≠ some .dir := by simp [hself]
  have hg : g ≠ g ++ [f] := by simp
  constructor
  · intro p
    by_cases hp : p = g ++ [f]
    · subst hp
      rw [Disk.node_insert_self (by simp), Storage.lookup_concat, Storage.lookup_of_ne hother hb hb' hg, if_pos hdir,
        hself]
      rfl
    · rw [Disk.node_insert_ne hp, h.node, Storage.lookup_of_ne hother hb hb' hp]
      cases hl : s.lookup p with
      | none => rfl
      | some b =>
          cases b with
          | dir => rfl
          | file j =>
              rw [Option.map_some, Option.map_some, Binding.node, Binding.node, hdata j]
              rintro rfl
              -- the file has no other path
              cases p using List.reverseRecOn with
              | nil => cases hl
              | append_singleton g' f' _ =>
                  rw [Storage.lookup_concat] at hl
                  split_ifs at hl
                  obtain ⟨rfl, rfl⟩ := hi g' f' hl
                  exact hp rfl
  · intro g₁ f₁ g₂ f₂ j h₁ h₂
    rw [hview] at h₁ h₂
    split_ifs at h₁ h₂ with hc₁ hc₂ hc₂
    · exact ⟨hc₁.1.trans hc₂.1.symm, hc₁.2.trans hc₂.2.symm⟩
    · obtain rfl : i = j := by simpa using h₁
      exact absurd (hi _ _ h₂) hc₂
    · obtain rfl : i = j := by simpa using h₂
      exact absurd (hi _ _ h₁) hc₁
    · exact h.separate _ _ _ _ j h₁ h₂

/-- A file loses its name. -/
theorem Presents.unbound (h : Presents s d) (hb : s.view g f ≠ some .dir)
    (hview : ∀ g' f', s'.view g' f' = if g' = g ∧ f' = f then none else s.view g' f')
    (hdata : s'.data = s.data) : Presents s' (d.erase (g ++ [f])) := by
  have hother : ∀ g' f', (g' ≠ g ∨ f' ≠ f) → s'.view g' f' = s.view g' f' := by
    intro g' f' hne
    rw [hview, if_neg]
    rintro ⟨rfl, rfl⟩
    exact hne.elim (fun hn => hn rfl) fun hn => hn rfl
  have hself : s'.view g f = none := by rw [hview, if_pos ⟨rfl, rfl⟩]
  have hb' : s'.view g f ≠ some .dir := by simp [hself]
  constructor
  · intro p
    by_cases hp : p = g ++ [f]
    · subst hp
      rw [Disk.node_erase_self (by simp), Storage.lookup_concat, hself]
      split_ifs <;> rfl
    · rw [Disk.node_erase_ne hp, h.node, Storage.lookup_of_ne hother hb hb' hp, hdata]
  · intro g₁ f₁ g₂ f₂ j h₁ h₂
    rw [hview] at h₁ h₂
    split_ifs at h₁ h₂
    exact h.separate _ _ _ _ j h₁ h₂

theorem Presents.mkdir (h : Presents s d) (hdir : s.lookup g = some .dir) (hnone : s.view g f = none) :
    Presents (s.mkdir g f) (d.insert (g ++ [f]) .dir) := by
  constructor
  · intro p
    rw [Storage.lookup_mkdir hdir hnone]
    by_cases hp : p = g ++ [f]
    · subst hp
      rw [Disk.node_insert_self (by simp), if_pos rfl]
      rfl
    · rw [Disk.node_insert_ne hp, if_neg hp, h.node]
      rfl
  · intro g₁ f₁ g₂ f₂ j h₁ h₂
    rw [Storage.view_mkdir] at h₁ h₂
    split_ifs at h₁ h₂
    · cases h₁
    · cases h₁
    · cases h₂
    · exact h.separate _ _ _ _ j h₁ h₂

theorem Presents.made (h : Presents s d) (hm : s.Made g s') : ∃ d', Presents s' d' := by
  induction hm with
  | refl => exact ⟨d, h⟩
  | mkdir s' p f _ hdir hnone _ ih =>
      obtain ⟨d', hd'⟩ := ih
      exact ⟨_, hd'.mkdir hdir hnone⟩

theorem Presents.made_node (h : Presents s d) (h' : Presents s' d') (hm : s.Made g s') (q : Path) :
    d'.node q = d.node q ∨ (d.node q = none ∧ d'.node q = some .dir ∧ q <+: g) := by
  rcases hm.lookup q with hsame | ⟨hnone, hdir, hq⟩
  · left
    rw [h.node, h'.node, hsame, hm.data_eq]
  · exact Or.inr ⟨h.none_iff.mpr hnone, h'.dir_iff.mpr hdir, hq⟩

/-- `os.MkdirAll` has made the directories of the mount. -/
theorem Presents.mkdirAll (h : Presents s d) (hm : s.Made g s') (hdir : s'.lookup g = some .dir) :
    ∃ d', d.mkdirAll g = some d' ∧ Presents s' d' := by
  have habove : ∀ q, q <+: g → s'.lookup q = some .dir := by
    intro q hq
    by_cases heq : q = g
    · rw [heq, hdir]
    · exact Storage.lookup_above (by rw [hdir]; exact Option.some_ne_none _) hq heq
  have hfree : ∀ q ∈ g.inits, ∀ data, d.node q ≠ some (.file data) := by
    intro q hq data hfile
    obtain ⟨i, hi, -⟩ := h.of_file hfile
    rcases hm.lookup q with hsame | ⟨hnone, -⟩
    · rw [habove q ((List.mem_inits q g).mp hq), hi] at hsame
      cases hsame
    · rw [hi] at hnone
      cases hnone
  obtain ⟨d', hd'⟩ : ∃ d', d.mkdirAll g = some d' := by
    unfold Disk.mkdirAll
    rw [if_neg]
    · exact ⟨_, rfl⟩
    · rw [List.any_eq_true]
      rintro ⟨q, hq, hfile⟩
      cases hn : d.node q with
      | none => simp [hn] at hfile
      | some n =>
          cases n with
          | dir => simp [hn] at hfile
          | file data => exact hfree q hq data hn
  refine ⟨d', hd', ?_, ?_⟩
  · intro q
    by_cases hq : q <+: g
    · rw [Disk.mkdirAll_dir hd' hq, habove q hq]
      rfl
    · have hold : d'.node q = d.node q := by
        rcases Disk.mkdirAll_node hd' q with hold | ⟨-, -, hq'⟩
        · exact hold
        · exact absurd hq' hq
      rcases hm.lookup q with hsame | ⟨-, -, hq'⟩
      · rw [hold, h.node, hsame, hm.data_eq]
      · exact absurd hq' hq
  · intro g₁ f₁ g₂ f₂ j h₁ h₂
    exact h.separate _ _ _ _ j (hm.file h₁) (hm.file h₂)

/-- A file that has been opened, with any content. -/
theorem Presents.opened {s₂ : Storage Name Bytes} (h : Presents s d) (hdir : s.lookup g = some .dir)
    (hopen : s.Opened g f i s₂) (hs' : s'.view = s₂.view) (hdata : ∀ j, j ≠ i → s'.data j = s₂.data j) :
    Presents s' (d.insert (g ++ [f]) (.file (s'.data i))) ∧ s.view g f ≠ some .dir := by
  cases hopen with
  | there hi =>
      have hb : s.view g f ≠ some .dir := by simp [hi]
      refine ⟨h.bound hdir hb ?_ (fun g' f' hi' => h.separate _ _ _ _ i hi' hi) hdata, hb⟩
      intro g' f'
      rw [hs']
      split_ifs with hc
      · rw [hc.1, hc.2, hi]
      · rfl
  | created hnone hunused =>
      have hb : s.view g f ≠ some .dir := by simp [hnone]
      refine ⟨h.bound hdir hb ?_ (fun g' f' hi' => ?_) hdata, hb⟩
      · intro g' f'
        rw [hs', Storage.view_bind]
      · exact absurd hi' (hunused g' _ List.mem_cons_self f')

theorem Presents.move {g' : Path} {f' : Name} (h : Presents s d) (hm : Renamed s g f g' f' s') :
    ∃ data, d.node (g ++ [f]) = some (.file data) ∧ d.node g' = some .dir ∧ d.node (g' ++ [f']) ≠ some .dir ∧
      Presents s' ((d.erase (g ++ [f])).insert (g' ++ [f']) (.file data)) := by
  obtain ⟨i, hi, hdir, hfile, rfl⟩ := hm
  have hview : s.view g f = some (.file i) := by
    have hi' := hi
    rw [Storage.lookup_concat] at hi'
    split_ifs at hi'
    exact hi'
  have hne : g' ≠ g ++ [f] := by
    rintro rfl
    rw [hi] at hdir
    cases hdir
  have hb : s.view g f ≠ some .dir := by simp [hview]
  refine ⟨s.data i, h.file hi, h.dir_iff.mpr hdir, mt h.dir_iff.mp hfile, ?_⟩
  -- first the old name goes, then the new one comes
  have hgone : Presents (s.bind g f none) (d.erase (g ++ [f])) :=
    h.unbound hb (fun _ _ => Storage.view_bind none) rfl
  have hother : ∀ p x, (p ≠ g ∨ x ≠ f) → (s.bind g f none).view p x = s.view p x := by
    intro p x hpx
    rw [Storage.view_bind, if_neg]
    rintro ⟨rfl, rfl⟩
    exact hpx.elim (fun hn => hn rfl) fun hn => hn rfl
  have hself : (s.bind g f none).view g f ≠ some .dir := by
    rw [Storage.view_bind, if_pos ⟨rfl, rfl⟩]
    simp
  have hdir' : (s.bind g f none).lookup g' = some .dir := by
    rw [Storage.lookup_of_ne hother hb hself hne, hdir]
  have hb' : (s.bind g f none).view g' f' ≠ some .dir := by
    rw [Storage.lookup_concat, if_pos hdir] at hfile
    rw [Storage.view_bind]
    split_ifs
    · simp
    · exact hfile
  have hview' : ∀ p x, (s.move g f g' f' i).view p x =
      if p = g' ∧ x = f' then some (.file i) else (s.bind g f none).view p x := by
    intro p x
    rw [Storage.view_move, Storage.view_bind]
  have hmoved := hgone.bound hdir' hb' hview' ?_ fun j _ => by rw [Storage.data_move]; rfl
  · rwa [Storage.data_move] at hmoved
  · intro p x hpx
    rw [Storage.view_bind] at hpx
    split_ifs at hpx with hc
    exact absurd (h.separate _ _ _ _ i hpx hview) hc

end shows

/-! ### The methods -/

section methods
variable {o : OsFS} {disturbed : Prop} {k k' : Kernel} {d : Disk}

theorem readFile_simulates (hroot : isAbs o.root = true) {name : Bytes} {a : Except FsError Bytes}
    (hk : Presents k.storage d) (h : (o.readFile name).Returns (KernelStep o disturbed) k a k') :
    MountStep True (.readFile name) d a d ∧ k'.storage = k.storage := by
  obtain ⟨hsame, hread⟩ := (readFile_spec hroot name k).returns h
  refine ⟨?_, hsame⟩
  cases a with
  | ok b =>
      obtain ⟨q, i, hq, hi, rfl⟩ := hread
      refine Or.inl ?_
      simp only [exec, readFile, hq, hk.file hi]
  | error e =>
      refine Or.inr ⟨trivial, ?_, .readFile name d e⟩
      cases e with
      | other => trivial
      | notExist =>
          obtain ⟨q, hq, hnone⟩ := hread
          simp only [Truthful, Disk.contents, hq, Option.bind_some, hk.none_iff.mpr hnone]

theorem readDir_simulates (hroot : isAbs o.root = true) {name : Bytes} {a : Except FsError (List Bytes)}
    (hk : Presents k.storage d) (h : (o.readDir name).Returns (KernelStep o disturbed) k a k') :
    MountStep True (.readDir name) d a d ∧ k'.storage = k.storage := by
  obtain ⟨hsame, hread⟩ := (readDir_spec hroot name k).returns h
  refine ⟨?_, hsame⟩
  cases a with
  | error e => exact Or.inr ⟨trivial, trivial, .readDir name d e⟩
  | ok names =>
      obtain ⟨q, hq, ⟨hdir, hsorted, hmem⟩ | ⟨rfl, hnone, hfile⟩⟩ := hread
      · refine Or.inl ?_
        have hnames : names = d.files q := by
          apply Bytes.eq_of_mem_iff_of_pairwise_lt id hsorted (files_pairwise_lt d q)
          intro n
          rw [hmem, hk.mem_files hdir]
        obtain ⟨l, hl⟩ : ∃ l, readDir name d = .ok l := by
          simp only [readDir, hq, hk.dir_iff.mpr hdir]
          exact ⟨_, rfl⟩
        rw [exec, hl, hnames, readDir_eq_files hk.tree hq hl]
      · refine Or.inl ?_
        have hmissing : d.missing q = .notExist := by
          unfold Disk.missing
          rw [if_neg]
          rw [List.any_eq_true]
          rintro ⟨p, hp, hmatch⟩
          cases hn : d.node p with
          | none => simp [hn] at hmatch
          | some n =>
              cases n with
              | dir => simp [hn] at hmatch
              | file data =>
                  obtain ⟨i, hi, -⟩ := hk.of_file hn
                  exact hfile p ((List.mem_inits p q).mp hp) i hi
        simp only [exec, readDir, hq, hk.none_iff.mpr hnone, hmissing]

theorem remove_simulates (hroot : isAbs o.root = true) {name : Bytes} {a : Except FsError Unit}
    (hk : Presents k.storage d) (h : (o.remove name).Returns (KernelStep o disturbed) k a k') :
    ∃ d', MountStep True (.remove name) d a d' ∧ Presents k'.storage d' := by
  rcases (remove_spec hroot name k).returns h with ⟨hsame, herr⟩ | ⟨g, f, i, hq, hi, hstorage⟩
  · cases a with
    | ok u => cases herr
    | error e => exact ⟨d, Or.inr ⟨trivial, trivial, .remove name d d e (Or.inl rfl)⟩, hsame ▸ hk⟩
  · have hexec : exec (.remove name) d = (.ok (), d.erase (g ++ [f])) := by
      simp only [exec, remove, hq, hk.file hi]
    refine ⟨d.erase (g ++ [f]), ?_, ?_⟩
    · cases a with
      | ok u => exact Or.inl hexec.symm
      | error e => exact Or.inr ⟨trivial, trivial, .remove name d _ e (Or.inr (by rw [hexec]))⟩
    · rw [hstorage]
      refine hk.unbound ?_ (fun _ _ => Storage.view_bind none) rfl
      rw [Storage.lookup_concat] at hi
      split_ifs at hi
      simp [hi]

/-- The mount with the directories made and the file in any state. -/
theorem Presents.writing {s' s₁ s₂ : Storage Name Bytes} {g : Path} {f : Name} {i : ℕ} (hk : Presents k.storage d)
    (hmade : k.storage.Made g s₁) (hdir : s₁.lookup g = some .dir) (hopen : s₁.Opened g f i s₂)
    (hview : s'.view = s₂.view) (hdata : ∀ j, j ≠ i → s'.data j = s₂.data j) :
    ∃ d', Presents s' d' ∧ ChangesAt d d' (g ++ [f]) ∧ ∃ part, d'.node (g ++ [f]) = some (.file part) := by
  obtain ⟨d₁, hd₁⟩ := hk.made hmade
  obtain ⟨hd', -⟩ := hd₁.opened hdir hopen hview hdata
  refine ⟨_, hd', ?_, _, Disk.node_insert_self (by simp)⟩
  intro q hq
  rw [Disk.node_insert_ne hq]
  exact (hk.made_node hd₁ hmade q).imp_right fun h => ⟨h.1, h.2.1, h.2.2.trans (List.prefix_append _ _)⟩

theorem writeFile_simulates (hroot : isAbs o.root = true) {name data : Bytes} {a : Except FsError Unit} {p : Path}
    (hp : resolve name = some p) (hentry : PlainEntry p) (hk : Presents k.storage d)
    (h : (o.writeFile name data).Returns (KernelStep o disturbed) k a k') :
    ∃ d', MountStep True (.writeFile name data) d a d' ∧ Presents k'.storage d' := by
  obtain ⟨g, f, -, rfl, -⟩ := hentry
  obtain ⟨hwritten, hok⟩ := (writeFile_spec hroot hp data k).returns h
  generalize k'.storage = s' at hwritten hok ⊢
  cases a with
  | ok u =>
      obtain ⟨s₁, s₂, i, hmade, hdir, hopen, hstorage⟩ := hok rfl
      obtain ⟨d₁, hmk, hd₁⟩ := hk.mkdirAll hmade hdir
      have hview : ((s₂.put i data).settle i).view = s₂.view := rfl
      obtain ⟨hd', hb⟩ := hd₁.opened hdir hopen hview fun j hj => Function.update_of_ne hj _ _
      have hself : ((s₂.put i data).settle i).data i = data := s₂.data_put i data
      have hnode : d₁.node (g ++ [f]) ≠ some .dir := by
        rw [ne_eq, hd₁.dir_iff, Storage.lookup_concat, if_pos hdir]
        exact hb
      have hexec : exec (.writeFile name data) d = (.ok (), d₁.insert (g ++ [f]) (.file data)) := by
        simp only [exec, writeFile, hp, List.dropLast_concat, hmk]
      rw [hself] at hd'
      exact ⟨_, Or.inl hexec.symm, hstorage ▸ hd'⟩
  | error e =>
      cases hwritten with
      | made _ hmade =>
          obtain ⟨d₁, hd₁⟩ := hk.made hmade
          have hchanges := hk.made_node hd₁ hmade
          refine ⟨d₁, Or.inr ⟨trivial, trivial, .writeFile name data d d₁ e _ hp ?_ (Or.inl ?_)⟩, hd₁⟩
          · exact fun q _ => (hchanges q).imp_right fun h => ⟨h.1, h.2.1, h.2.2.trans (List.prefix_append _ _)⟩
          · rcases hchanges (g ++ [f]) with hsame | ⟨-, -, habove⟩
            · exact hsame
            · have := habove.length_le
              rw [List.length_append, List.length_singleton] at this
              omega
      | torn s₁ s₂ i part hmade hdir hopen =>
          have hview : (s₂.put i part).view = s₂.view := rfl
          obtain ⟨d', hd', hchanges, hpart⟩ :=
            hk.writing hmade hdir hopen hview fun j hj => Function.update_of_ne hj _ _
          exact ⟨d', Or.inr ⟨trivial, trivial, .writeFile name data d d' e _ hp hchanges (Or.inr hpart)⟩, hd'⟩
      | whole s₁ s₂ i part hmade hdir hopen =>
          have hview : ((s₂.put i part).settle i).view = s₂.view := rfl
          obtain ⟨d', hd', hchanges, hpart⟩ :=
            hk.writing hmade hdir hopen hview fun j hj => Function.update_of_ne hj _ _
          exact ⟨d', Or.inr ⟨trivial, trivial, .writeFile name data d d' e _ hp hchanges (Or.inr hpart)⟩, hd'⟩

theorem rename_simulates (hroot : isAbs o.root = true) {oldname newname : Bytes} {a : Except FsError Unit} {p q : Path}
    (hp : resolve oldname = some p) (hentry : PlainEntry p) (hq : resolve newname = some q) (hentry' : PlainEntry q)
    (hk : Presents k.storage d) (h : (o.rename oldname newname).Returns (KernelStep o disturbed) k a k') :
    ∃ d', MountStep True (.rename oldname newname) d a d' ∧ Presents k'.storage d' := by
  obtain ⟨g, f, -, rfl, -⟩ := hentry
  obtain ⟨g', f', -, rfl, -⟩ := hentry'
  have hmoved : ∀ s₁, Renamed k.storage g f g' f' s₁ →
      ∃ d', exec (.rename oldname newname) d = (.ok (), d') ∧ Presents s₁ d' := by
    intro s₁ hs₁
    obtain ⟨data, hfile, hdir, hnot, hpres⟩ := hk.move hs₁
    refine ⟨_, ?_, hpres⟩
    simp only [exec, rename, hp, hq, renamePath, List.dropLast_concat, hfile, hdir]
  have hfailed : ∀ e d', (d' = d ∨ d' = (exec (.rename oldname newname) d).2) →
      MountStep True (.rename oldname newname) d (.error e) d' :=
    fun e d' hd' => Or.inr ⟨trivial, trivial, .rename oldname newname d d' e hd'⟩
  have hrenaming := (rename_spec hroot hp hq k).returns h
  generalize k'.storage = s' at hrenaming ⊢
  cases a with
  | ok u =>
      cases hrenaming with
      | synced s₁ _ hs₁ =>
          obtain ⟨d', hexec, hd'⟩ := hmoved s₁ hs₁
          exact ⟨d', Or.inl hexec.symm, hd'.node, hd'.separate⟩
  | error e =>
      cases hrenaming with
      | not => exact ⟨d, hfailed e d (Or.inl rfl), hk⟩
      | unsynced _ hs₁ _ =>
          obtain ⟨d', hexec, hd'⟩ := hmoved _ hs₁
          exact ⟨d', hfailed e d' (Or.inr (by rw [hexec])), hd'⟩
      | synced s₁ _ hs₁ =>
          obtain ⟨d', hexec, hd'⟩ := hmoved s₁ hs₁
          exact ⟨d', hfailed e d' (Or.inr (by rw [hexec])), hd'.node, hd'.separate⟩

/-- Every execution of a method of `osFS` is a step of the mount. -/
theorem perform_simulates (hroot : isAbs o.root = true) {op : FsOp} (hop : Placed op) {a : op.Answer}
    (hk : Presents k.storage d) (h : (o.perform op).Returns (KernelStep o disturbed) k a k') :
    ∃ d', TreeStep op d a d' ∧ Presents k'.storage d' := by
  have hstep : ∃ d', MountStep True op d a d' ∧ Presents k'.storage d' := by
    cases op with
    | readFile name =>
        obtain ⟨hstep, hsame⟩ := readFile_simulates hroot hk h
        exact ⟨d, hstep, hsame ▸ hk⟩
    | readDir name =>
        obtain ⟨hstep, hsame⟩ := readDir_simulates hroot hk h
        exact ⟨d, hstep, hsame ▸ hk⟩
    | remove name => exact remove_simulates hroot hk h
    | writeFile name data =>
        obtain ⟨p, hp, hentry⟩ := hop
        exact writeFile_simulates hroot hp hentry hk h
    | rename oldname newname =>
        obtain ⟨⟨p, hp, hentry⟩, q, hq, hentry'⟩ := hop
        exact rename_simulates hroot hp hentry hq hentry' hk h
  obtain ⟨d', hmount, hd'⟩ := hstep
  exact ⟨d', ⟨hmount, fun _ => hd'.tree⟩, hd'⟩

/-- The program the operator runs: a commit over `osFS`. -/
def OsFS.commit (o : OsFS) (desired : ByteMap Bytes) : Prog OS Outcome := (Operator.commit desired).implement o.perform

end methods

/-! ### What nothing hinders -/

section progress
variable {o : OsFS} {k : Kernel} {d : Disk} {name oldname newname data : Bytes} {g g' : Path} {f f' : Name} {q : Path}
  {i : ℕ}

theorem mem_of_mem_split {c : UInt8} : ∀ {b seg : Bytes}, seg ∈ Bytes.split 47 b → c ∈ seg → c ∈ b
  | [], seg, h, hc => by
      obtain rfl := List.mem_singleton.mp h
      cases hc
  | x :: b, seg, h, hc => by
      unfold Bytes.split at h
      split_ifs at h
      · cases List.mem_cons.mp h with
        | inl heq =>
            subst heq
            cases hc
        | inr h => exact List.mem_cons_of_mem _ (mem_of_mem_split h hc)
      · cases hb : Bytes.split 47 b with
        | nil => exact absurd hb (Bytes.split_ne_nil 47 b)
        | cons first segs =>
            rw [hb] at h
            have hsub : ∀ seg ∈ first :: segs, c ∈ seg → c ∈ b := fun seg hseg => mem_of_mem_split (hb ▸ hseg)
            cases List.mem_cons.mp h with
            | inl heq =>
                subst heq
                cases List.mem_cons.mp hc with
                | inl hx => exact hx ▸ List.mem_cons_self
                | inr hc => exact List.mem_cons_of_mem _ (hsub first List.mem_cons_self hc)
            | inr h => exact List.mem_cons_of_mem _ (hsub seg (List.mem_cons_of_mem _ h) hc)

theorem mem_of_mem_foldl_walkStep : ∀ {elems dirs : List Bytes} {dir : Bytes},
    dir ∈ elems.foldl UnixPath.walkStep dirs → dir ∈ dirs ∨ dir ∈ elems
  | [], _, _, h => Or.inl h
  | elem :: elems, dirs, dir, h => by
      rw [List.foldl_cons] at h
      rcases mem_of_mem_foldl_walkStep h with h | h
      · unfold UnixPath.walkStep at h
        split_ifs at h
        · exact Or.inl h
        · exact Or.inl (List.mem_of_mem_dropLast h)
        · rw [List.mem_append, List.mem_singleton] at h
          rcases h with h | rfl
          · exact Or.inl h
          · exact Or.inr List.mem_cons_self
      · exact Or.inr (List.mem_cons_of_mem _ h)

theorem nul_of_mem_location {path dir : Bytes} (h : dir ∈ UnixPath.location path) (h0 : 0 ∈ dir) : 0 ∈ path := by
  rcases mem_of_mem_foldl_walkStep h with h | h
  · cases h
  · exact mem_of_mem_split h h0

theorem nul_of_mem_print {dirs : List Bytes} (h : 0 ∈ UnixPath.print dirs) : ∃ dir ∈ dirs, 0 ∈ dir := by
  unfold UnixPath.print at h
  split_ifs at h
  · exact absurd h (by decide)
  · obtain ⟨dir, hdir, hin⟩ := List.mem_flatMap.mp h
    exact ⟨dir, hdir, (List.mem_cons.mp hin).resolve_left (by decide)⟩

/-- A name that resolves leads there. -/
theorem OsFS.leads (hroot : isAbs o.root = true) (hnul : 0 ∉ o.root) (hname : resolve name = some q) :
    ∃ path, o.abs name = .ok path ∧ o.Leads path q := by
  unfold Operator.resolve at hname
  split_ifs at hname with h0
  by_cases hnil : name = []
  · subst hnil
    obtain rfl := Option.some.inj hname
    exact ⟨o.root, rfl, ⟨hroot, by simp⟩, hnul⟩
  · have hname' := hname
    unfold Operator.abs at hname'
    rw [if_neg hnil] at hname'
    split_ifs at hname' with hslash
    have hsegs := map_of_mapM_ofBytes hname'
    have hup : ascii ".." ∉ Bytes.split 47 name := by
      intro hmem
      have hkept : ascii ".." ∈ q.map fun f => f.1 := by
        rw [hsegs, List.mem_filter]
        exact ⟨hmem, by decide⟩
      obtain ⟨f, -, hf⟩ := List.mem_map.mp hkept
      exact f.2.2.2.1 hf
    obtain ⟨path, hpath⟩ := o.abs_ok_iff.mpr ⟨by simpa [isAbs] using hslash, hup⟩
    obtain ⟨q', hq', haddr⟩ := abs_addresses hroot hpath
    obtain rfl := Option.some.inj (hq'.symm.trans hname)
    refine ⟨path, hpath, haddr, ?_⟩
    intro hin
    -- the path consists of the names of the root and of those of `q`
    obtain ⟨hjoin, -, -⟩ := abs_eq_join hnil hpath
    have habs : isAbs (o.root ++ 47 :: name) = true := UnixPath.isAbs_append hroot _
    have hprint : path = UnixPath.print (UnixPath.location path) := by
      rw [hjoin, UnixPath.join_pair (UnixPath.ne_nil_of_isAbs hroot), UnixPath.location_clean habs,
        UnixPath.clean_eq_print habs]
    rw [hprint] at hin
    obtain ⟨dir, hdir, hin'⟩ := nul_of_mem_print hin
    rw [haddr.location_eq, List.mem_append, hsegs] at hdir
    rcases hdir with hdir | hdir
    · exact hnul (nul_of_mem_location hdir hin')
    · exact h0 (mem_of_mem_split (List.mem_filter.mp hdir).1 hin')

theorem OsFS.Leads.dir (hroot : isAbs o.root = true) {path : Bytes} (hpath : o.abs name = .ok path)
    (h : o.Leads path (g ++ [f])) : o.Leads (UnixPath.dir path) g := by
  refine ⟨o.dir_leads hroot hpath h.addresses, ?_⟩
  have hne : name ≠ [] := by
    rintro rfl
    have hnil := h.resolve hroot hpath
    simp [Operator.resolve, Operator.abs] at hnil
  obtain ⟨hjoin, -, -⟩ := abs_eq_join hne hpath
  have habs : isAbs (o.root ++ 47 :: name) = true := UnixPath.isAbs_append hroot _
  have hdir : UnixPath.dir path = UnixPath.print (UnixPath.location path).dropLast := by
    rw [hjoin, UnixPath.join_pair (UnixPath.ne_nil_of_isAbs hroot), UnixPath.dir_clean habs,
      UnixPath.location_clean habs]
  rw [hdir]
  intro h0
  obtain ⟨dir, hmem, hin⟩ := nul_of_mem_print h0
  exact h.nul (nul_of_mem_location (List.mem_of_mem_dropLast hmem) hin)

/-! Every method can do what it is for, on the storage as it is; the table of open files is afterwards as
it was. -/

theorem readFile_can (hroot : isAbs o.root = true) (hnul : 0 ∉ o.root) (hname : resolve name = some q)
    (hi : k.storage.lookup q = some (.file i)) :
    (o.readFile name).Returns (KernelStep o False) k (.ok (k.storage.data i)) k := by
  obtain ⟨path, hpath, hleads⟩ := o.leads hroot hnul hname
  unfold OsFS.readFile
  rw [hpath]
  exact .call (.readFile k path q i hleads hi) (.ret _ _)

theorem readFile_misses (hroot : isAbs o.root = true) (hnul : 0 ∉ o.root) (hname : resolve name = some q)
    (hnone : k.storage.lookup q = none) (hfree : ∀ p, p <+: q → ∀ i, k.storage.lookup p ≠ some (.file i)) :
    (o.readFile name).Returns (KernelStep o False) k (.error .notExist) k := by
  obtain ⟨path, hpath, hleads⟩ := o.leads hroot hnul hname
  unfold OsFS.readFile
  rw [hpath]
  refine .call (.fails (.readFile path) k .notExist (fun _ => ?_) id) (.ret _ _)
  exact ⟨path, List.mem_singleton_self _, q, hleads, hnone, hfree⟩

theorem readFile_refused (name : Bytes) (k : Kernel) :
    (o.readFile name).Returns (KernelStep o False) k (.error .other) k := by
  unfold OsFS.readFile
  cases o.abs name with
  | error e => exact .ret _ _
  | ok path => exact .call (.fails (.readFile path) k .other (fun h => by cases h) id) (.ret _ _)

theorem readDir_refused (name : Bytes) (k : Kernel) :
    (o.readDir name).Returns (KernelStep o False) k (.error .other) k := by
  unfold OsFS.readDir
  cases o.abs name with
  | error e => exact .ret _ _
  | ok path => exact .call (.fails (.readDir path) k .other (fun h => by cases h) id) (.ret _ _)

theorem remove_refused (name : Bytes) (k : Kernel) :
    (o.remove name).Returns (KernelStep o False) k (.error .other) k := by
  unfold OsFS.remove
  cases o.abs name with
  | error e => exact .ret _ _
  | ok path => exact .call (.fails (.remove path) k .other (fun h => by cases h) id) (.ret _ _)

theorem remove_misses (hroot : isAbs o.root = true) (hnul : 0 ∉ o.root) (hname : resolve name = some q)
    (hnone : k.storage.lookup q = none) (hfree : ∀ p, p <+: q → ∀ i, k.storage.lookup p ≠ some (.file i)) :
    (o.remove name).Returns (KernelStep o False) k (.error .notExist) k := by
  obtain ⟨path, hpath, hleads⟩ := o.leads hroot hnul hname
  unfold OsFS.remove
  rw [hpath]
  refine .call (.fails (.remove path) k .notExist (fun _ => ?_) id) (.ret _ _)
  exact ⟨path, List.mem_singleton_self _, q, hleads, hnone, hfree⟩

theorem rename_refused (oldname newname : Bytes) (k : Kernel) :
    (o.rename oldname newname).Returns (KernelStep o False) k (.error .other) k := by
  unfold OsFS.rename
  cases o.abs oldname with
  | error e => exact .ret _ _
  | ok oldpath =>
      cases o.abs newname with
      | error e => exact .ret _ _
      | ok newpath => exact .call (.fails (.rename oldpath newpath) k .other (fun h => by cases h) id) (.ret _ _)

theorem rename_misses (hroot : isAbs o.root = true) (hnul : 0 ∉ o.root) {p : Path} (hold : resolve oldname = some p)
    (hnew : resolve newname = some q)
    (hmiss : ∃ r, (r = p ∨ r = q) ∧ k.storage.lookup r = none ∧
      ∀ r', r' <+: r → ∀ i, k.storage.lookup r' ≠ some (.file i)) :
    (o.rename oldname newname).Returns (KernelStep o False) k (.error .notExist) k := by
  obtain ⟨oldpath, holdpath, holdleads⟩ := o.leads hroot hnul hold
  obtain ⟨newpath, hnewpath, hnewleads⟩ := o.leads hroot hnul hnew
  unfold OsFS.rename
  rw [holdpath, hnewpath]
  refine .call (.fails (.rename oldpath newpath) k .notExist (fun _ => ?_) id) (.ret _ _)
  obtain ⟨r, hr, hnone, hfree⟩ := hmiss
  rcases hr with rfl | rfl
  · exact ⟨oldpath, List.mem_cons_self, r, holdleads, hnone, hfree⟩
  · exact ⟨newpath, List.mem_cons_of_mem _ List.mem_cons_self, r, hnewleads, hnone, hfree⟩

theorem remove_can (hroot : isAbs o.root = true) (hnul : 0 ∉ o.root) (hname : resolve name = some (g ++ [f]))
    (hi : k.storage.lookup (g ++ [f]) = some (.file i)) :
    (o.remove name).Returns (KernelStep o False) k (.ok ()) { k with storage := k.storage.bind g f none } := by
  obtain ⟨path, hpath, hleads⟩ := o.leads hroot hnul hname
  unfold OsFS.remove
  rw [hpath]
  exact .call (.remove k path g f i hleads hi) (.ret _ _)

theorem readDir_can (hroot : isAbs o.root = true) (hnul : 0 ∉ o.root) (hname : resolve name = some q)
    (hdir : k.storage.lookup q = some .dir) {entries : List DirEntry} (hentries : Lists (k.storage.view q) entries) :
    (o.readDir name).Returns (KernelStep o False) k
      (.ok ((entries.filter fun e => e.regular).map fun e => e.name)) k := by
  obtain ⟨path, hpath, hleads⟩ := o.leads hroot hnul hname
  unfold OsFS.readDir
  rw [hpath]
  exact .call (.readDir k path q entries hleads hdir hentries) (.ret _ _)

theorem readDir_misses (hroot : isAbs o.root = true) (hnul : 0 ∉ o.root) (hname : resolve name = some q)
    (hnone : k.storage.lookup q = none) (hfree : ∀ p, p <+: q → ∀ i, k.storage.lookup p ≠ some (.file i)) :
    (o.readDir name).Returns (KernelStep o False) k (.ok []) k := by
  obtain ⟨path, hpath, hleads⟩ := o.leads hroot hnul hname
  unfold OsFS.readDir
  rw [hpath]
  refine .call (.fails (.readDir path) k .notExist (fun _ => ?_) id) (.ret _ _)
  exact ⟨path, List.mem_singleton_self _, q, hleads, hnone, hfree⟩

theorem writeFile_can (hroot : isAbs o.root = true) (hnul : 0 ∉ o.root) (hname : resolve name = some (g ++ [f]))
    {fd : ℕ} (hfd : k.files fd = none) {s₁ s₂ : Storage Name Bytes} (hmade : k.storage.Made g s₁)
    (hdir : s₁.lookup g = some .dir) (hopen : s₁.Opened g f i s₂) (data : Bytes) :
    (o.writeFile name data).Returns (KernelStep o False) k (.ok ()) ⟨(s₂.put i data).settle i, k.files⟩ := by
  obtain ⟨path, hpath, hleads⟩ := o.leads hroot hnul hname
  have hparent := hleads.dir hroot hpath
  unfold OsFS.writeFile
  rw [hpath]
  have hput : (s₂.put i []).put i ((s₂.put i []).data i ++ data) = s₂.put i data := by
    rw [Storage.put_put, Storage.data_put, List.nil_append]
  have hheld : Function.update k.files fd (some (.file i)) fd = some (.file i) := Function.update_self ..
  have hclosed : Function.update (Function.update k.files fd (some (.file i))) fd none = k.files := by
    rw [Function.update_idem, ← hfd, Function.update_eq_self]
  have hclose : KernelStep o False (.close fd) ⟨(s₂.put i data).settle i, Function.update k.files fd (some (.file i))⟩
      (.ok ()) ⟨(s₂.put i data).settle i, k.files⟩ := by
    have hstep : KernelStep o False (.close fd) _ (.ok ()) _ :=
      .close ⟨(s₂.put i data).settle i, Function.update k.files fd (some (.file i))⟩ fd
    rwa [hclosed] at hstep
  refine .call (.mkdirAll k _ _ g s₁ hparent hmade hdir) ?_
  refine .call (.openFile _ path _ g f i fd s₂ hleads hdir hopen hfd) ?_
  refine .call (.write _ fd i data hheld) ?_
  refine .call (.syncFile _ fd i hheld) ?_
  rw [hput]
  exact .call hclose (.ret _ _)

theorem rename_can (hroot : isAbs o.root = true) (hnul : 0 ∉ o.root) (hold : resolve oldname = some (g ++ [f]))
    (hnew : resolve newname = some (g' ++ [f'])) {fd : ℕ} (hfd : k.files fd = none)
    (hi : k.storage.lookup (g ++ [f]) = some (.file i)) (hdir : k.storage.lookup g' = some .dir)
    (hfile : k.storage.lookup (g' ++ [f']) ≠ some .dir) :
    (o.rename oldname newname).Returns (KernelStep o False) k (.ok ())
      ⟨(k.storage.move g f g' f' i).flush g', k.files⟩ := by
  obtain ⟨oldpath, holdpath, holdleads⟩ := o.leads hroot hnul hold
  obtain ⟨newpath, hnewpath, hnewleads⟩ := o.leads hroot hnul hnew
  have hparent := hnewleads.dir hroot hnewpath
  unfold OsFS.rename
  rw [holdpath, hnewpath]
  have hview : k.storage.view g f ≠ some .dir := by
    rw [Storage.lookup_concat] at hi
    split_ifs at hi
    simp [hi]
  have hview' : k.storage.view g' f' ≠ some .dir := by
    rwa [Storage.lookup_concat, if_pos hdir] at hfile
  have hdir' : (k.storage.move g f g' f' i).lookup g' = some .dir := by
    refine Storage.lookup_dir (fun p x hpx => ?_) hdir
    rw [Storage.view_move, if_neg, if_neg, hpx]
    · rintro ⟨rfl, rfl⟩
      exact hview hpx
    · rintro ⟨rfl, rfl⟩
      exact hview' hpx
  have hheld : Function.update k.files fd (some (.dir g')) fd = some (.dir g') := Function.update_self ..
  have hclosed : Function.update (Function.update k.files fd (some (.dir g'))) fd none = k.files := by
    rw [Function.update_idem, ← hfd, Function.update_eq_self]
  have hclose : KernelStep o False (.close fd)
      ⟨(k.storage.move g f g' f' i).flush g', Function.update k.files fd (some (.dir g'))⟩
      (.ok ()) ⟨(k.storage.move g f g' f' i).flush g', k.files⟩ := by
    have hstep : KernelStep o False (.close fd) _ (.ok ()) _ :=
      .close ⟨(k.storage.move g f g' f' i).flush g', Function.update k.files fd (some (.dir g'))⟩ fd
    rwa [hclosed] at hstep
  refine .call (.rename k oldpath newpath g g' f f' i holdleads hnewleads hi hdir hfile) ?_
  refine .call (.open _ _ g' fd hparent hdir' hfd) ?_
  refine .call (.syncDir _ fd g' hheld) ?_
  exact .call hclose (.ret _ _)

/-- The system shows the mount, has inodes left and no files open. -/
structure Follows (k : Kernel) (d : Disk) : Prop where
  presents : Presents k.storage d
  inodes : ∃ n, ∀ i, n ≤ i → k.storage.Unused i
  files : ∀ h, k.files h = none

theorem Presents.free_above (h : Presents k.storage d) (hm : d.missing q = .notExist) :
    ∀ p, p <+: q → ∀ i, k.storage.lookup p ≠ some (.file i) := by
  intro p hp i hi
  unfold Disk.missing at hm
  split_ifs at hm with hany
  rw [List.any_eq_true] at hany
  exact hany ⟨p, (List.mem_inits p q).mpr hp, by rw [h.file hi]⟩

/-- The listing of a directory of the mount. -/
theorem Presents.lists (h : Presents k.storage d) (hdir : k.storage.lookup q = some .dir) :
    ∃ entries, Lists (k.storage.view q) entries ∧
      (entries.filter fun e => e.regular).map (fun e => e.name) = d.files q := by
  let entry : Name × Node → DirEntry := fun e => ⟨e.1.1, e.2 ≠ .dir⟩
  have hchild : ∀ (f : Name) (n : Node), (f, n) ∈ d.children q ↔
      ∃ b, k.storage.view q f = some b ∧ Binding.node k.storage.data b = n := by
    intro f n
    have hlookup : d.lookup (q ++ [f]) = d.node (q ++ [f]) := by simp [Disk.node]
    rw [mem_children, hlookup, h.node, Storage.lookup_concat, if_pos hdir, Option.map_eq_some_iff]
  have hregular : ∀ b : Binding, (Binding.node k.storage.data b ≠ .dir) ↔ b ≠ .dir := by
    intro b
    cases b <;> simp [Binding.node]
  have hnames : ((d.children q).map fun e => e.1.1).Nodup := by
    apply List.Nodup.map_on _ (children_nodup d q)
    rintro ⟨f, n⟩ he ⟨f', n'⟩ he' hff
    obtain rfl : f = f' := Subtype.ext hff
    obtain ⟨b, hb, rfl⟩ := (hchild f n).mp he
    obtain ⟨b', hb', rfl⟩ := (hchild f n').mp he'
    rw [Option.some.inj (hb.symm.trans hb')]
  have hlists : Lists (k.storage.view q)
      ((Bytes.sortBy (fun e : Name × Node => e.1.1) (d.children q)).map entry) := by
    constructor
    · rw [List.map_map]
      exact List.pairwise_map.mpr (Bytes.sortBy_pairwise_lt _ hnames)
    · intro e
      rw [List.mem_map]
      constructor
      · rintro ⟨⟨f, n⟩, he, rfl⟩
        obtain ⟨b, hb, rfl⟩ := (hchild f n).mp ((Bytes.mem_sortBy _).mp he)
        exact ⟨f, b, hb, by simp only [entry, hregular b]⟩
      · rintro ⟨f, b, hb, rfl⟩
        refine ⟨(f, Binding.node k.storage.data b), (Bytes.mem_sortBy _).mpr ((hchild _ _).mpr ⟨b, hb, rfl⟩), ?_⟩
        simp only [entry, hregular b]
  refine ⟨_, hlists, ?_⟩
  obtain ⟨hsorted, hmem⟩ := hlists.regular
  apply Bytes.eq_of_mem_iff_of_pairwise_lt id hsorted (files_pairwise_lt d q)
  intro n
  rw [hmem, h.mem_files hdir]

section follows
variable {op : FsOp}

theorem follows_readFile (hroot : isAbs o.root = true) (hnul : 0 ∉ o.root) (hk : Follows k d) :
    (o.readFile name).Returns (KernelStep o False) k (readFile name d) k := by
  unfold Operator.readFile
  cases hname : resolve name with
  | none => exact readFile_refused name k
  | some q =>
      simp only
      cases hn : d.node q with
      | none =>
          simp only
          cases hm : d.missing q with
          | other => exact readFile_refused name k
          | notExist =>
              exact readFile_misses hroot hnul hname (hk.presents.none_iff.mp hn) (hk.presents.free_above hm)
      | some n =>
          cases n with
          | dir => exact readFile_refused name k
          | file b =>
              obtain ⟨i, hi, rfl⟩ := hk.presents.of_file hn
              exact readFile_can hroot hnul hname hi

theorem follows_readDir (hroot : isAbs o.root = true) (hnul : 0 ∉ o.root) (hk : Follows k d) :
    (o.readDir name).Returns (KernelStep o False) k (readDir name d) k := by
  cases hname : resolve name with
  | none =>
      simp only [Operator.readDir, hname]
      exact readDir_refused name k
  | some q =>
      cases hn : d.node q with
      | none =>
          simp only [Operator.readDir, hname, hn]
          cases hm : d.missing q with
          | other => exact readDir_refused name k
          | notExist =>
              exact readDir_misses hroot hnul hname (hk.presents.none_iff.mp hn) (hk.presents.free_above hm)
      | some n =>
          cases n with
          | file b =>
              simp only [Operator.readDir, hname, hn]
              exact readDir_refused name k
          | dir =>
              have hdir := hk.presents.dir_iff.mp hn
              obtain ⟨entries, hentries, hfiles⟩ := hk.presents.lists hdir
              have hrun := readDir_can hroot hnul hname hdir hentries
              obtain ⟨hstep, -⟩ := readDir_simulates hroot hk.presents hrun
              have hexec : Operator.readDir name d = .ok _ := (congrArg Prod.fst (hstep.eq_exec rfl)).symm
              rw [hexec]
              exact hrun

/-- What a method has done, if it reports success, is what the mount would have done. -/
theorem Follows.of_ok (hroot : isAbs o.root = true) (hop : Placed op) (hk : Follows k d) {a : op.Answer}
    {s' : Storage Name Bytes} (h : (o.perform op).Returns (KernelStep o False) k a ⟨s', k.files⟩)
    (ha : Succeeded op a = true) (hinodes : ∃ n, ∀ i, n ≤ i → s'.Unused i) :
    ∃ k', (o.perform op).Returns (KernelStep o False) k (exec op d).1 k' ∧ Follows k' (exec op d).2 := by
  obtain ⟨d', ⟨hstep, -⟩, hpres⟩ := perform_simulates hroot hop hk.presents h
  obtain ⟨rfl, rfl⟩ := Prod.mk.inj (hstep.eq_exec ha)
  exact ⟨_, h, hpres, hinodes, hk.files⟩

theorem follows_remove (hroot : isAbs o.root = true) (hnul : 0 ∉ o.root) (hk : Follows k d)
    (hdir : ∀ p, d.node p = some .dir → Disk.node (remove name d).2 p = some .dir) :
    ∃ k', (o.remove name).Returns (KernelStep o False) k (remove name d).1 k' ∧ Follows k' (remove name d).2 := by
  cases hname : resolve name with
  | none =>
      simp only [Operator.remove, hname]
      exact ⟨k, remove_refused name k, hk⟩
  | some p =>
      cases hn : d.node p with
      | none =>
          simp only [Operator.remove, hname, hn]
          refine ⟨k, ?_, hk⟩
          cases hm : d.missing p with
          | other => exact remove_refused name k
          | notExist =>
              exact remove_misses hroot hnul hname (hk.presents.none_iff.mp hn) (hk.presents.free_above hm)
      | some n =>
          cases n with
          | dir =>
              have hkept := hdir p hn
              simp only [Operator.remove, hname, hn] at hkept ⊢
              split_ifs at hkept ⊢ with hempty
              · rw [Disk.node_erase_self hempty.1] at hkept
                cases hkept
              · exact ⟨k, remove_refused name k, hk⟩
          | file b =>
              obtain ⟨i, hi, -⟩ := hk.presents.of_file hn
              cases p using List.reverseRecOn with
              | nil => cases hi
              | append_singleton g f _ =>
                  obtain ⟨m, hm⟩ := hk.inodes
                  have hplaced : Placed (.remove name) := trivial
                  exact hk.of_ok hroot hplaced (remove_can hroot hnul hname hi) rfl
                    ⟨m, fun j hj => (hm j hj).bind (by simp)⟩

theorem follows_writeFile (hroot : isAbs o.root = true) (hnul : 0 ∉ o.root) (hd : Plain d) (hk : Follows k d) {p : Path}
    (hname : resolve name = some p) (hentry : PlainEntry p) (data : Bytes) :
    ∃ k', (o.writeFile name data).Returns (KernelStep o False) k (writeFile name data d).1 k' ∧
      Follows k' (writeFile name data d).2 := by
  have hplaced : Placed (.writeFile name data) := ⟨p, hname, hentry⟩
  have hnot := hd.not_dir hentry
  obtain ⟨g, f, hg, rfl, -⟩ := hentry
  obtain ⟨n, hn⟩ := hk.inodes
  -- the directory is there, or it is made
  obtain ⟨s₁, hmade, hdir⟩ : ∃ s₁, k.storage.Made g s₁ ∧ s₁.lookup g = some .dir := by
    cases hl : k.storage.lookup g with
    | some b =>
        cases b with
        | dir => exact ⟨_, .refl, hl⟩
        | file i => exact absurd (hk.presents.file hl) (hd.not_file hg)
    | none =>
        rcases hg with rfl | rfl
        · cases hl
        · rw [Storage.lookup_singleton] at hl
          refine ⟨_, .mkdir _ [] udfName .refl rfl hl (List.prefix_refl _), ?_⟩
          rw [Storage.lookup_mkdir rfl hl]
          exact if_pos rfl
  have hopened : ∃ i s₂, s₁.Opened g f i s₂ ∧ ∀ j, n + 1 ≤ j → s₂.Unused j := by
    cases hv : s₁.view g f with
    | none =>
        refine ⟨n, _, .created hv ((hn n le_rfl).made hmade), ?_⟩
        intro j hj
        refine ((hn j (by omega)).made hmade).bind ?_
        simp
        omega
    | some b =>
        cases b with
        | dir =>
            exfalso
            have hl : s₁.lookup (g ++ [f]) = some .dir := by rw [Storage.lookup_concat, if_pos hdir, hv]
            rcases hmade.lookup (g ++ [f]) with hsame | ⟨-, -, habove⟩
            · exact hnot (hk.presents.dir_iff.mpr (hsame.symm.trans hl))
            · have hlen := habove.length_le
              rw [List.length_append, List.length_singleton] at hlen
              omega
        | file i => exact ⟨i, _, .there hv, fun j hj => (hn j (by omega)).made hmade⟩
  obtain ⟨i, s₂, hopen, hunused⟩ := hopened
  exact hk.of_ok hroot hplaced (writeFile_can hroot hnul hname (hk.files 0) hmade hdir hopen data) rfl ⟨n + 1, hunused⟩

theorem follows_rename (hroot : isAbs o.root = true) (hnul : 0 ∉ o.root) (hd : Plain d) (hk : Follows k d)
    (hop : Placed (.rename oldname newname)) :
    ∃ k', (o.rename oldname newname).Returns (KernelStep o False) k (rename oldname newname d).1 k' ∧
      Follows k' (rename oldname newname d).2 := by
  obtain ⟨⟨p, hp, hpe⟩, q, hq, hqe⟩ := id hop
  have hnot := hd.not_dir hpe
  have hnot' := hd.not_dir hqe
  obtain ⟨g, f, -, rfl, -⟩ := hpe
  obtain ⟨g', f', hg', rfl, -⟩ := hqe
  cases hn : d.node (g ++ [f]) with
  | none =>
      simp only [Operator.rename, hp, hq, renamePath, hn]
      refine ⟨k, ?_, hk⟩
      cases hm : d.missing (g ++ [f]) with
      | other => exact rename_refused oldname newname k
      | notExist =>
          exact rename_misses hroot hnul hp hq
            ⟨_, Or.inl rfl, hk.presents.none_iff.mp hn, hk.presents.free_above hm⟩
  | some n =>
      cases n with
      | dir => exact absurd hn hnot
      | file b =>
          obtain ⟨i, hi, -⟩ := hk.presents.of_file hn
          cases hn' : d.node g' with
          | none =>
              simp only [Operator.rename, hp, hq, renamePath, hn, List.dropLast_concat, hn']
              refine ⟨k, ?_, hk⟩
              cases hm : d.missing g' with
              | other => exact rename_refused oldname newname k
              | notExist =>
                  have hnone : k.storage.lookup (g' ++ [f']) = none := by
                    rw [Storage.lookup_concat, hk.presents.none_iff.mp hn', if_neg (by simp)]
                  refine rename_misses hroot hnul hp hq ⟨_, Or.inr rfl, hnone, ?_⟩
                  intro r hr j hj
                  rcases List.prefix_concat_iff.mp hr with rfl | hr
                  · rw [hnone] at hj
                    cases hj
                  · exact hk.presents.free_above hm r hr j hj
          | some m =>
              cases m with
              | file c => exact absurd hn' (hd.not_file hg')
              | dir =>
                  obtain ⟨n, hunused⟩ := hk.inodes
                  have hrun := rename_can hroot hnul hp hq (hk.files 0) hi (hk.presents.dir_iff.mp hn')
                    (mt hk.presents.dir_iff.mpr hnot')
                  refine hk.of_ok hroot hop hrun rfl ⟨n, fun j hj => ((hunused j hj).move ?_).flush⟩
                  rintro rfl
                  rw [Storage.lookup_concat] at hi
                  split_ifs at hi
                  exact hunused i hj g _ (k.storage.view_mem_views g) f hi

/-- The methods can do everything that the operations of a plain mount do when nothing fails and no
directory is removed. -/
theorem perform_follows (hroot : isAbs o.root = true) (hnul : 0 ∉ o.root) (hop : Placed op) (hd : Plain d)
    (hk : Follows k d) (hdirs : ∀ p, d.node p = some .dir → Disk.node (exec op d).2 p = some .dir) :
    ∃ k', (o.perform op).Returns (KernelStep o False) k (exec op d).1 k' ∧ Follows k' (exec op d).2 := by
  cases op with
  | readFile name => exact ⟨k, follows_readFile hroot hnul hk, hk⟩
  | readDir name => exact ⟨k, follows_readDir hroot hnul hk, hk⟩
  | remove name => exact follows_remove hroot hnul hk hdirs
  | writeFile name data =>
      obtain ⟨p, hp, hentry⟩ := hop
      exact follows_writeFile hroot hnul hd hk hp hentry data
  | rename oldname newname => exact follows_rename hroot hnul hd hk hop

theorem CommitStep.dir_kept {desired : ByteMap Bytes} {d' : Disk} (hd : Plain d) (h : CommitStep desired op d d')
    {p : Path} (hp : d.node p = some .dir) : d'.node p = some .dir := by
  rcases hd.dirs p hp with rfl | rfl
  · rfl
  · have htemp : ¬Temp [udfName] := by
      rintro ⟨f, hf, hs⟩
      obtain rfl : udfName = f := by simpa using hf
      exact absurd hs (by decide)
    have hkept : ∀ {t : Disk}, Untouched d t [udfName] → t.node [udfName] = some .dir := by
      intro t ht
      rcases ht with hsame | ⟨-, -, hdir⟩
      · rw [hsame, hp]
      · exact hdir
    cases h with
    | temp _ _ _ frame => exact hkept (frame _ htemp)
    | module _ _ _ f data _ _ frame => exact hkept (frame _ (by simp) htemp)
    | config _ _ _ data _ _ _ frame => exact hkept (frame _ (by decide) htemp)
    | stale _ _ f _ _ _ _ _ frame => rw [frame _ (by simp), hp]

/-- The system can carry out a commit that nothing hinders. -/
theorem commit_follows (hroot : isAbs o.root = true) (hnul : 0 ∉ o.root) (sn : Snapshot) (hd : Plain d)
    (hk : Follows k d) : ∃ k', (o.commit (render sn).1).Returns (KernelStep o False) k
      ((commit (render sn).1).run exec d).1 k' ∧ Follows k' ((commit (render sn).1).run exec d).2 := by
  have hrun : ∀ (p : Prog FS Outcome) (k : Kernel) (d : Disk) (Q : Outcome → Disk → Prop), p.CallsOnly Placed →
      p.Guarantees TreeStep (fun op d d' => CommitStep (render sn).1 op d d' ∧ (Plain d → Plain d')) Q d → Plain d →
      Follows k d → ∃ k', (p.implement o.perform).Returns (KernelStep o False) k (p.run exec d).1 k' ∧
        Follows k' (p.run exec d).2 := by
    intro p
    induction p with
    | ret a => exact fun k d _ _ _ _ hk => ⟨k, .ret _ _, hk⟩
    | call op cont ih =>
        intro k d Q hp hg hd hk
        obtain ⟨⟨hstep, hplain⟩, hrest⟩ := hg _ _ ⟨MountStep.exec True op d, fun _ => (hd.exec hp.1).tree⟩
        obtain ⟨k₁, hop, hk₁⟩ := perform_follows hroot hnul hp.1 hd hk fun p hp => hstep.dir_kept hd hp
        obtain ⟨k', hcont, hk'⟩ := ih _ k₁ _ Q (hp.2 _) hrest (hplain hd) hk₁
        exact ⟨k', hop.bind hcont, hk'⟩
  exact hrun _ k d _ (commit_placed (flatTree_render sn)) (commit_pass sn hd.tree) hd hk

end follows

/-- A system without any file. -/
def Kernel.empty : Kernel := ⟨⟨fun _ _ => none, fun _ => [], fun _ => [], fun _ => true⟩, fun _ => none⟩

theorem follows_empty : Follows Kernel.empty ∅ := by
  have hlookup : ∀ p : Path, p ≠ [] → Kernel.empty.storage.lookup p = none := by
    intro p hp
    cases p using List.reverseRecOn with
    | nil => exact absurd rfl hp
    | append_singleton g f _ =>
        rw [Storage.lookup_concat]
        split_ifs <;> rfl
  refine ⟨⟨?_, ?_⟩, ⟨0, ?_⟩, fun _ => rfl⟩
  · intro p
    by_cases hp : p = []
    · subst hp
      rfl
    · rw [hlookup p hp]
      simp [Disk.node, hp]
  · intro g f g' f' i hi
    cases hi
  · intro i _ g v hv f
    obtain rfl := List.mem_singleton.mp hv
    intro hi
    cases hi

end progress

/-! ### The result -/

/-- A commit over `osFS`, whatever calls to the system fail and wherever they are cut short, does what a
commit of the mount does, with the same outcome; if it returns no error, the mount has converged. -/
theorem osfs_commit_refines {o : OsFS} {disturbed : Prop} {k k' : Kernel} {d : Disk} (hroot : isAbs o.root = true)
    (sn : Snapshot) (out : Outcome)
    (hk : Presents k.storage d) (h : (o.commit (render sn).1).Returns (KernelStep o disturbed) k out k') :
    ∃ d', Presents k'.storage d' ∧ (commit (render sn).1).Returns TreeStep d out d' ∧
      (out.2 = none → Converged (render sn).1 d' d') := by
  have hsim : ∀ op, Placed op → ∀ (k : Kernel) (d : Disk) a k', Presents k.storage d →
      (o.perform op).Returns (KernelStep o disturbed) k a k' → ∃ d', TreeStep op d a d' ∧ Presents k'.storage d' :=
    fun op hop k d a k' hk h => perform_simulates hroot hop hk h
  obtain ⟨d', hreturns, hd'⟩ := Prog.Returns.of_implement hsim (commit_placed (flatTree_render sn)) h hk
  exact ⟨d', hd', hreturns, (commit_pass sn hk.tree).returns hreturns⟩

/-- The mount root of the chart. -/
def chartRoot : OsFS := ⟨ascii "/var/run/mcgateway"⟩

theorem osfs_commit_refines_contested :
    ∃ k' d', Presents k'.storage d' ∧
      ((chartRoot.commit (render contestedSnapshot).1).Returns (KernelStep chartRoot False) Kernel.empty
        ((commit (render contestedSnapshot).1).run exec ∅).1 k') ∧
      Converged (render contestedSnapshot).1 d' d' := by
  have hroot : isAbs chartRoot.root = true := by decide
  obtain ⟨k', hrun, -⟩ := commit_follows hroot (by decide) contestedSnapshot plain_empty follows_empty
  obtain ⟨d', hd', -, hconv⟩ := osfs_commit_refines hroot contestedSnapshot _ follows_empty.presents hrun
  refine ⟨k', d', hd', hrun, hconv ?_⟩
  decide +kernel

end McGateway.Operator
