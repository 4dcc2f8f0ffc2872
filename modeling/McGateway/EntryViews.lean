import McGateway.Outcomes

/-! # What a merge sees of a response (`entries.make`, `LastWriteWins`)

Two results on the way from a response to a merge's decision.

`value_is_body_iff` follows the value block.  It is cut out of the raw buffer from its end, so the
header and the bytes of the block do not matter; but the code takes a length of zero for the
absence of a block, and a hit with an empty value reaches the merge without a value.

`longest_lived_iff` follows the `t` flag.  `last-write-wins` compares the flags as integers, while
the protocol writes -1 for an item that never expires; the longest-lived hit wins exactly if no
unlimited hit competes with a limited one. -/

namespace McGateway.Read

open McGateway.Core
open Bytes (ascii validUtf8)
open Selections (LeftmostMax)

/-! ### The value block -/

def crlf : Bytes := [13, 10]

/-- The raw buffer of a response with a value block. -/
structure HasBlock (res : Response) (header block : Bytes) : Prop where
  raw : res.raw = some (header ++ crlf ++ block ++ crlf)
  vlen : res.vlen = some block.length

/-- The length of a response without a value block. -/
def NoBlock (res : Response) : Prop := res.vlen = none ∨ res.vlen = some 0

theorem HasBlock.body_eq {res : Response} {header block : Bytes} (h : HasBlock res header block) :
    body res = if block = [] then none else some block := by
  unfold body
  rw [h.vlen, h.raw]
  by_cases hne : block = []
  · simp [hne]
  have hpos : 0 < block.length := List.length_pos_iff.mpr hne
  have hlen : (header ++ crlf ++ block ++ crlf).length = (header ++ crlf).length + block.length + 2 := by
    simp [crlf]
    omega
  have hstart : (header ++ crlf ++ block ++ crlf).length - block.length - 2 = (header ++ crlf).length := by
    omega
  simp only
  rw [if_pos ⟨hpos, by omega⟩, if_neg hne, hstart, List.append_assoc, List.drop_left, List.take_left]

theorem NoBlock.body_eq {res : Response} (h : NoBlock res) : body res = none := by
  unfold body
  obtain h | h := h
  · simp [h]
  · cases hraw : res.raw with
    | none => simp [h]
    | some raw => simp [h]

theorem make_value_of_hit {key pool : Bytes} {res : Response} (h : classify (some res) = .hit) :
    (make key pool (some res)).value = body res := by
  simp [make, h]

theorem make_value_of_not_hit {key pool : Bytes} {o : Option Response} (h : classify o ≠ .hit) :
    (make key pool o).value = none := by
  unfold make
  split
  · rename_i hhit
    exact absurd hhit h
  · rfl

/-- The value that a merge sees of a hit. -/
theorem value_of_hit {key pool : Bytes} {res : Response} {e : Entry} (hhit : classify (some res) = .hit)
    (h : projectEntry (make key pool (some res)) = .ok e) : e.value = body res := by
  rw [(projectEntry_ok h).2.2]
  exact make_value_of_hit hhit

/-- A hit reaches a merge exactly if its pool is named in UTF-8 and its `t` flag, if there is one, can
be converted.  The merge then sees the value block as it is, exactly if the block is not empty, and
sees nothing of a response without a block. -/
theorem value_is_body_iff {key pool : Bytes} {res : Response} {header block : Bytes}
    (hhit : classify (some res) = .hit) (hblock : HasBlock res header block) :
    ((∃ e, projectEntry (make key pool (some res)) = .ok e) ↔
      validUtf8 pool = true ∧ ∀ z, tOf (some res) = some z → ReachesI64 z) ∧
    (∀ e, projectEntry (make key pool (some res)) = .ok e → (e.value = some block ↔ block ≠ [])) ∧
    ∀ (res' : Response) (e' : Entry), NoBlock res' →
      projectEntry (make key pool (some res')) = .ok e' → e'.value = none := by
  refine ⟨?_, ?_, ?_⟩
  · rw [exists_projectEntry_iff, make_pool, make_t_of_hit hhit]
  · intro e hview
    rw [value_of_hit hhit hview, hblock.body_eq]
    by_cases hne : block = []
    · simp [hne]
    · simp [hne]
  · intro res' e' hno hview'
    rw [(projectEntry_ok hview').2.2]
    by_cases hhit' : classify (some res') = .hit
    · exact (make_value_of_hit hhit').trans hno.body_eq
    · exact make_value_of_not_hit hhit'

/-- A hit with a raw buffer. -/
def hitWithRaw (vlen : ℕ) (raw : Bytes) : Response := ⟨true, true, some (ascii "0 t30"), some vlen, some raw⟩

/-- A block that contains CRLF. -/
theorem value_is_body_crlf : ∃ e, projectEntry (make (ascii "k") (ascii "a")
      (some (hitWithRaw 4 (ascii "VA 4 t30\r\na\r\nb\r\n")))) = .ok e ∧ e.value = some (ascii "a\r\nb") := by
  have hblock : HasBlock (hitWithRaw 4 (ascii "VA 4 t30\r\na\r\nb\r\n")) (ascii "VA 4 t30") (ascii "a\r\nb") :=
    ⟨by decide +kernel, by decide +kernel⟩
  have ht : tOf (some (hitWithRaw 4 (ascii "VA 4 t30\r\na\r\nb\r\n"))) = some 30 := by decide +kernel
  obtain ⟨hexists, hvalue, -⟩ := @value_is_body_iff (ascii "k") (ascii "a") _ _ _ (by decide) hblock
  have hflag : ∀ z, tOf (some (hitWithRaw 4 (ascii "VA 4 t30\r\na\r\nb\r\n"))) = some z → ReachesI64 z := by
    intro z hz
    obtain rfl : 30 = z := Option.some.inj (ht.symm.trans hz)
    unfold ReachesI64
    omega
  obtain ⟨e, he⟩ := hexists.mpr ⟨by decide +kernel, hflag⟩
  exact ⟨e, he, (hvalue e he).mpr (by decide)⟩

/-- An empty value, such as an empty protobuf, is not seen at all. -/
theorem empty_value_dropped :
    HasBlock (hitWithRaw 0 (ascii "VA 0 t30\r\n\r\n")) (ascii "VA 0 t30") [] ∧
    ∃ e, projectEntry (make (ascii "k") (ascii "a") (some (hitWithRaw 0 (ascii "VA 0 t30\r\n\r\n")))) = .ok e ∧
      e.status = .hit ∧ e.value = none := by
  refine ⟨⟨by decide +kernel, rfl⟩, ?_⟩
  exact ⟨⟨ascii "k", ascii "a", .hit, some 30, none, some (ascii "0 t30")⟩, by decide +kernel, rfl, rfl⟩

/-! ### Lifetimes -/

/-- The remaining lifetime that a `t` flag stands for. -/
def lifetime (t : ℤ) : WithTop ℤ := if t = -1 then ⊤ else (t : WithTop ℤ)

/-- The flag of a hit. -/
def HitWithT (o : Option Response) (t : ℤ) : Prop := classify o = .hit ∧ tOf o = some t

/-- The `i`-th response is a hit that lives at least as long as every hit with a `t` flag. -/
def LongestLived (results : List (Option Response)) (i : ℕ) : Prop :=
  ∃ o t, results[i]? = some o ∧ HitWithT o t ∧ ∀ o' ∈ results, ∀ t', HitWithT o' t' → lifetime t' ≤ lifetime t

@[simp] theorem lifetime_unlimited : lifetime (-1) = ⊤ := if_pos rfl

theorem lifetime_of_ne {t : ℤ} (h : t ≠ -1) : lifetime t = (t : WithTop ℤ) := if_neg h

theorem top_le_lifetime {t : ℤ} (h : (⊤ : WithTop ℤ) ≤ lifetime t) : t = -1 := by
  by_contra hne
  rw [lifetime_of_ne hne] at h
  simp at h

theorem HitWithT.rankOf {o : Option Response} {t : ℤ} (h : HitWithT o t) : rankOf o = (t : WithBot ℤ) := by
  unfold Read.rankOf
  rw [h.2]
  rfl

section
variable {results : List (Option Response)} {i : ℕ} {o : Option Response}

/-- If some hit has a flag, then the selected hit has one, and it is the greatest. -/
theorem exists_greatest_t (h : LeftmostMax (fun o => classify o = .hit) rankOf results i o)
    (hsome : ∃ o' ∈ results, ∃ t', HitWithT o' t') :
    ∃ t, HitWithT o t ∧ ∀ o' ∈ results, ∀ t', HitWithT o' t' → t' ≤ t := by
  obtain ⟨o₁, ho₁, t₁, ht₁⟩ := hsome
  have hle₁ := h.le o₁ ho₁ ht₁.1
  rw [ht₁.rankOf] at hle₁
  cases ht : tOf o with
  | none =>
      unfold rankOf at hle₁
      rw [ht] at hle₁
      simp at hle₁
  | some t =>
      have hhit : HitWithT o t := ⟨h.holds, ht⟩
      refine ⟨t, hhit, ?_⟩
      intro o' ho' t' ht'
      have hle := h.le o' ho' ht'.1
      rw [ht'.rankOf, hhit.rankOf] at hle
      exact WithBot.coe_le_coe.mp hle

theorem longestLived_iff (h : LeftmostMax (fun o => classify o = .hit) rankOf results i o)
    (hsome : ∃ o' ∈ results, ∃ t', HitWithT o' t')
    (hencoded : ∀ o' ∈ results, ∀ t', HitWithT o' t' → -1 ≤ t') :
    LongestLived results i ↔
      ((∃ o' ∈ results, HitWithT o' (-1)) → ∀ o' ∈ results, ∀ t', HitWithT o' t' → t' = -1) := by
  obtain ⟨t, ht, hmax⟩ := exists_greatest_t h hsome
  constructor
  · intro hlong hunlimited o' ho' t' ht'
    obtain ⟨o₁, t₁, hget, ht₁, hlives⟩ := hlong
    obtain ⟨o₂, ho₂, ht₂⟩ := hunlimited
    -- the selected flag is that of an unlimited item, and it is the greatest
    obtain rfl : o = o₁ := Option.some.inj (h.get.symm.trans hget)
    obtain rfl : t = t₁ := Option.some.inj (ht.2.symm.trans ht₁.2)
    have htop := hlives o₂ ho₂ (-1) ht₂
    rw [lifetime_unlimited] at htop
    have htie := top_le_lifetime htop
    have hle := hmax o' ho' t' ht'
    have hge := hencoded o' ho' t' ht'
    omega
  · intro hsep
    refine ⟨o, t, h.get, ht, ?_⟩
    intro o' ho' t' ht'
    by_cases hunlimited : ∃ o' ∈ results, HitWithT o' (-1)
    · rw [hsep hunlimited o' ho' t' ht', hsep hunlimited o (List.mem_of_getElem? h.get) t ht]
    · have hne : t ≠ -1 := by
        rintro rfl
        exact hunlimited ⟨o, List.mem_of_getElem? h.get, ht⟩
      have hne' : t' ≠ -1 := by
        rintro rfl
        exact hunlimited ⟨o', ho', ht'⟩
      rw [lifetime_of_ne hne, lifetime_of_ne hne']
      exact WithTop.coe_le_coe.mpr (hmax o' ho' t' ht')

end

/-- The entries of a fan-out, one pool and its response at a time. -/
def makeAll (key : Bytes) (rows : List (Bytes × Option Response)) : List LuaEntry :=
  rows.map fun row => make key row.1 row.2

theorem toI64_of_encoded {z : ℤ} {t : Int64} (h : toI64 z = some t) (hz : -1 ≤ z) : t.toInt = z := by
  unfold toI64 at h
  split_ifs at h with hfits hround
  · obtain rfl := Option.some.inj h
    exact Int64.toInt_ofInt_of_le hfits.1 hfits.2
  · omega

/-- The views of a fan-out show its responses, as long as its flags are those of the protocol. -/
theorem shows_of_project {key : Bytes} {rows : List (Bytes × Option Response)} {entries : List Entry}
    (hviews : project (makeAll key rows) = .ok entries)
    (hencoded : ∀ o ∈ rows.map Prod.snd, ∀ t, HitWithT o t → -1 ≤ t) :
    List.Forall₂ Shows entries (rows.map Prod.snd) := by
  have hrows := project_forall₂ hviews
  unfold makeAll at hrows
  rw [List.forall₂_map_left_iff] at hrows
  have hflags : ∀ row ∈ rows, ∀ t, HitWithT row.2 t → -1 ≤ t :=
    fun row hrow => hencoded row.2 (List.mem_map_of_mem hrow)
  rw [List.forall₂_map_right_iff]
  refine (((List.forall₂_and_left _ _).mpr ⟨hflags, hrows⟩).imp ?_).flip
  intro row e h
  obtain ⟨hflag, hview⟩ := h
  obtain ⟨-, hsome, rfl⟩ := projectEntry_ok hview
  refine ⟨make_status key row.1 row.2, ?_⟩
  intro hhit
  rw [make_t_of_hit hhit] at hsome
  unfold ttlRank rankOf
  simp only
  rw [make_t_of_hit hhit]
  cases ht : tOf row.2 with
  | none => rfl
  | some z =>
      obtain ⟨t, hz⟩ := Option.isSome_iff_exists.mp (hsome z ht)
      rw [Option.bind_some, hz]
      exact congrArg _ (toI64_of_encoded hz (hflag z ⟨hhit, ht⟩))

/-- Of the hits of a read whose flags are those of the protocol, `last-write-wins` picks one of
greatest lifetime exactly if the unlimited hits, where there are any, compete only with each other. -/
theorem longest_lived_iff {key : Bytes} {rows : List (Bytes × Option Response)} {entries : List Entry}
    (hviews : project (makeAll key rows) = .ok entries)
    (hsome : ∃ o ∈ rows.map Prod.snd, ∃ t, HitWithT o t)
    (hencoded : ∀ o ∈ rows.map Prod.snd, ∀ t, HitWithT o t → -1 ≤ t) :
    (∃ i, lastWriteWins.apply entries = .winner i ∧ LongestLived (rows.map Prod.snd) i) ↔
      ((∃ o ∈ rows.map Prod.snd, HitWithT o (-1)) →
        ∀ o ∈ rows.map Prod.snd, ∀ t, HitWithT o t → t = -1) := by
  have hshows := shows_of_project hviews hencoded
  obtain ⟨i, o, hmax, hi⟩ | ⟨hno, -⟩ := lastWriteWins_selects hshows
  · rw [← longestLived_iff hmax hsome hencoded, hi]
    constructor
    · intro h
      obtain ⟨j, hj, hlong⟩ := h
      obtain rfl : i = j := MergeResult.winner.inj hj
      exact hlong
    · intro hlong
      exact ⟨i, rfl, hlong⟩
  · obtain ⟨o, ho, t, hhit, -⟩ := hsome
    exact absurd hhit (hno o ho)

/-- Two pools answer with these header lines. -/
def twoHits (line line' : Bytes) : List (Bytes × Option Response) :=
  [(ascii "a", some (hitWith line)), (ascii "b", some (hitWith line'))]

/-- Two limited hits. -/
theorem longest_lived_two : ∃ entries i,
    project (makeAll (ascii "k") (twoHits (ascii "1 t5") (ascii "1 t9"))) = .ok entries ∧
    lastWriteWins.apply entries = .winner i ∧
    LongestLived ((twoHits (ascii "1 t5") (ascii "1 t9")).map Prod.snd) i := by
  have hviews : project (makeAll (ascii "k") (twoHits (ascii "1 t5") (ascii "1 t9"))) =
      .ok [⟨ascii "k", ascii "a", .hit, some 5, none, some (ascii "1 t5")⟩,
        ⟨ascii "k", ascii "b", .hit, some 9, none, some (ascii "1 t9")⟩] := by decide +kernel
  have h5 : tOf (some (hitWith (ascii "1 t5"))) = some 5 := by decide +kernel
  have h9 : tOf (some (hitWith (ascii "1 t9"))) = some 9 := by decide +kernel
  have hflags : ∀ o ∈ (twoHits (ascii "1 t5") (ascii "1 t9")).map Prod.snd,
      ∀ t, HitWithT o t → t = 5 ∨ t = 9 := by
    simp only [twoHits, List.map_cons, List.map_nil, List.forall_mem_cons]
    refine ⟨?_, ?_, by simp⟩
    · intro t ht
      exact .inl (Option.some.inj (ht.2.symm.trans h5))
    · intro t ht
      exact .inr (Option.some.inj (ht.2.symm.trans h9))
  have hlong := (longest_lived_iff hviews ⟨_, List.mem_cons_self, 5, by decide, h5⟩ ?_).mpr ?_
  · obtain ⟨i, hi, h⟩ := hlong
    exact ⟨_, i, hviews, hi, h⟩
  · intro o ho t ht
    have := hflags o ho t ht
    omega
  · intro h
    obtain ⟨o, ho, ht⟩ := h
    have := hflags o ho (-1) ht
    omega

/-- An item that never expires loses against one that expires in five seconds. -/
theorem unlimited_hit_loses : ∃ entries,
    project (makeAll (ascii "k") (twoHits (ascii "1 t-1") (ascii "1 t5"))) = .ok entries ∧
    lastWriteWins.apply entries = .winner 1 ∧
    ¬LongestLived ((twoHits (ascii "1 t-1") (ascii "1 t5")).map Prod.snd) 1 := by
  refine ⟨[⟨ascii "k", ascii "a", .hit, some (-1), none, some (ascii "1 t-1")⟩,
    ⟨ascii "k", ascii "b", .hit, some 5, none, some (ascii "1 t5")⟩], by decide +kernel, by decide +kernel, ?_⟩
  intro h
  obtain ⟨o, t, hget, ht, hlives⟩ := h
  have h5 : tOf (some (hitWith (ascii "1 t5"))) = some 5 := by decide +kernel
  have hunlimited : tOf (some (hitWith (ascii "1 t-1"))) = some (-1) := by decide +kernel
  obtain rfl : some (hitWith (ascii "1 t5")) = o := Option.some.inj hget
  obtain rfl : 5 = t := Option.some.inj (h5.symm.trans ht.2)
  have htop := hlives _ List.mem_cons_self (-1) ⟨by decide, hunlimited⟩
  rw [lifetime_unlimited] at htop
  exact absurd (top_le_lifetime htop) (by decide)

end McGateway.Read
