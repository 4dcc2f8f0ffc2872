import McGateway.ReadPath

/-! # What a read returns

Two results about `readHandler`.  For the built-in merges the reply is determined by the vector of
backend responses alone (`read_law`): the selected hit, else the first miss, else the first
error.  For any merge that yields no winner the reply is a miss or an honest error exactly when
some backend missed or all failed (`degrades_to_miss_iff`): a hit that was not chosen is neither,
and the fallback loop does not look at it.

Responses, entries and the views handed to the merge are three lists in step; the facts that the
loops establish about one of them are moved to the next with `Selections.FirstAt.transfer` and
`Selections.LeftmostMax.transfer`. -/

namespace McGateway.Read

open McGateway.Core
open Bytes (ascii validUtf8 hasPrefix)
open Selections (FirstAt LeftmostMax)

/-! ### Entries and views -/

/-- The `t` flag of a response. -/
def tOf (o : Option Response) : Option ℤ := (o.bind Response.line).bind parseT

/-- Responses are ranked by `t`; one without it ranks below the others. -/
def rankOf (o : Option Response) : WithBot ℤ := (tOf o).elim ⊥ fun z => (z : WithBot ℤ)

def FitsI64 (z : ℤ) : Prop := -2 ^ 63 ≤ z ∧ z < 2 ^ 63

@[simp] theorem make_pool (key pool : Bytes) (o : Option Response) : (make key pool o).pool = pool := by
  unfold make
  split <;> rfl

@[simp] theorem make_res (key pool : Bytes) (o : Option Response) : (make key pool o).res = o := by
  unfold make
  split <;> rfl

@[simp] theorem make_status (key pool : Bytes) (o : Option Response) :
    (make key pool o).status = classify o := by
  unfold make
  split
  · rename_i h
    exact h.symm
  · rename_i h
    rfl

theorem make_t_of_hit {key pool : Bytes} {o : Option Response} (h : classify o = .hit) :
    (make key pool o).t = tOf o := by
  cases o with
  | none => simp [classify] at h
  | some r => simp [make, h, tOf]

theorem make_t_of_not_hit {key pool : Bytes} {o : Option Response} (h : classify o ≠ .hit) :
    (make key pool o).t = none := by
  unfold make
  split
  · rename_i h'
    exact absurd h' h
  · rfl

theorem build_forall₂ (key : Bytes) {poolNames : List Bytes} {results : List (Option Response)}
    (h : results.length = poolNames.length) :
    List.Forall₂ (fun e o => o ∈ results ∧ ∃ p ∈ poolNames, e = make key p o)
      (build key poolNames results) results := by
  rw [List.forall₂_iff_get]
  refine ⟨by simp [build, h], ?_⟩
  intro i hi hi'
  have hp : i < poolNames.length := h ▸ hi'
  refine ⟨List.getElem_mem hi', poolNames[i], List.getElem_mem hp, ?_⟩
  simp [build, List.getElem?_eq_getElem hi']

theorem mem_build {key : Bytes} {poolNames : List Bytes} {results : List (Option Response)}
    {e : LuaEntry} (h : e ∈ build key poolNames results) : ∃ p o, e = make key p o := by
  unfold build at h
  obtain ⟨i, hi, he⟩ := List.mem_mapIdx.mp h
  exact ⟨_, _, he.symm⟩

/-- The entry a merge sees. -/
def view (e : LuaEntry) : Entry := ⟨e.key, e.pool, e.status, e.t.map Int64.ofInt, e.value, e.line⟩

theorem projectEntry_eq {e : LuaEntry} (hp : validUtf8 e.pool = true)
    (ht : ∀ z, e.t = some z → FitsI64 z) : projectEntry e = .ok (view e) := by
  unfold projectEntry view
  cases h : e.t with
  | none => simp [hp]
  | some z =>
      have hz : toI64 z = some (Int64.ofInt z) := if_pos (ht z h)
      simp [hz, hp]

theorem project_eq : ∀ {es : List LuaEntry}, (∀ e ∈ es, projectEntry e = .ok (view e)) →
    project es = .ok (es.map view)
  | [], _ => rfl
  | e :: es, h => by
      have hes : project es = .ok (es.map view) := project_eq fun x hx => h x (List.mem_cons_of_mem _ hx)
      unfold project at hes ⊢
      rw [List.mapM_cons, h e List.mem_cons_self, hes]
      rfl

/-- What a view shows of the response it comes from. -/
def Shows (v : Entry) (o : Option Response) : Prop :=
  v.status = classify o ∧ (classify o = .hit → ttlRank v = rankOf o)

theorem shows_view {key pool : Bytes} {o : Option Response}
    (ht : classify o = .hit → ∀ z, tOf o = some z → FitsI64 z) : Shows (view (make key pool o)) o := by
  refine ⟨make_status key pool o, ?_⟩
  intro hhit
  unfold ttlRank rankOf view
  rw [make_t_of_hit hhit]
  cases h : tOf o with
  | none => rfl
  | some z =>
      obtain ⟨hl, hu⟩ := ht hhit z h
      simp [Int64.toInt_ofInt_of_le hl hu]

/-- The conditions on a read under which the native module converts every entry. -/
structure Convertible (poolNames : List Bytes) (results : List (Option Response)) : Prop where
  pools : ∀ p ∈ poolNames, validUtf8 p = true
  inRange : ∀ o ∈ results, classify o = .hit → ∀ z, tOf o = some z → FitsI64 z
  length : results.length = poolNames.length

theorem Convertible.project_build {poolNames : List Bytes} {results : List (Option Response)}
    (h : Convertible poolNames results) (key : Bytes) :
    ∃ views, project (build key poolNames results) = .ok views ∧ List.Forall₂ Shows views results := by
  have hbuild := build_forall₂ key h.length
  refine ⟨(build key poolNames results).map view, project_eq ?_, ?_⟩
  · intro e he
    obtain ⟨o, -, ho, p, hp, rfl⟩ := Selections.exists_mem_of_forall₂ hbuild he
    apply projectEntry_eq
    · rw [make_pool]
      exact h.pools p hp
    · intro z hz
      by_cases hhit : classify o = .hit
      · rw [make_t_of_hit hhit] at hz
        exact h.inRange o ho hhit z hz
      · rw [make_t_of_not_hit hhit] at hz
        exact absurd hz (by simp)
  · rw [List.forall₂_map_left_iff]
    refine hbuild.imp ?_
    rintro e o ⟨ho, p, -, rfl⟩
    exact shows_view (h.inRange o ho)

/-! ### The built-in merges -/

/-- The hit that a built-in merge selects: by `t` for `last-write-wins`, the first one for the
other two. -/
def Selects (mergeName : Bytes) (results : List (Option Response)) (i : ℕ) (o : Option Response) : Prop :=
  if mergeName = ascii "last-write-wins" then
    LeftmostMax (fun o => classify o = .hit) rankOf results i o
  else FirstAt (fun o => classify o = .hit) results i o

theorem no_hit_of_views {views : List Entry} {results : List (Option Response)}
    (hv : List.Forall₂ Shows views results) (h : ∀ v ∈ views, v.status ≠ .hit) :
    ∀ o ∈ results, classify o ≠ .hit := by
  intro o ho
  obtain ⟨v, hv, hs, -⟩ := Selections.exists_mem_of_forall₂ hv.flip ho
  rw [← hs]
  exact h v hv

theorem Shows.hit_iff {v : Entry} {o : Option Response} (h : Shows v o) :
    v.status = .hit ↔ classify o = .hit := by rw [h.1]

theorem firstHit_selects {views : List Entry} {results : List (Option Response)}
    (hv : List.Forall₂ Shows views results) :
    (∃ i o, FirstAt (fun o => classify o = .hit) results i o ∧ firstHitFrom 0 views = .winner i) ∨
      ((∀ o ∈ results, classify o ≠ .hit) ∧ firstHitFrom 0 views = .miss) := by
  rcases firstHitFrom_spec views 0 with ⟨i, v, hfirst, hi⟩ | ⟨hno, hmiss⟩
  · obtain ⟨o, -, ho⟩ := hfirst.transfer hv fun _ _ hs => hs.hit_iff
    exact .inl ⟨i, o, ho, by rw [hi, Nat.zero_add]⟩
  · exact .inr ⟨no_hit_of_views hv hno, hmiss⟩

theorem lastWriteWins_selects {views : List Entry} {results : List (Option Response)}
    (hv : List.Forall₂ Shows views results) :
    (∃ i o, LeftmostMax (fun o => classify o = .hit) rankOf results i o ∧
        lastWriteWins.apply views = .winner i) ∨
      ((∀ o ∈ results, classify o ≠ .hit) ∧ lastWriteWins.apply views = .miss) := by
  rcases lastWriteWins_spec views with ⟨i, v, hmax, hi⟩ | ⟨hno, hmiss⟩
  · obtain ⟨o, -, ho⟩ := hmax.transfer hv (fun _ _ hs => hs.hit_iff)
      fun _ _ hs hhit => hs.2 (hs.hit_iff.mp hhit)
    exact .inl ⟨i, o, ho, hi⟩
  · exact .inr ⟨no_hit_of_views hv hno, hmiss⟩

/-- A built-in merge selects on the views what `Selects` says of the responses. -/
theorem builtin_selects {mergeName : Bytes} {views : List Entry} {results : List (Option Response)}
    (hname : mergeName ∈ [ascii "first-hit", ascii "pool-preferred", ascii "last-write-wins"])
    (hv : List.Forall₂ Shows views results) (table : WasmTable) :
    ∃ r, applyMerge table mergeName views = some r ∧
      ((∃ i o, Selects mergeName results i o ∧ r = .winner i) ∨
        ((∀ o ∈ results, classify o ≠ .hit) ∧ r = .miss)) := by
  simp only [List.mem_cons, List.not_mem_nil, or_false] at hname
  rcases hname with rfl | rfl | rfl
  · exact ⟨firstHitFrom 0 views, rfl, firstHit_selects hv⟩
  · exact ⟨firstHitFrom 0 views, rfl, firstHit_selects hv⟩
  · exact ⟨lastWriteWins.apply views, rfl, lastWriteWins_selects hv⟩

theorem Selects.get {mergeName : Bytes} {results : List (Option Response)} {i : ℕ}
    {o : Option Response} (h : Selects mergeName results i o) :
    results[i]? = some o ∧ classify o = .hit := by
  unfold Selects at h
  split_ifs at h
  · exact ⟨h.get, h.holds⟩
  · exact ⟨h.get, h.holds⟩

/-! ### The fallback loop -/

/-- An entry whose status is that of its response. -/
def Consistent (e : LuaEntry) : Prop := e.status = classify e.res

theorem consistent_of_mem_build {key : Bytes} {poolNames : List Bytes}
    {results : List (Option Response)} : ∀ e ∈ build key poolNames results, Consistent e := by
  intro e he
  obtain ⟨p, o, rfl⟩ := mem_build he
  unfold Consistent
  rw [make_status, make_res]

theorem exists_of_classify_ne_error {o : Option Response} (h : classify o ≠ .error) :
    ∃ r, o = some r := by
  cases o with
  | none => exact absurd rfl h
  | some r => exact ⟨r, rfl⟩

/-- With a miss in the list the loop returns the first miss. -/
theorem noWinnerFrom_of_miss : ∀ {es : List LuaEntry} (concrete : Option Response),
    (∀ e ∈ es, Consistent e) → (∃ e ∈ es, e.status = .miss) →
    ∃ i e r, FirstAt (fun e => e.status = .miss) es i e ∧ e.res = some r ∧
      noWinnerFrom false concrete es = .response r
  | [], _, _, h => absurd h (by simp)
  | e :: es, concrete, hc, h => by
      have hce := hc e List.mem_cons_self
      have hces : ∀ x ∈ es, Consistent x := fun x hx => hc x (List.mem_cons_of_mem _ hx)
      by_cases he : e.status = .miss
      · obtain ⟨r, hr⟩ := exists_of_classify_ne_error (o := e.res) (by rw [← hce, he]; decide)
        refine ⟨0, e, r, Selections.firstAt_cons he, hr, ?_⟩
        simp [noWinnerFrom, he, hr]
      · have hes : ∃ x ∈ es, x.status = .miss := by
          obtain ⟨x, hx, hm⟩ := h
          rcases List.mem_cons.mp hx with rfl | hx
          · exact absurd hm he
          · exact ⟨x, hx, hm⟩
        have step : ∃ concrete', noWinnerFrom false concrete (e :: es) = noWinnerFrom false concrete' es := by
          cases hs : e.status with
          | hit => exact ⟨concrete, by simp [noWinnerFrom, hs]⟩
          | miss => exact absurd hs he
          | error =>
              cases hr : e.res with
              | none => exact ⟨concrete, by simp [noWinnerFrom, hs, hr]⟩
              | some r => exact ⟨concrete.or (some r), by simp [noWinnerFrom, hs, hr]⟩
        obtain ⟨concrete', hstep⟩ := step
        obtain ⟨i, x, r, hfirst, hr, hreply⟩ := noWinnerFrom_of_miss concrete' hces hes
        exact ⟨i + 1, x, r, hfirst.cons he, hr, hstep.trans hreply⟩

/-- An error for which there is a response. -/
def ConcreteError (e : LuaEntry) : Prop := e.status = .error ∧ e.res.isSome

theorem noWinnerFrom_kept : ∀ {es : List LuaEntry} (r : Response), (∀ e ∈ es, e.status ≠ .miss) →
    noWinnerFrom false (some r) es = .response r
  | [], _, _ => rfl
  | e :: es, r, h => by
      have hes := noWinnerFrom_kept r fun x hx => h x (List.mem_cons_of_mem _ hx)
      cases hs : e.status with
      | hit => simp [noWinnerFrom, hs, hes]
      | miss => exact absurd hs (h e List.mem_cons_self)
      | error =>
          cases hr : e.res with
          | none => simp [noWinnerFrom, hs, hr, hes]
          | some r' => simp [noWinnerFrom, hs, hr, hes]

/-- Without a miss the loop returns the first error that has a response. -/
theorem noWinnerFrom_of_no_miss : ∀ {es : List LuaEntry}, (∀ e ∈ es, e.status ≠ .miss) →
    (∃ i e r, FirstAt ConcreteError es i e ∧ e.res = some r ∧ noWinnerFrom false none es = .response r) ∨
      ((∀ e ∈ es, ¬ConcreteError e) ∧ noWinnerFrom false none es = .text allReadErr)
  | [], _ => .inr ⟨by simp, rfl⟩
  | e :: es, h => by
      have hes : ∀ x ∈ es, x.status ≠ .miss := fun x hx => h x (List.mem_cons_of_mem _ hx)
      by_cases he : ConcreteError e
      · obtain ⟨hs, hsome⟩ := he
        obtain ⟨r, hr⟩ := Option.isSome_iff_exists.mp hsome
        refine .inl ⟨0, e, r, Selections.firstAt_cons ⟨hs, hsome⟩, hr, ?_⟩
        simp [noWinnerFrom, hs, hr, noWinnerFrom_kept r hes]
      · have step : noWinnerFrom false none (e :: es) = noWinnerFrom false none es := by
          cases hs : e.status with
          | hit => simp [noWinnerFrom, hs]
          | miss => exact absurd hs (h e List.mem_cons_self)
          | error =>
              cases hr : e.res with
              | none => simp [noWinnerFrom, hs, hr]
              | some r => exact absurd ⟨hs, by simp [hr]⟩ he
        rcases noWinnerFrom_of_no_miss hes with ⟨i, x, r, hfirst, hr, hreply⟩ | ⟨hno, hreply⟩
        · exact .inl ⟨i + 1, x, r, hfirst.cons he, hr, step.trans hreply⟩
        · exact .inr ⟨List.forall_mem_cons.mpr ⟨he, hno⟩, step.trans hreply⟩

/-! ### The read law -/

/-- The reply to a read, in terms of the backend responses. -/
structure ReadLaw (mergeName : Bytes) (results : List (Option Response)) (reply : Reply) : Prop where
  /-- Some backend hit: the selected hit, verbatim. -/
  ofHit : (∃ o ∈ results, classify o = .hit) →
    ∃ i r, Selects mergeName results i (some r) ∧ reply = .response r
  /-- No backend hit and some missed: the first miss. -/
  ofMiss : (∀ o ∈ results, classify o ≠ .hit) → (∃ o ∈ results, classify o = .miss) →
    ∃ i r, FirstAt (fun o => classify o = .miss) results i (some r) ∧ reply = .response r
  /-- All backends failed and some sent a response: the first response. -/
  ofError : (∀ o ∈ results, classify o = .error) → (∃ o ∈ results, o ≠ none) →
    ∃ i r, FirstAt (fun o => o ≠ none) results i (some r) ∧ reply = .response r
  /-- No backend sent a response. -/
  ofNothing : (∀ o ∈ results, o = none) → reply = .text allReadErr

theorem replyFor_winner {key : Bytes} {poolNames : List Bytes} {results : List (Option Response)}
    {i : ℕ} {r : Response} (hlen : results.length = poolNames.length) (h : results[i]? = some (some r)) :
    replyFor (build key poolNames results) (.winner i) = .response r := by
  obtain ⟨e, he, -, p, -, rfl⟩ := Selections.getElem?_of_forall₂ (build_forall₂ key hlen).flip h
  simp [replyFor, he]

theorem dispatch_builtin {table : WasmTable} {mergeName : Bytes} {entries : List LuaEntry}
    {views : List Entry} {r : MergeResult} (hutf8 : validUtf8 mergeName = true)
    (hproject : project entries = .ok views) (happly : applyMerge table mergeName views = some r)
    (hfits : ∀ i, r = .winner i → i + 1 < 2 ^ 63) : dispatch table mergeName entries = .ok r := by
  unfold dispatch
  simp only [hutf8, Bool.not_true, Bool.false_eq_true, if_false, hproject, happly]
  cases r with
  | winner i => simp only [if_pos (hfits i rfl)]
  | synthesized bytes => rfl
  | miss => rfl

theorem readHandler_eq {table : WasmTable} {mergeName : Bytes} {poolNames : List Bytes} {key : Bytes}
    {results : List (Option Response)} {r : MergeResult} (hkey : 35 ∉ key)
    (h : dispatch table mergeName (build key poolNames results) = .ok r) :
    readHandler table mergeName poolNames key results = .ok (replyFor (build key poolNames results) r) := by
  unfold readHandler
  simp only [if_neg hkey, h]

theorem Selects.readLaw {mergeName : Bytes} {results : List (Option Response)} {i : ℕ} {r : Response}
    (h : Selects mergeName results i (some r)) : ReadLaw mergeName results (.response r) := by
  obtain ⟨hget, hhit⟩ := h.get
  have hmem : some r ∈ results := List.mem_of_getElem? hget
  refine ⟨fun _ => ⟨i, r, h, rfl⟩, ?_, ?_, ?_⟩
  · intro hno _
    exact absurd hhit (hno _ hmem)
  · intro herr _
    have := herr _ hmem
    rw [hhit] at this
    exact absurd this (by decide)
  · intro hnone
    exact absurd (hnone _ hmem) (by simp)

/-! ### Replies without a winner -/

section noWinner
variable {key : Bytes} {poolNames : List Bytes} {results : List (Option Response)}

/-- Every response has its entry. -/
theorem exists_entry (key : Bytes) (hlen : results.length = poolNames.length) {o : Option Response}
    (ho : o ∈ results) : ∃ e ∈ build key poolNames results, e.status = classify o ∧ e.res = o := by
  obtain ⟨e, he, -, p, -, rfl⟩ := Selections.exists_mem_of_forall₂ (build_forall₂ key hlen).flip ho
  exact ⟨_, he, make_status key p o, make_res key p o⟩

/-- Every entry has its response. -/
theorem exists_result (hlen : results.length = poolNames.length) {e : LuaEntry}
    (he : e ∈ build key poolNames results) : ∃ o ∈ results, e.status = classify o ∧ e.res = o := by
  obtain ⟨o, ho, -, p, -, rfl⟩ := Selections.exists_mem_of_forall₂ (build_forall₂ key hlen) he
  exact ⟨o, ho, make_status key p o, make_res key p o⟩

/-- The first entry of a kind stands where the first response of that kind does. -/
theorem firstAt_results (hlen : results.length = poolNames.length) {P : LuaEntry → Prop}
    {Q : Option Response → Prop} {i : ℕ} {e : LuaEntry}
    (hPQ : ∀ x, ∀ o ∈ results, x.status = classify o → x.res = o → (P x ↔ Q o))
    (h : FirstAt P (build key poolNames results) i e) : FirstAt Q results i e.res := by
  obtain ⟨o, ⟨-, p, -, rfl⟩, ho⟩ := h.transfer (Q := Q) (build_forall₂ key hlen) (by
    rintro x o ⟨ho, p, -, rfl⟩
    exact hPQ _ o ho (make_status key p o) (make_res key p o))
  rwa [make_res]

theorem entries_no_miss (hlen : results.length = poolNames.length)
    (h : ∀ o ∈ results, classify o = .error) : ∀ e ∈ build key poolNames results, e.status ≠ .miss := by
  intro e he
  obtain ⟨o, ho, hs, -⟩ := exists_result hlen he
  rw [hs, h o ho]
  decide

theorem noWinner_of_miss (hlen : results.length = poolNames.length)
    (h : ∃ o ∈ results, classify o = .miss) :
    ∃ i r, FirstAt (fun o => classify o = .miss) results i (some r) ∧
      noWinner (build key poolNames results) = .response r := by
  obtain ⟨o, ho, hmiss⟩ := h
  obtain ⟨x, hx, hs, -⟩ := exists_entry key hlen ho
  obtain ⟨i, e, r, hfirst, hr, hreply⟩ := noWinnerFrom_of_miss none consistent_of_mem_build
    ⟨x, hx, hs.trans hmiss⟩
  have hres := firstAt_results (Q := fun o => classify o = .miss) hlen
    (fun x o _ hs _ => by rw [hs]) hfirst
  exact ⟨i, r, hr ▸ hres, hreply⟩

theorem noWinner_of_error (hlen : results.length = poolNames.length)
    (herr : ∀ o ∈ results, classify o = .error) (h : ∃ o ∈ results, o ≠ none) :
    ∃ i r, FirstAt (fun o => o ≠ none) results i (some r) ∧
      noWinner (build key poolNames results) = .response r := by
  have hiff : ∀ x, ∀ o ∈ results, x.status = classify o → x.res = o → (ConcreteError x ↔ o ≠ none) := by
    intro x o ho hs hr
    unfold ConcreteError
    rw [hs, hr, herr o ho, Option.isSome_iff_ne_none]
    exact ⟨fun h => h.2, fun h => ⟨rfl, h⟩⟩
  rcases noWinnerFrom_of_no_miss (entries_no_miss hlen herr) with
    ⟨i, e, r, hfirst, hr, hreply⟩ | ⟨hnone, -⟩
  · have hres := firstAt_results hlen hiff hfirst
    exact ⟨i, r, hr ▸ hres, hreply⟩
  · obtain ⟨o, ho, hsome⟩ := h
    obtain ⟨x, hx, hs, hr⟩ := exists_entry key hlen ho
    exact absurd ((hiff x o ho hs hr).mpr hsome) (hnone x hx)

theorem noWinner_of_nothing (hlen : results.length = poolNames.length) (h : ∀ o ∈ results, o = none) :
    noWinner (build key poolNames results) = .text allReadErr := by
  have herr : ∀ o ∈ results, classify o = .error := by
    intro o ho
    rw [h o ho]
    rfl
  rcases noWinnerFrom_of_no_miss (entries_no_miss hlen herr) with
    ⟨i, e, r, hfirst, hr, -⟩ | ⟨-, hreply⟩
  · obtain ⟨o, ho, -, ho'⟩ := exists_result hlen (List.mem_of_getElem? hfirst.get)
    rw [ho', h o ho] at hr
    exact absurd hr (by simp)
  · exact hreply

theorem noWinner_readLaw {mergeName : Bytes} (hlen : results.length = poolNames.length)
    (hno : ∀ o ∈ results, classify o ≠ .hit) :
    ReadLaw mergeName results (noWinner (build key poolNames results)) := by
  refine ⟨?_, fun _ => noWinner_of_miss hlen, noWinner_of_error hlen, noWinner_of_nothing hlen⟩
  intro h
  obtain ⟨o, ho, hhit⟩ := h
  exact absurd hhit (hno o ho)

end noWinner

/-- The read law of the built-in merges. -/
theorem read_law (table : WasmTable) {mergeName : Bytes} {poolNames : List Bytes} {key : Bytes}
    {results : List (Option Response)}
    (hname : mergeName ∈ [ascii "first-hit", ascii "pool-preferred", ascii "last-write-wins"])
    (hkey : 35 ∉ key) (hpools : ∀ p ∈ poolNames, validUtf8 p = true)
    (hcount : poolNames.length < 2 ^ 63) (hlen : results.length = poolNames.length)
    (ht : ∀ o ∈ results, classify o = .hit → ∀ z, tOf o = some z → FitsI64 z) :
    ∃ reply, readHandler table mergeName poolNames key results = .ok reply ∧
      ReadLaw mergeName results reply := by
  have hutf8 : validUtf8 mergeName = true := by
    simp only [List.mem_cons, List.not_mem_nil, or_false] at hname
    rcases hname with rfl | rfl | rfl <;> decide +kernel
  obtain ⟨views, hproject, hviews⟩ := Convertible.project_build ⟨hpools, ht, hlen⟩ key
  obtain ⟨r, happly, ⟨i, o, hsel, rfl⟩ | ⟨hno, rfl⟩⟩ := builtin_selects hname hviews table
  · obtain ⟨hget, hhit⟩ := hsel.get
    have hi : i < results.length := (List.getElem?_eq_some_iff.mp hget).1
    have hfits : ∀ j, MergeResult.winner i = .winner j → j + 1 < 2 ^ 63 := by
      rintro j ⟨⟩
      omega
    obtain ⟨res, rfl⟩ := exists_of_classify_ne_error (o := o) (by rw [hhit]; decide)
    refine ⟨.response res, ?_, hsel.readLaw⟩
    rw [readHandler_eq hkey (dispatch_builtin hutf8 hproject happly hfits), replyFor_winner hlen hget]
  · exact ⟨_, readHandler_eq hkey (dispatch_builtin hutf8 hproject happly (by simp)),
      noWinner_readLaw hlen hno⟩

/-- A hit with the given header line. -/
def hitWith (line : Bytes) : Response := ⟨true, true, some line, none, none⟩

/-- Three pools: the first does not answer, the last has the greater `t`. -/
theorem read_law_three_pools : ∃ reply,
    readHandler ∅ (ascii "last-write-wins") [ascii "a", ascii "b", ascii "c"] (ascii "k")
        [none, some (hitWith (ascii "5 t5")), some (hitWith (ascii "5 t7"))] = .ok reply ∧
      ReadLaw (ascii "last-write-wins")
        [none, some (hitWith (ascii "5 t5")), some (hitWith (ascii "5 t7"))] reply := by
  refine read_law ∅ (by decide) (by decide) (by decide +kernel) (by decide) rfl ?_
  have h5 : tOf (some (hitWith (ascii "5 t5"))) = some 5 := by decide +kernel
  have h7 : tOf (some (hitWith (ascii "5 t7"))) = some 7 := by decide +kernel
  intro o ho hhit z hz
  simp only [List.mem_cons, List.not_mem_nil, or_false] at ho
  rcases ho with rfl | rfl | rfl
  · exact absurd hhit (by decide)
  · rw [h5, Option.some.injEq] at hz
    unfold FitsI64
    omega
  · rw [h7, Option.some.injEq] at hz
    unfold FitsI64
    omega

/-! ### Merges without a winner -/

/-- What a reply tells the client. -/
def replyStatus : Reply → Status
  | .response res => classify (some res)
  | .text bytes =>
      if hasPrefix bytes (ascii "SERVER_ERROR") then .error
      else if bytes = missReply then .miss
      else .hit

/-- A reply degrades to a miss: it is an error only if every backend failed, and a miss in every
other case. -/
structure DegradesToMiss (entries : List LuaEntry) (reply : Reply) : Prop where
  error : replyStatus reply = .error → ∀ e ∈ entries, e.status = .error
  miss : ¬(∀ e ∈ entries, e.status = .error) → replyStatus reply = .miss

/-- The reply without a winner: a miss if there is one, and otherwise an error. -/
theorem noWinner_cases (entries : List LuaEntry) (hc : ∀ e ∈ entries, Consistent e) :
    ((∃ e ∈ entries, e.status = .miss) ∧
      ∃ r, noWinner entries = .response r ∧ classify (some r) = .miss) ∨
    ((∀ e ∈ entries, e.status ≠ .miss) ∧
      ((∃ r, noWinner entries = .response r ∧ classify (some r) = .error) ∨
        noWinner entries = .text allReadErr)) := by
  unfold noWinner
  by_cases hmiss : ∃ e ∈ entries, e.status = .miss
  · obtain ⟨i, e, r, hfirst, hr, hreply⟩ := noWinnerFrom_of_miss none hc hmiss
    have he : classify e.res = .miss := (hc e (List.mem_of_getElem? hfirst.get)).symm.trans hfirst.holds
    exact Or.inl ⟨hmiss, r, hreply, hr ▸ he⟩
  · have hno : ∀ e ∈ entries, e.status ≠ .miss := fun e he hm => hmiss ⟨e, he, hm⟩
    refine Or.inr ⟨hno, ?_⟩
    cases noWinnerFrom_of_no_miss hno with
    | inl hfound =>
        obtain ⟨i, e, r, hfirst, hr, hreply⟩ := hfound
        have he : classify e.res = .error :=
          (hc e (List.mem_of_getElem? hfirst.get)).symm.trans hfirst.holds.1
        exact Or.inl ⟨r, hreply, hr ▸ he⟩
    | inr hnone => exact Or.inr hnone.2

theorem replyStatus_noWinner_of_miss (entries : List LuaEntry) (hc : ∀ e ∈ entries, Consistent e)
    (h : ∃ e ∈ entries, e.status = .miss) : replyStatus (noWinner entries) = .miss := by
  obtain ⟨-, r, hreply, hr⟩ | ⟨hno, -⟩ := noWinner_cases entries hc
  · rw [hreply]
    exact hr
  · obtain ⟨e, he, hm⟩ := h
    exact absurd hm (hno e he)

theorem replyStatus_noWinner_of_no_miss (entries : List LuaEntry) (hc : ∀ e ∈ entries, Consistent e)
    (h : ∀ e ∈ entries, e.status ≠ .miss) : replyStatus (noWinner entries) = .error := by
  obtain ⟨⟨e, he, hm⟩, -⟩ | ⟨-, ⟨r, hreply, hr⟩ | hreply⟩ := noWinner_cases entries hc
  · exact absurd hm (h e he)
  · rw [hreply]
    exact hr
  · rw [hreply]
    decide +kernel

/-- A read whose merge yields no winner degrades to a miss exactly when some backend missed or
every backend failed. -/
theorem degrades_to_miss_iff {table : WasmTable} {mergeName : Bytes} {poolNames : List Bytes}
    {key : Bytes} {results : List (Option Response)} (hkey : 35 ∉ key)
    (hmiss : dispatch table mergeName (build key poolNames results) = .ok .miss) :
    ∃ reply, readHandler table mergeName poolNames key results = .ok reply ∧
      (DegradesToMiss (build key poolNames results) reply ↔
        (∃ e ∈ build key poolNames results, e.status = .miss) ∨
          ∀ e ∈ build key poolNames results, e.status = .error) := by
  refine ⟨_, readHandler_eq hkey hmiss, ?_⟩
  unfold replyFor
  by_cases h : ∃ e ∈ build key poolNames results, e.status = .miss
  · have hs := replyStatus_noWinner_of_miss _ consistent_of_mem_build h
    refine ⟨fun _ => .inl h, fun _ => ⟨?_, fun _ => hs⟩⟩
    intro herr
    rw [hs] at herr
    exact absurd herr (by decide)
  · have hs := replyStatus_noWinner_of_no_miss (build key poolNames results) consistent_of_mem_build
      fun e he hm => h ⟨e, he, hm⟩
    refine ⟨fun hd => .inr (hd.error hs), ?_⟩
    rintro (hm | herr)
    · exact absurd hm h
    · exact ⟨fun _ => herr, fun hne => absurd herr hne⟩

/-- A module that finds no winner on any input, as one that traps does. -/
def missMerge : Merge := ⟨fun _ => .miss, []⟩

/-- The table with that module alone. -/
def missTable : WasmTable := (∅ : WasmTable).insert (ascii "udf1") missMerge

/-- A pool that does not answer and one that misses. -/
def mixedResults : List (Option Response) := [none, some ⟨true, false, none, none, none⟩]

theorem degrades_to_miss_mixed : ∃ reply,
    readHandler missTable (ascii "udf1") [ascii "a", ascii "b"] (ascii "k") mixedResults = .ok reply ∧
      (DegradesToMiss (build (ascii "k") [ascii "a", ascii "b"] mixedResults) reply ↔
        (∃ e ∈ build (ascii "k") [ascii "a", ascii "b"] mixedResults, e.status = .miss) ∨
          ∀ e ∈ build (ascii "k") [ascii "a", ascii "b"] mixedResults, e.status = .error) :=
  degrades_to_miss_iff (by decide) (by decide +kernel)

/-- One pool, which hits; the module finds no winner, and the client gets an error. -/
theorem hit_becomes_error :
    dispatch missTable (ascii "udf1") (build (ascii "k") [ascii "a"] [some (hitWith (ascii "5"))]) =
      .ok .miss ∧
    readHandler missTable (ascii "udf1") [ascii "a"] (ascii "k") [some (hitWith (ascii "5"))] =
      .ok (.text allReadErr) ∧
    ¬DegradesToMiss (build (ascii "k") [ascii "a"] [some (hitWith (ascii "5"))]) (.text allReadErr) := by
  refine ⟨by decide +kernel, by decide +kernel, ?_⟩
  intro h
  have herr := h.error (by decide +kernel)
  exact absurd herr (by decide +kernel)

end McGateway.Read
