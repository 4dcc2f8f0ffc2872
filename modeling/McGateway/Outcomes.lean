import McGateway.ReadLaw

/-! # The outcome of a read (`read_outcome` of `lib.rs`)

The native side labels a read by its outcome before the handler has chosen the reply, and so makes
the choice a second time, on the projected entries.  `readOutcome_eq_iff` says when the two
agree: always, except when the merge picks an entry without a response while another pool missed.

The projection itself succeeds exactly if the pools are named in UTF-8 and the `t` flags of the hits
can be converted (`exists_project_build_iff`). -/

namespace McGateway.Read

open McGateway.Core
open Bytes (ascii hasPrefix validUtf8)

def statusLabel : Status → Bytes
  | .hit => ascii "hit"
  | .miss => ascii "miss"
  | .error => ascii "error"

/-- The closure `no_winner`. -/
def noWinnerOutcome (owned : List Entry) : Bytes :=
  if owned.any fun e => e.status = .miss then ascii "miss" else ascii "error"

def readOutcome (result : MergeResult) (owned : List Entry) : Bytes :=
  match result with
  | .synthesized _ => ascii "hit"
  | .winner i =>
      match (owned[i]?).map Entry.status with
      | some status => statusLabel status
      | none => noWinnerOutcome owned
  | .miss => noWinnerOutcome owned

/-- The class of a reply: a response by its status, `VA` is a hit, `EN` is a miss, and any other text
an error. -/
def replyClass : Reply → Status
  | .response res => classify (some res)
  | .text bytes =>
      if hasPrefix bytes (ascii "VA") then .hit
      else if bytes = missReply then .miss
      else .error

theorem statusLabel_injective : Function.Injective statusLabel := by
  intro s s' h
  cases s <;> cases s' <;> first | rfl | exact absurd h (by decide)

/-! ### The projected entries -/

/-- What the native module converts, and what it makes of it. -/
theorem projectEntry_ok {e : LuaEntry} {o : Entry} (h : projectEntry e = .ok o) :
    validUtf8 e.pool = true ∧ (∀ z, e.t = some z → (toI64 z).isSome) ∧
      o = ⟨e.key, e.pool, e.status, e.t.bind toI64, e.value, e.line⟩ := by
  unfold projectEntry at h
  cases ht : e.t with
  | none =>
      simp only [ht] at h
      split_ifs at h with hpool
      exact ⟨hpool, by simp, (Except.ok.inj h).symm⟩
  | some z =>
      cases hz : toI64 z with
      | none => simp [ht, hz] at h
      | some t =>
          simp only [ht, hz] at h
          split_ifs at h with hpool
          refine ⟨hpool, by simp [hz], ?_⟩
          rw [Option.bind_some, hz]
          exact (Except.ok.inj h).symm

/-- What the boundary converts: the integers that fit, and the floats that round up to the least. -/
def ReachesI64 (z : ℤ) : Prop := -2 ^ 63 - 1024 ≤ z ∧ z < 2 ^ 63

theorem isSome_toI64 {z : ℤ} : (toI64 z).isSome ↔ ReachesI64 z := by
  unfold toI64 ReachesI64
  split_ifs with hfits hround
  · simp only [Option.isSome_some, true_iff]
    omega
  · simp only [Option.isSome_some, true_iff]
    omega
  · simp only [Option.isSome_none, Bool.false_eq_true, false_iff]
    omega

theorem exists_projectEntry_iff {e : LuaEntry} :
    (∃ o, projectEntry e = .ok o) ↔ validUtf8 e.pool = true ∧ ∀ z, e.t = some z → ReachesI64 z := by
  constructor
  · rintro ⟨o, ho⟩
    obtain ⟨hpool, ht, -⟩ := projectEntry_ok ho
    exact ⟨hpool, fun z hz => isSome_toI64.mp (ht z hz)⟩
  · rintro ⟨hpool, ht⟩
    unfold projectEntry
    cases hz : e.t with
    | none => exact ⟨_, if_pos hpool⟩
    | some z =>
        obtain ⟨t, htz⟩ := Option.isSome_iff_exists.mp (isSome_toI64.mpr (ht z hz))
        simp only [htz]
        exact ⟨_, if_pos hpool⟩

/-- On the inputs of a read: its pools are named in UTF-8, and the flags of the hits can be
converted. -/
theorem exists_project_build_iff {key : Bytes} {poolNames : List Bytes} {results : List (Option Response)} :
    (∃ owned, project (build key poolNames results) = .ok owned) ↔
      ∀ (j : ℕ) p, poolNames[j]? = some p → validUtf8 p = true ∧
        ∀ o, results[j]? = some o → classify o = .hit → ∀ z, tOf o = some z → ReachesI64 z := by
  unfold project
  rw [Selections.exists_mapM_ok_iff]
  have hmem : ∀ e, e ∈ build key poolNames results ↔
      ∃ (j : ℕ) (p : Bytes), poolNames[j]? = some p ∧ e = make key p (results[j]?.getD none) := by
    intro e
    simp only [build, List.mem_iff_getElem?, List.getElem?_mapIdx, Option.map_eq_some_iff]
    constructor
    · rintro ⟨j, p, hp, rfl⟩
      exact ⟨j, p, hp, rfl⟩
    · rintro ⟨j, p, hp, rfl⟩
      exact ⟨j, p, hp, rfl⟩
  constructor
  · intro h j p hp
    obtain ⟨hpool, ht⟩ := exists_projectEntry_iff.mp (h _ ((hmem _).mpr ⟨j, p, hp, rfl⟩))
    refine ⟨by rwa [make_pool] at hpool, ?_⟩
    intro o ho hhit z hz
    rw [ho, Option.getD_some, make_t_of_hit hhit] at ht
    exact ht z hz
  · intro h e he
    obtain ⟨j, p, hp, rfl⟩ := (hmem e).mp he
    obtain ⟨hpool, ht⟩ := h j p hp
    rw [exists_projectEntry_iff, make_pool]
    refine ⟨hpool, ?_⟩
    intro z hz
    by_cases hhit : classify (results[j]?.getD none) = .hit
    · rw [make_t_of_hit hhit] at hz
      cases ho : results[j]? with
      | none =>
          rw [ho] at hhit
          cases hhit
      | some o =>
          rw [ho] at hhit hz
          exact ht o ho hhit z hz
    · rw [make_t_of_not_hit hhit] at hz
      cases hz

theorem project_forall₂ {entries : List LuaEntry} {owned : List Entry} (h : project entries = .ok owned) :
    List.Forall₂ (fun e o => projectEntry e = .ok o) entries owned :=
  Selections.forall₂_of_mapM_ok h

theorem project_status {entries : List LuaEntry} {owned : List Entry} (h : project entries = .ok owned) :
    owned.map Entry.status = entries.map LuaEntry.status := by
  have hstatus : List.Forall₂ (fun e o => Entry.status o = LuaEntry.status e) entries owned := by
    refine (project_forall₂ h).imp ?_
    intro e o ho
    rw [(projectEntry_ok ho).2.2]
  rw [← List.forall₂_eq_eq_eq, List.forall₂_map_left_iff, List.forall₂_map_right_iff]
  exact hstatus.flip

/-! ### The two choices -/

section
variable {entries : List LuaEntry} {owned : List Entry}

theorem status_getElem? (h : owned.map Entry.status = entries.map LuaEntry.status) (i : ℕ) :
    (owned[i]?).map Entry.status = (entries[i]?).map LuaEntry.status := by
  rw [← List.getElem?_map, h, List.getElem?_map]

theorem noWinnerOutcome_eq_ite (h : owned.map Entry.status = entries.map LuaEntry.status) :
    noWinnerOutcome owned =
      statusLabel (if ∃ e ∈ entries, e.status = .miss then .miss else .error) := by
  have hany : (owned.any fun e => e.status = .miss) = entries.any fun e => e.status = .miss := by
    have hcomp := congrArg (List.any · (· = Status.miss)) h
    simpa [List.any_map, Function.comp_def] using hcomp
  unfold noWinnerOutcome
  rw [hany]
  by_cases hmiss : ∃ e ∈ entries, e.status = .miss
  · rw [if_pos hmiss, if_pos (by simpa using hmiss)]
    rfl
  · rw [if_neg hmiss, if_neg (by simpa using hmiss)]
    rfl

theorem replyClass_noWinner (hc : ∀ e ∈ entries, Consistent e) :
    replyClass (noWinner entries) = if ∃ e ∈ entries, e.status = .miss then .miss else .error := by
  obtain ⟨hmiss, r, hreply, hr⟩ | ⟨hno, hreply⟩ := noWinner_cases entries hc
  · rw [if_pos hmiss, hreply]
    exact hr
  · have hmiss : ¬∃ e ∈ entries, e.status = .miss := fun ⟨e, he, hm⟩ => hno e he hm
    rw [if_neg hmiss]
    obtain ⟨r, hreply, hr⟩ | hreply := hreply
    · rw [hreply]
      exact hr
    · rw [hreply]
      decide +kernel

/-- An entry with a response, chosen: both sides go by its status. -/
theorem readOutcome_of_response {i : ℕ} {e : LuaEntry} {res : Response}
    (h : owned.map Entry.status = entries.map LuaEntry.status) (he : entries[i]? = some e)
    (hc : Consistent e) (hres : e.res = some res) :
    readOutcome (.winner i) owned = statusLabel (replyClass (replyFor entries (.winner i))) := by
  have hstatus := status_getElem? h i
  rw [he, Option.map_some] at hstatus
  have hreply : replyFor entries (.winner i) = .response res := by simp [replyFor, he, hres]
  rw [hreply, replyClass, ← hres, ← hc]
  simp [readOutcome, hstatus]

/-- The chosen entry is an error, so a miss is at another index. -/
theorem exists_other_miss_iff {i : ℕ} {e : LuaEntry} (he : entries[i]? = some e) (herr : e.status = .error) :
    (∃ j e', j ≠ i ∧ entries[j]? = some e' ∧ e'.status = .miss) ↔ ∃ e' ∈ entries, e'.status = .miss := by
  constructor
  · rintro ⟨j, e', -, hj, hm⟩
    exact ⟨e', List.mem_of_getElem? hj, hm⟩
  · rintro ⟨e', he', hm⟩
    obtain ⟨j, hj⟩ := List.mem_iff_getElem?.mp he'
    refine ⟨j, e', ?_, hj, hm⟩
    rintro rfl
    obtain rfl : e = e' := by simpa [he] using hj
    rw [herr] at hm
    cases hm

/-- An entry without a response, chosen: the native side goes by its status, and the handler looks
for another reply. -/
theorem readOutcome_of_no_response {i : ℕ} {e : LuaEntry}
    (h : owned.map Entry.status = entries.map LuaEntry.status) (he : entries[i]? = some e)
    (hc : ∀ e ∈ entries, Consistent e) (hres : e.res = none) :
    readOutcome (.winner i) owned = statusLabel (replyClass (replyFor entries (.winner i))) ↔
      ¬∃ j e', j ≠ i ∧ entries[j]? = some e' ∧ e'.status = .miss := by
  have herr : e.status = .error := by
    rw [hc e (List.mem_of_getElem? he), hres]
    rfl
  have hget := status_getElem? h i
  rw [he, Option.map_some, herr] at hget
  have hout : readOutcome (.winner i) owned = statusLabel .error := by simp [readOutcome, hget]
  have hreply : replyFor entries (.winner i) = noWinner entries := by simp [replyFor, he, hres]
  rw [hout, hreply, replyClass_noWinner hc, exists_other_miss_iff he herr]
  split_ifs with hmiss
  · refine ⟨fun h => absurd (statusLabel_injective h) (by decide), fun h => absurd hmiss h⟩
  · exact ⟨fun _ => hmiss, fun _ => rfl⟩

/-- The winner is an entry without a response, while some other entry is a miss. -/
def PicksUnanswered (entries : List LuaEntry) (result : MergeResult) : Prop :=
  ∃ i e, result = .winner i ∧ entries[i]? = some e ∧ e.res = none ∧
    ∃ j e', j ≠ i ∧ entries[j]? = some e' ∧ e'.status = .miss

/-- The label mirrors the reply, except exactly in that case. -/
theorem readOutcome_eq_iff (hc : ∀ e ∈ entries, Consistent e) (hproject : project entries = .ok owned)
    (result : MergeResult) :
    readOutcome result owned = statusLabel (replyClass (replyFor entries result)) ↔
      ¬PicksUnanswered entries result := by
  have hstatus := project_status hproject
  have hno : noWinnerOutcome owned = statusLabel (replyClass (noWinner entries)) := by
    rw [noWinnerOutcome_eq_ite hstatus, replyClass_noWinner hc]
  unfold PicksUnanswered
  cases result with
  | synthesized bytes =>
      have hreply : replyClass (replyFor entries (.synthesized bytes)) = .hit := by
        simp [replyFor, replyClass, hasPrefix, ascii]
      simp [readOutcome, hreply, statusLabel]
  | miss => simpa [readOutcome, replyFor] using hno
  | winner i =>
      cases he : entries[i]? with
      | none =>
          have hget := status_getElem? hstatus i
          rw [he, Option.map_none] at hget
          simpa [readOutcome, hget, replyFor, he] using hno
      | some e =>
          have hwinner : ∀ Q : ℕ → Prop, (∃ i' e', MergeResult.winner i = .winner i' ∧
              entries[i']? = some e' ∧ e'.res = none ∧ Q i') ↔ e.res = none ∧ Q i := by
            intro Q
            simp [he]
          rw [hwinner]
          cases hres : e.res with
          | some res =>
              have hsame := readOutcome_of_response hstatus he (hc e (List.mem_of_getElem? he)) hres
              simpa using hsame
          | none => simpa using readOutcome_of_no_response hstatus he hc hres

end

end McGateway.Read
