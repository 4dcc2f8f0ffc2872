import Mathlib

/-! # Watched values

A value lives on a server, and a client keeps a copy of it.  The server reports every version; the
client receives the versions in order, though it may skip some (after a reconnect it sees the latest
ones only).  `Watch.Tracks` is the invariant: the last version on its way is the current one, so once
nothing is on its way the copy is current. -/

/-- A value on a server, with a client that watches it. -/
structure Watch (α : Type) where
  /-- The versions before the current one. -/
  past : List α
  server : α
  /-- The versions on their way to the client, oldest first. -/
  feed : List α
  cache : α

namespace Watch

variable {α : Type} {w w' : Watch α}

/-- Every version the server has held. -/
def versions (w : Watch α) : List α := w.server :: w.past

/-- A client that has just connected. -/
def fresh (past : List α) (server : α) : Watch α := ⟨past, server, [], server⟩

/-- The value changes on the server. -/
def edit (w : Watch α) (v : α) : Watch α := ⟨w.server :: w.past, v, w.feed ++ [v], w.cache⟩

/-- The client lists the value anew. -/
def sync (w : Watch α) : Watch α := fresh w.past w.server

/-- A version arrives; those before it have been skipped. -/
inductive Delivers (w : Watch α) : Watch α → Prop where
  | mk (skipped : List α) (v : α) (rest : List α) (h : w.feed = skipped ++ v :: rest) :
      Delivers w ⟨w.past, w.server, rest, v⟩

structure Tracks (w : Watch α) : Prop where
  latest : (w.cache :: w.feed).getLast? = some w.server
  real : ∀ v ∈ w.cache :: w.feed, v ∈ w.versions

theorem tracks_fresh (past : List α) (v : α) : (fresh past v).Tracks :=
  ⟨rfl, by simp [fresh, versions]⟩

theorem Tracks.sync (w : Watch α) : w.sync.Tracks := tracks_fresh _ _

theorem Tracks.edit (h : w.Tracks) (v : α) : (w.edit v).Tracks := by
  constructor
  · show (w.cache :: (w.feed ++ [v])).getLast? = some v
    rw [← List.cons_append, List.getLast?_append]
    rfl
  · intro u hu
    show u ∈ v :: (w.server :: w.past)
    have hmem : u ∈ (w.cache :: w.feed) ++ [v] := hu
    cases List.mem_append.mp hmem with
    | inl hold => exact List.mem_cons_of_mem _ (h.real u hold)
    | inr hnew => exact List.mem_singleton.mp hnew ▸ List.mem_cons_self

theorem Tracks.delivers (h : w.Tracks) (hd : w.Delivers w') : w'.Tracks := by
  obtain ⟨skipped, v, rest, hfeed⟩ := hd
  have hlast := h.latest
  rw [hfeed, ← List.cons_append, List.getLast?_append] at hlast
  constructor
  · cases hrest : (v :: rest).getLast? with
    | none => simp at hrest
    | some last =>
        rw [hrest] at hlast
        exact hlast
  · intro u hu
    apply h.real u
    rw [hfeed, ← List.cons_append]
    exact List.mem_append_right _ hu

/-- With nothing on its way, the copy is current. -/
theorem Tracks.cache_eq (h : w.Tracks) (hfeed : w.feed = []) : w.cache = w.server := by
  have hlast := h.latest
  rw [hfeed] at hlast
  exact Option.some.inj hlast

theorem Tracks.cache_mem (h : w.Tracks) : w.cache ∈ w.versions := h.real _ List.mem_cons_self

theorem Delivers.versions (hd : w.Delivers w') : w'.versions = w.versions := by
  obtain ⟨_, _, _, _⟩ := hd
  rfl

theorem mem_versions_edit {u : α} (v : α) (h : u ∈ w.versions) : u ∈ (w.edit v).versions :=
  List.mem_cons_of_mem _ h

theorem Delivers.feed_lt (hd : w.Delivers w') : w'.feed.length < w.feed.length := by
  obtain ⟨skipped, v, rest, hfeed⟩ := hd
  rw [hfeed]
  simp only [List.length_append, List.length_cons]
  omega

/-- A client that is behind can catch up in one delivery. -/
theorem exists_delivers (hfeed : w.feed ≠ []) :
    ∃ w', w.Delivers w' ∧ w'.feed = [] ∧ w'.server = w.server ∧ w'.past = w.past := by
  refine ⟨⟨w.past, w.server, [], w.feed.getLast hfeed⟩, ?_, rfl, rfl, rfl⟩
  exact .mk w.feed.dropLast _ [] (List.dropLast_append_getLast hfeed).symm

end Watch
