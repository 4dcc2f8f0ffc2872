import McGateway.ByteStrings

/-! # Lexical paths

Unix path names as byte strings, with the functions of a path library that look at the text only:
`isAbs`, `clean`, `join` and `dir` (those of Go's `path/filepath`).  `clean` is the library's loop: it
writes to a buffer of bytes, and a `..` element takes the buffer back to its last separator.

What a path means is a `location`: the names of the directories that a walk from the root of the
file system goes down, where `..` leads to the parent and the parent of the root is the root.  For
absolute paths `clean` prints the location (`clean_eq_print`) and keeps it (`location_clean`), so that
containment, which is a statement about cleaned strings (`Within`), follows from a statement about
locations (`within_of_location`). -/

open Bytes (ascii hasPrefix split)

namespace UnixPath

def isAbs (path : Bytes) : Bool := hasPrefix path (ascii "/")

/-! ### Cleaning -/

/-- What `clean` has written, the last byte first, and the length that `..` cannot go below. -/
structure Buffer where
  out : Bytes
  dotdot : ℕ
deriving DecidableEq, Repr

/-- Remove bytes up to the last separator, that one included. -/
def backtrack (dotdot : ℕ) : Bytes → Bytes
  | [] => []
  | c :: out => if dotdot < out.length ∧ c ≠ 47 then backtrack dotdot out else out

/-- One element of the path. -/
def cleanStep (rooted : Bool) (b : Buffer) (elem : Bytes) : Buffer :=
  if elem = [] ∨ elem = ascii "." then b
  else if elem = ascii ".." then
    if b.dotdot < b.out.length then { b with out := backtrack b.dotdot b.out }
    else if rooted then b
    else
      let out := (ascii "..").reverse ++ if b.out = [] then [] else 47 :: b.out
      ⟨out, out.length⟩
  else
    let start := if rooted then 1 else 0
    { b with out := elem.reverse ++ if b.out.length = start then b.out else 47 :: b.out }

/-- The shortest path equivalent to `path` by its text alone. -/
def clean (path : Bytes) : Bytes :=
  if path = [] then ascii "."
  else
    let rooted := isAbs path
    let start : Buffer := if rooted then ⟨[47], 1⟩ else ⟨[], 0⟩
    let out := ((split 47 path).foldl (cleanStep rooted) start).out
    if out = [] then ascii "." else out.reverse

/-- The cleaned concatenation, without the empty elements at the front. -/
def join (elems : List Bytes) : Bytes :=
  match elems.dropWhile (· = []) with
  | [] => []
  | elem :: elems => clean ((ascii "/").intercalate (elem :: elems))

/-- All but the last element of the path, cleaned. -/
def dir (path : Bytes) : Bytes := clean (path.reverse.dropWhile (· ≠ 47)).reverse

/-- `path` is `root` or strictly below it, after cleaning. -/
def Within (root path : Bytes) : Prop :=
  clean path = clean root ∨
    ∃ rest, rest ≠ [] ∧
      clean path = (if clean root = ascii "/" then clean root else clean root ++ ascii "/") ++ rest

/-! ### Locations -/

/-- One element of a walk. -/
def walkStep (dirs : List Bytes) (elem : Bytes) : List Bytes :=
  if elem = [] ∨ elem = ascii "." then dirs
  else if elem = ascii ".." then dirs.dropLast
  else dirs ++ [elem]

/-- Where the walk along the path ends. -/
def location (path : Bytes) : List Bytes := (split 47 path).foldl walkStep []

/-- What the name of a directory entry may be. -/
def IsName (b : Bytes) : Prop := b ≠ [] ∧ b ≠ ascii "." ∧ b ≠ ascii ".." ∧ 47 ∉ b

instance (b : Bytes) : Decidable (IsName b) := inferInstanceAs (Decidable (_ ∧ _ ∧ _ ∧ _))

/-- The location as an absolute path. -/
def print (dirs : List Bytes) : Bytes := if dirs = [] then ascii "/" else dirs.flatMap (47 :: ·)

theorem walkStep_isName {dirs : List Bytes} {elem : Bytes} (h : ∀ d ∈ dirs, IsName d) (helem : 47 ∉ elem) :
    ∀ d ∈ walkStep dirs elem, IsName d := by
  unfold walkStep
  split_ifs with hskip hup
  · exact h
  · intro d hd
    exact h d (List.mem_of_mem_dropLast hd)
  · intro d hd
    rw [not_or] at hskip
    cases List.mem_append.mp hd with
    | inl hd => exact h d hd
    | inr hd =>
        obtain rfl := List.mem_singleton.mp hd
        exact ⟨hskip.1, hskip.2, hup, helem⟩

theorem foldl_walkStep_isName : ∀ {elems dirs : List Bytes}, (∀ d ∈ dirs, IsName d) → (∀ e ∈ elems, 47 ∉ e) →
    ∀ d ∈ elems.foldl walkStep dirs, IsName d
  | [], _, h, _ => h
  | _ :: _, _, h, helems => by
      obtain ⟨helem, helems'⟩ := List.forall_mem_cons.mp helems
      rw [List.foldl_cons]
      exact foldl_walkStep_isName (walkStep_isName h helem) helems'

theorem location_isName (path : Bytes) : ∀ d ∈ location path, IsName d :=
  foldl_walkStep_isName (by simp) fun _ he => Bytes.not_mem_of_mem_split he

/-- Without `..` a walk only goes down. -/
theorem foldl_walkStep_of_not_mem : ∀ {elems dirs : List Bytes}, ascii ".." ∉ elems →
    elems.foldl walkStep dirs = dirs ++ elems.filter fun elem => elem ≠ [] ∧ elem ≠ ascii "."
  | [], dirs, _ => by simp
  | elem :: elems, dirs, h => by
      rw [List.mem_cons, not_or] at h
      rw [List.foldl_cons, foldl_walkStep_of_not_mem h.2]
      unfold walkStep
      split_ifs with hskip hup
      · rw [List.filter_cons_of_neg]
        simpa [or_iff_not_imp_left] using hskip
      · exact absurd hup.symm h.1
      · rw [not_or] at hskip
        rw [List.filter_cons_of_pos (by simpa using hskip)]
        simp

/-- The location of a path that goes on after a separator. -/
theorem location_append (r t : Bytes) : location (r ++ 47 :: t) = (split 47 t).foldl walkStep (location r) := by
  rw [location, Bytes.split_append, List.foldl_append]
  rfl

/-! ### Printing locations -/

/-- The pieces of names after a string are those of the string and the names. -/
theorem split_flatMap : ∀ {dirs : List Bytes} (s : Bytes), (∀ d ∈ dirs, 47 ∉ d) →
    split 47 (s ++ dirs.flatMap (47 :: ·)) = split 47 s ++ dirs
  | [], s, _ => by simp
  | d :: dirs, s, h => by
      obtain ⟨hd, hdirs⟩ := List.forall_mem_cons.mp h
      have hnext := split_flatMap (s ++ 47 :: d) hdirs
      rw [Bytes.split_append, Bytes.split_of_not_mem hd] at hnext
      simpa using hnext

theorem foldl_walkStep_of_isName {elems dirs : List Bytes} (h : ∀ e ∈ elems, IsName e) :
    elems.foldl walkStep dirs = dirs ++ elems := by
  rw [foldl_walkStep_of_not_mem fun hup => (h _ hup).2.2.1 rfl, List.filter_eq_self.mpr]
  intro e he
  obtain ⟨hne, hdot, -⟩ := h e he
  simp [hne, hdot]

theorem location_flatMap {dirs : List Bytes} (h : ∀ d ∈ dirs, IsName d) :
    location (dirs.flatMap (47 :: ·)) = dirs := by
  have hsplit := split_flatMap [] fun d hd => (h d hd).2.2.2
  rw [List.nil_append] at hsplit
  rw [location, hsplit, List.foldl_append, foldl_walkStep_of_isName h]
  rfl

theorem location_print {dirs : List Bytes} (h : ∀ d ∈ dirs, IsName d) : location (print dirs) = dirs := by
  unfold print
  split_ifs with hnil
  · subst hnil
    decide
  · exact location_flatMap h

/-- The bytes of a name go one by one, and the separator before it. -/
theorem backtrack_append {n : ℕ} {out : Bytes} (hn : n ≤ out.length) : ∀ {t : Bytes}, 47 ∉ t →
    backtrack n (t ++ 47 :: out) = out
  | [], _ => by simp [backtrack]
  | c :: t, ht => by
      rw [List.mem_cons, not_or] at ht
      have hlong : n < (t ++ 47 :: out).length := by
        rw [List.length_append, List.length_cons]
        omega
      rw [List.cons_append, backtrack, if_pos ⟨hlong, Ne.symm ht.1⟩, backtrack_append hn ht.2]

/-- The separator at the front of the path stays. -/
theorem backtrack_first {out : Bytes} : ∀ {t : Bytes}, t ≠ [] → 47 ∉ t → backtrack out.length (t ++ out) = out
  | [c], _, _ => by simp [backtrack]
  | c :: c' :: t, _, ht => by
      rw [List.mem_cons, not_or] at ht
      have hlong : out.length < (c' :: t ++ out).length := by
        rw [List.length_append, List.length_cons]
        omega
      rw [List.cons_append, backtrack, if_pos ⟨hlong, Ne.symm ht.1⟩, backtrack_first (by simp) ht.2]

theorem print_concat (dirs : List Bytes) (name : Bytes) :
    print (dirs ++ [name]) = dirs.flatMap (47 :: ·) ++ 47 :: name := by
  simp [print]

theorem print_of_ne_nil {dirs : List Bytes} (h : dirs ≠ []) : print dirs = dirs.flatMap (47 :: ·) := if_neg h

theorem one_lt_length_print {dirs : List Bytes} (h : ∀ d ∈ dirs, IsName d) (hne : dirs ≠ []) :
    1 < (print dirs).length := by
  obtain ⟨init, name, rfl⟩ := (List.eq_nil_or_concat' dirs).resolve_left hne
  have hname := List.length_pos_iff.mpr (h name (by simp)).1
  rw [print_concat, List.length_append, List.length_cons]
  omega

/-- The name after the last separator goes. -/
theorem backtrack_print {dirs : List Bytes} {name : Bytes} (hdirs : ∀ d ∈ dirs, IsName d) (hname : IsName name) :
    backtrack 1 (print (dirs ++ [name])).reverse = (print dirs).reverse := by
  have hrev : (print (dirs ++ [name])).reverse = name.reverse ++ 47 :: (dirs.flatMap (47 :: ·)).reverse := by
    rw [print_concat]
    simp
  have hslash : 47 ∉ name.reverse := fun h => hname.2.2.2 (List.mem_reverse.mp h)
  rw [hrev]
  by_cases hnil : dirs = []
  · subst hnil
    exact @backtrack_first [47] _ (by simpa using hname.1) hslash
  · have hlong := one_lt_length_print hdirs hnil
    rw [print_of_ne_nil hnil] at hlong ⊢
    rw [backtrack_append _ hslash]
    rw [List.length_reverse]
    omega

/-- The buffer of an absolute path holds the location of the walk so far. -/
theorem cleanStep_print {dirs : List Bytes} {elem : Bytes} (hdirs : ∀ d ∈ dirs, IsName d) :
    cleanStep true ⟨(print dirs).reverse, 1⟩ elem = ⟨(print (walkStep dirs elem)).reverse, 1⟩ := by
  simp only [cleanStep, walkStep, if_true, List.length_reverse]
  by_cases hskip : elem = [] ∨ elem = ascii "."
  · rw [if_pos hskip, if_pos hskip]
  rw [if_neg hskip, if_neg hskip]
  by_cases hnil : dirs = []
  · -- at the root
    subst hnil
    by_cases hup : elem = ascii ".."
    · rw [if_pos hup, if_pos hup]
      rfl
    · rw [if_neg hup, if_neg hup]
      simp [print, ascii]
  · have hlong := one_lt_length_print hdirs hnil
    split_ifs with hup hone
    · obtain ⟨init, name, rfl⟩ := (List.eq_nil_or_concat' dirs).resolve_left hnil
      obtain ⟨hinit, hname⟩ := List.forall_mem_append.mp hdirs
      rw [List.dropLast_concat, backtrack_print hinit (hname name List.mem_cons_self)]
    · omega
    · rw [print_concat, ← print_of_ne_nil hnil]
      simp

theorem foldl_cleanStep_print : ∀ {elems dirs : List Bytes}, (∀ d ∈ dirs, IsName d) → (∀ e ∈ elems, 47 ∉ e) →
    elems.foldl (cleanStep true) ⟨(print dirs).reverse, 1⟩ = ⟨(print (elems.foldl walkStep dirs)).reverse, 1⟩
  | [], _, _, _ => rfl
  | elem :: elems, dirs, hdirs, helems => by
      obtain ⟨helem, helems'⟩ := List.forall_mem_cons.mp helems
      rw [List.foldl_cons, List.foldl_cons, cleanStep_print hdirs,
        foldl_cleanStep_print (walkStep_isName hdirs helem) helems']

theorem print_ne_nil (dirs : List Bytes) : print dirs ≠ [] := by
  cases dirs with
  | nil => decide
  | cons d dirs => simp [print]

theorem isAbs_print (dirs : List Bytes) : isAbs (print dirs) = true := by
  cases dirs with
  | nil => decide
  | cons d dirs => simp [print, isAbs, hasPrefix, ascii, List.isPrefixOf]

theorem ne_nil_of_isAbs {path : Bytes} (h : isAbs path = true) : path ≠ [] := by
  intro hnil
  subst hnil
  cases h

theorem isAbs_append {path : Bytes} (h : isAbs path = true) (rest : Bytes) : isAbs (path ++ rest) = true := by
  obtain ⟨r, rfl⟩ := Bytes.hasPrefix_iff.mp h
  rw [isAbs, List.append_assoc]
  exact Bytes.hasPrefix_append _ _

/-! ### The functions of the library -/

section absolute
variable {path root : Bytes}

theorem clean_eq_print (h : isAbs path = true) : clean path = print (location path) := by
  have hstart : (split 47 path).foldl (cleanStep true) ⟨[47], 1⟩ = ⟨(print (location path)).reverse, 1⟩ :=
    @foldl_cleanStep_print _ [] (by simp) fun _ he => Bytes.not_mem_of_mem_split he
  unfold clean
  rw [if_neg (ne_nil_of_isAbs h)]
  simp only [h, if_true, hstart]
  rw [if_neg (by simpa using print_ne_nil _), List.reverse_reverse]

example : clean (ascii "/a//./b/../c/") = ascii "/a/c" := by decide

theorem location_clean (h : isAbs path = true) : location (clean path) = location path := by
  rw [clean_eq_print h, location_print (location_isName path)]

theorem isAbs_clean (h : isAbs path = true) : isAbs (clean path) = true := by
  rw [clean_eq_print h]
  exact isAbs_print _

theorem join_pair (h : root ≠ []) (name : Bytes) : join [root, name] = clean (root ++ 47 :: name) := by
  simp [join, h, List.intercalate, ascii]

theorem location_join (h : isAbs root = true) (name : Bytes) :
    location (join [root, name]) = (split 47 name).foldl walkStep (location root) := by
  rw [join_pair (ne_nil_of_isAbs h), location_clean (isAbs_append h _), location_append]

theorem dir_append {t : Bytes} (ht : 47 ∉ t) (r : Bytes) : dir (r ++ 47 :: t) = clean (r ++ [47]) := by
  have hdrop : (t.reverse ++ 47 :: r.reverse).dropWhile (· ≠ 47) = 47 :: r.reverse := by
    rw [List.dropWhile_append_of_pos]
    · simp
    · intro c hc
      simp only [decide_eq_true_eq]
      intro he
      exact ht (he ▸ List.mem_reverse.mp hc)
  unfold dir
  rw [List.reverse_append, List.reverse_cons, List.append_assoc, List.singleton_append, hdrop]
  simp

/-- The directory of a cleaned path is its parent. -/
theorem dir_print {dirs : List Bytes} (h : ∀ d ∈ dirs, IsName d) : dir (print dirs) = print dirs.dropLast := by
  by_cases hnil : dirs = []
  · subst hnil
    decide
  · obtain ⟨init, name, rfl⟩ := (List.eq_nil_or_concat' dirs).resolve_left hnil
    obtain ⟨hinit, hname⟩ := List.forall_mem_append.mp h
    have habs : isAbs (init.flatMap (47 :: ·) ++ [47]) = true := by
      cases init with
      | nil => decide
      | cons d init => simp [isAbs, hasPrefix, ascii, List.isPrefixOf]
    rw [print_concat, dir_append (hname name List.mem_cons_self).2.2.2, clean_eq_print habs, location_append,
      location_flatMap hinit, List.dropLast_concat]
    rfl

example : dir (ascii "/a") = ascii "/" := by decide

theorem dir_clean (h : isAbs path = true) : dir (clean path) = print (location path).dropLast := by
  rw [clean_eq_print h, dir_print (location_isName path)]

/-- A path whose walk goes down from the location of `root`. -/
theorem within_of_location (hroot : isAbs root = true) (hpath : isAbs path = true)
    (h : location root <+: location path) : Within root path := by
  obtain ⟨below, hbelow⟩ := h
  have hnames := location_isName root
  unfold Within
  rw [clean_eq_print hroot, clean_eq_print hpath, ← hbelow]
  cases below with
  | nil => exact Or.inl (by rw [List.append_nil])
  | cons name below =>
      have hname : IsName name := by
        apply location_isName path
        rw [← hbelow]
        simp
      right
      refine ⟨name ++ below.flatMap (47 :: ·), by simp [hname.1], ?_⟩
      rw [print_of_ne_nil (by simp), List.flatMap_append]
      by_cases hnil : location root = []
      · rw [hnil]
        simp [print, ascii]
      · have hlong := one_lt_length_print hnames hnil
        rw [if_neg, print_of_ne_nil hnil]
        · simp [ascii]
        · intro he
          rw [he] at hlong
          simp [ascii] at hlong

end absolute

end UnixPath
