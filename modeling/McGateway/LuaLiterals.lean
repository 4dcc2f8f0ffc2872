import McGateway.LuaTables

/-! # Reading Lua data literals

A lexer and a parser for the data fragment of Lua 5.4: a chunk that is one `return` statement
over string literals and table constructors.

Both are machines that consume their input one symbol at a time (`lexStep`, `parseStep`), so a
run over a concatenation is the composition of the runs (`lexRun_append`, `parseRun_append`).
The lexer knows both quotes and the escapes `\a \b \f \n \r \t \v \\ \" \'`, an escaped line
break and the decimal escape `\ddd` (up to three digits, at most 255, ended by the first
non-digit); a raw line break ends the input in error, as does any byte outside the fragment.
The parser keeps the stack of open table constructors; a field is `Name = exp` or a positional
`exp`, fields are separated by `,` or `;`, and a trailing separator is allowed. -/

namespace Lua

open Bytes (ascii isSpace isDigit)

/-! ### Tokens -/

inductive Token where
  | name (s : Bytes)
  | keyword (s : Bytes)
  | str (s : Bytes)
  | lbrace
  | rbrace
  | eq
  | comma
  | semi
deriving DecidableEq, Repr

/-- The reserved words of Lua 5.4. -/
def reserved : List Bytes :=
  ["and", "break", "do", "else", "elseif", "end", "false", "for", "function", "goto", "if", "in",
    "local", "nil", "not", "or", "repeat", "return", "then", "true", "until", "while"].map ascii

def isNameStart (c : UInt8) : Bool :=
  (65 ≤ c && c ≤ 90) || (97 ≤ c && c ≤ 122) || c == 95
def isNameByte (c : UInt8) : Bool := isNameStart c || isDigit c

/-- The token of a completed word. -/
def wordToken (w : Bytes) : Token := if w ∈ reserved then .keyword w else .name w

/-! ### The lexer -/

inductive LexState where
  /-- Between tokens. -/
  | start
  /-- Inside a name or keyword. -/
  | word (w : Bytes)
  /-- Inside a literal opened by the quote `q`, with value `s` so far. -/
  | quoted (q : UInt8) (s : Bytes)
  /-- After a backslash. -/
  | escape (q : UInt8) (s : Bytes)
  /-- Inside `\ddd`, after `n` digits of value `v`. -/
  | decimal (q : UInt8) (s : Bytes) (v n : ℕ)
deriving DecidableEq, Repr

def lexStart (c : UInt8) : Option (LexState × List Token) :=
  if isSpace c then some (.start, [])
  else if isNameStart c then some (.word [c], [])
  else if c == 34 || c == 39 then some (.quoted c [], [])
  else if c == 123 then some (.start, [.lbrace])
  else if c == 125 then some (.start, [.rbrace])
  else if c == 61 then some (.start, [.eq])
  else if c == 44 then some (.start, [.comma])
  else if c == 59 then some (.start, [.semi])
  else none

def lexWord (w : Bytes) (c : UInt8) : Option (LexState × List Token) :=
  if isNameByte c then some (.word (w ++ [c]), [])
  else (lexStart c).map fun p => (p.1, wordToken w :: p.2)

def lexQuoted (q : UInt8) (s : Bytes) (c : UInt8) : Option (LexState × List Token) :=
  if c == q then some (.start, [.str s])
  else if c == 92 then some (.escape q s, [])
  else if c == 10 || c == 13 then none
  else some (.quoted q (s ++ [c]), [])

/-- The byte denoted by a one-letter escape. -/
def simpleEscape (c : UInt8) : Option UInt8 :=
  if c == 97 then some 7
  else if c == 98 then some 8
  else if c == 102 then some 12
  else if c == 110 then some 10
  else if c == 114 then some 13
  else if c == 116 then some 9
  else if c == 118 then some 11
  else if c == 92 || c == 34 || c == 39 then some c
  else if c == 10 || c == 13 then some 10
  else none

def lexEscape (q : UInt8) (s : Bytes) (c : UInt8) : Option (LexState × List Token) :=
  if isDigit c then some (.decimal q s (c.toNat - 48) 1, [])
  else (simpleEscape c).map fun b => (.quoted q (s ++ [b]), [])

def lexDecimal (q : UInt8) (s : Bytes) (v n : ℕ) (c : UInt8) : Option (LexState × List Token) :=
  if n < 3 && isDigit c then some (.decimal q s (v * 10 + (c.toNat - 48)) (n + 1), [])
  else if v ≤ 255 then lexQuoted q (s ++ [UInt8.ofNat v]) c
  else none

/-- Consume one byte: the next state and the tokens completed by it. -/
def lexStep : LexState → UInt8 → Option (LexState × List Token)
  | .start, c => lexStart c
  | .word w, c => lexWord w c
  | .quoted q s, c => lexQuoted q s c
  | .escape q s, c => lexEscape q s c
  | .decimal q s v n, c => lexDecimal q s v n c

def lexRun : LexState → Bytes → Option (LexState × List Token)
  | st, [] => some (st, [])
  | st, c :: cs => do
      let (st', ts) ← lexStep st c
      let (st'', ts') ← lexRun st' cs
      pure (st'', ts ++ ts')

/-- The token pending at the end of the input; an open literal is an error. -/
def lexFinish : LexState → Option (List Token)
  | .start => some []
  | .word w => some [wordToken w]
  | _ => none

def lex (bs : Bytes) : Option (List Token) := do
  let (st, ts) ← lexRun .start bs
  let ts' ← lexFinish st
  pure (ts ++ ts')

theorem lexRun_cons (st : LexState) (c : UInt8) (cs : Bytes) {st' : LexState} {ts : List Token}
    (h : lexStep st c = some (st', ts)) :
    lexRun st (c :: cs) = (lexRun st' cs).map fun p => (p.1, ts ++ p.2) := by
  simp only [lexRun, h]
  cases hr : lexRun st' cs <;> simp [hr]

/-- Lexing a concatenation. -/
theorem lexRun_append {st st₁ st₂ : LexState} {xs ys : Bytes} {ts us : List Token}
    (h₁ : lexRun st xs = some (st₁, ts)) (h₂ : lexRun st₁ ys = some (st₂, us)) :
    lexRun st (xs ++ ys) = some (st₂, ts ++ us) := by
  induction xs generalizing st ts with
  | nil =>
      simp only [lexRun, Option.some.injEq, Prod.mk.injEq] at h₁
      obtain ⟨rfl, rfl⟩ := h₁
      simpa using h₂
  | cons c cs ih =>
      cases hs : lexStep st c with
      | none => simp [lexRun, hs] at h₁
      | some p =>
          obtain ⟨st', ts'⟩ := p
          rw [lexRun_cons st c cs hs] at h₁
          cases hr : lexRun st' cs with
          | none => simp [hr] at h₁
          | some r =>
              obtain ⟨st'', rs⟩ := r
              simp only [hr, Option.map_some, Option.some.injEq, Prod.mk.injEq] at h₁
              obtain ⟨rfl, rfl⟩ := h₁
              rw [List.cons_append, lexRun_cons st c (cs ++ ys) hs, ih hr]
              simp [List.append_assoc]

/-! ### The parser -/

/-- An open table constructor: its fields so far, the number of positional ones, and the name
the next value is stored under (`none`: positionally). -/
structure Frame where
  fields : Table
  next : ℕ
  slot : Option Bytes
deriving Repr

def Frame.empty : Frame := ⟨[], 0, none⟩

/-- Complete the pending field with the value `v`. -/
def Frame.store (f : Frame) (v : Value) : Frame :=
  match f.slot with
  | some n => ⟨rawset f.fields (.str n) v, f.next, none⟩
  | none => ⟨rawset f.fields (.int (f.next + 1)) v, f.next + 1, none⟩

inductive ParseState where
  /-- Nothing read yet. -/
  | chunk
  /-- An expression must follow. -/
  | value (st : List Frame)
  /-- After `{` or a separator: a field or `}` may follow. -/
  | field (f : Frame) (st : List Frame)
  /-- After the name of a field: `=` must follow. -/
  | key (f : Frame) (st : List Frame)
  /-- After a field: a separator or `}` must follow. -/
  | after (f : Frame) (st : List Frame)
  /-- After the returned expression. -/
  | returned (v : Value)
  /-- After the optional `;`. -/
  | closed (v : Value)
deriving Repr

/-- Hand a completed expression to the innermost open constructor. -/
def deliver (v : Value) : List Frame → ParseState
  | [] => .returned v
  | f :: st => .after (f.store v) st

def parseStep : ParseState → Token → Option ParseState
  | .chunk, .keyword w => if w = ascii "return" then some (.value []) else none
  | .value st, .str s => some (deliver (.str s) st)
  | .value st, .lbrace => some (.field .empty st)
  | .field f st, .rbrace => some (deliver (.table f.fields) st)
  | .field f st, .name n => some (.key { f with slot := some n } st)
  | .field f st, .str s => some (deliver (.str s) (f :: st))
  | .field f st, .lbrace => some (.field .empty (f :: st))
  | .key f st, .eq => some (.value (f :: st))
  | .after f st, .comma => some (.field f st)
  | .after f st, .semi => some (.field f st)
  | .after f st, .rbrace => some (deliver (.table f.fields) st)
  | .returned v, .semi => some (.closed v)
  | _, _ => none

def parseRun : ParseState → List Token → Option ParseState
  | p, [] => some p
  | p, t :: ts => do
      let p' ← parseStep p t
      parseRun p' ts

/-- The value a complete run returns. -/
def parseFinish : ParseState → Option Value
  | .returned v => some v
  | .closed v => some v
  | _ => none

/-- Load a data chunk: the value of its `return` statement. -/
def loadLiteral (bs : Bytes) : Option Value := do
  let ts ← lex bs
  let p ← parseRun .chunk ts
  parseFinish p

theorem parseRun_append (p : ParseState) (ts us : List Token) :
    parseRun p (ts ++ us) = (parseRun p ts).bind fun q => parseRun q us := by
  induction ts generalizing p with
  | nil => rfl
  | cons t ts ih =>
      simp only [List.cons_append, parseRun]
      cases h : parseStep p t with
      | none => rfl
      | some p' => simpa [h] using ih p'

theorem parseRun_append_of_eq {p q : ParseState} {ts : List Token} (us : List Token)
    (h : parseRun p ts = some q) : parseRun p (ts ++ us) = parseRun q us := by
  rw [parseRun_append, h]
  rfl

/-! ### Positional fields -/

/-- Store several positional values. -/
def Frame.storeAll (f : Frame) (vs : List Value) : Frame :=
  ⟨f.fields ++ positional f.next vs, f.next + vs.length, f.slot⟩

@[simp] theorem Frame.storeAll_nil (f : Frame) : f.storeAll [] = f := by
  simp [Frame.storeAll, positional]

theorem Frame.storeAll_cons {f : Frame} (h : f.slot = none) (v : Value) (vs : List Value) :
    (f.store v).storeAll vs = f.storeAll (v :: vs) := by
  simp only [Frame.store, h, Frame.storeAll, positional, rawset, List.append_assoc,
    List.singleton_append, List.length_cons, Frame.mk.injEq, true_and, and_true]
  omega

theorem Frame.store_slot (f : Frame) (v : Value) : (f.store v).slot = none := by
  unfold Frame.store
  cases f.slot <;> rfl

/-- A comma-separated run of elements, each of which parses to its value from a field
position, leaves the constructor after the last one. -/
theorem parseRun_elements {α : Type} {toks : α → List Token} {val : α → Value}
    (hel : ∀ a f st, f.slot = none →
      parseRun (.field f st) (toks a) = some (.after (f.store (val a)) st)) :
    ∀ (as : List α) (f : Frame) (st : List Frame), f.slot = none →
      parseRun (.field f st) (as.flatMap fun a => toks a ++ [.comma]) =
        some (.field (f.storeAll (as.map val)) st)
  | [], f, st, _ => by simp [parseRun]
  | a :: as, f, st, hf => by
      have h1 : parseRun (.field f st) (toks a ++ [.comma]) = some (.field (f.store (val a)) st) := by
        rw [parseRun_append_of_eq _ (hel a f st hf)]
        rfl
      rw [List.flatMap_cons, parseRun_append_of_eq _ h1,
        parseRun_elements hel as (f.store (val a)) st (f.store_slot _),
        Frame.storeAll_cons hf, List.map_cons]

end Lua
