import McGateway.LuaLiterals
import McGateway.Render

/-! # The rendered configuration as a Lua literal

`renderConfig` prints pools and keyspaces as a Lua chunk; `Lua.loadLiteral` reads such chunks.
`renderConfig_loads` says that reading inverts printing for arbitrary byte strings in every
field: the chunk is well formed, is consumed completely, and its value is `configValue`, the
table with the same strings in the same order and with the optional fields present exactly
when they are set.  In particular no field content can end a literal early or absorb the text
after it.

The printed text is cut into template pieces, whose tokens are computed, and quoted strings
(`lexRun_luaQuote`); the tokens are then parsed entry by entry. -/

namespace McGateway.Operator

open Lua
open Bytes (ascii isDigit)

/-! ### Quoted strings -/

/-- The lexer is inside a double-quoted literal of value `s`, possibly at the end of a decimal
escape that is already complete. -/
def InString (st : LexState) (s : Bytes) : Prop := ∀ c, lexStep st c = lexQuoted 34 s c

theorem inString_quoted (s : Bytes) : InString (.quoted 34 s) s := fun _ => rfl

theorem digit_isDigit {k : ℕ} (h : k < 10) : isDigit (UInt8.ofNat (48 + k)) = true := by
  interval_cases k <;> rfl

theorem digit_value {k : ℕ} (h : k < 10) : (UInt8.ofNat (48 + k)).toNat - 48 = k := by
  interval_cases k <;> rfl

/-- A decimal escape denotes its byte, and the three digits end it. -/
theorem lexRun_decimalEscape {st : LexState} {s : Bytes} (h : InString st s) (c : UInt8) :
    ∃ st', InString st' (s ++ [c]) ∧ lexRun st (decimalEscape c) = some (st', []) := by
  have hn : c.toNat < 256 := UInt8.toNat_lt c
  have h1 : c.toNat / 100 < 10 := by omega
  have h2 : c.toNat / 10 % 10 < 10 := by omega
  have h3 : c.toNat % 10 < 10 := by omega
  have hv : ((c.toNat / 100) * 10 + c.toNat / 10 % 10) * 10 + c.toNat % 10 = c.toNat := by omega
  refine ⟨.decimal 34 s c.toNat 3, ?_, ?_⟩
  · intro c'
    have hle : c.toNat ≤ 255 := by omega
    simp [lexStep, lexDecimal, hle]
  · have e0 : lexStep st 92 = some (.escape 34 s, []) := by rw [h]; rfl
    have e1 : lexStep (.escape 34 s) (UInt8.ofNat (48 + c.toNat / 100)) =
        some (.decimal 34 s (c.toNat / 100) 1, []) := by
      simp only [lexStep, lexEscape, digit_isDigit h1, digit_value h1, if_true]
    have e2 : lexStep (.decimal 34 s (c.toNat / 100) 1) (UInt8.ofNat (48 + c.toNat / 10 % 10)) =
        some (.decimal 34 s ((c.toNat / 100) * 10 + c.toNat / 10 % 10) 2, []) := by
      simp only [lexStep, lexDecimal, digit_isDigit h2, digit_value h2]
      rfl
    have e3 : lexStep (.decimal 34 s ((c.toNat / 100) * 10 + c.toNat / 10 % 10) 2)
        (UInt8.ofNat (48 + c.toNat % 10)) = some (.decimal 34 s c.toNat 3, []) := by
      simp only [lexStep, lexDecimal, digit_isDigit h3, digit_value h3, hv]
      rfl
    simp only [decimalEscape]
    rw [lexRun_cons _ _ _ e0, lexRun_cons _ _ _ e1, lexRun_cons _ _ _ e2, lexRun_cons _ _ _ e3]
    rfl

theorem lexRun_luaQuoteByte {st : LexState} {s : Bytes} (h : InString st s) (c : UInt8) :
    ∃ st', InString st' (s ++ [c]) ∧ lexRun st (luaQuoteByte c) = some (st', []) := by
  unfold luaQuoteByte
  have e0 : lexStep st 92 = some (.escape 34 s, []) := by rw [h]; rfl
  split_ifs with hq hb hp
  · refine ⟨_, inString_quoted _, ?_⟩
    rw [hq, lexRun_cons _ _ _ e0]
    rfl
  · refine ⟨_, inString_quoted _, ?_⟩
    rw [hb, lexRun_cons _ _ _ e0]
    rfl
  · refine ⟨_, inString_quoted _, ?_⟩
    have h10 : c ≠ 10 := fun hc => by rw [hc] at hp; exact absurd hp.1 (by decide)
    have h13 : c ≠ 13 := fun hc => by rw [hc] at hp; exact absurd hp.1 (by decide)
    have e : lexStep st c = some (.quoted 34 (s ++ [c]), []) := by
      rw [h]
      simp [lexQuoted, hq, hb, h10, h13]
    rw [lexRun_cons _ _ _ e]
    rfl
  · exact lexRun_decimalEscape h c

/-- The body of a literal and its closing quote. -/
theorem lexRun_body : ∀ (s : Bytes) {st : LexState} {acc : Bytes}, InString st acc →
    lexRun st (s.flatMap luaQuoteByte ++ [34]) = some (.start, [.str (acc ++ s)])
  | [], st, acc, h => by
      have e : lexStep st 34 = some (.start, [.str acc]) := by rw [h]; rfl
      simp only [List.flatMap_nil, List.nil_append, List.append_nil]
      rw [lexRun_cons _ _ _ e]
      rfl
  | c :: s, st, acc, h => by
      obtain ⟨st', h', e⟩ := lexRun_luaQuoteByte h c
      rw [List.flatMap_cons, List.append_assoc, lexRun_append e (lexRun_body s h')]
      simp

/-- `text` starts and ends between tokens and lexes to `toks`. -/
def LexesTo (text : Bytes) (toks : List Token) : Prop := lexRun .start text = some (.start, toks)

instance (text : Bytes) (toks : List Token) : Decidable (LexesTo text toks) :=
  inferInstanceAs (Decidable (lexRun .start text = some (.start, toks)))

theorem LexesTo.append {xs ys : Bytes} {ts us : List Token} (h₁ : LexesTo xs ts)
    (h₂ : LexesTo ys us) : LexesTo (xs ++ ys) (ts ++ us) := lexRun_append h₁ h₂

theorem LexesTo.flatMap {α : Type} {text : α → Bytes} {toks : α → List Token}
    (h : ∀ a, LexesTo (text a) (toks a)) : ∀ as : List α, LexesTo (as.flatMap text) (as.flatMap toks)
  | [] => rfl
  | a :: as => by
      rw [List.flatMap_cons, List.flatMap_cons]
      exact (h a).append (LexesTo.flatMap h as)

/-- A quoted string lexes to one string token with exactly its bytes. -/
theorem lexesTo_luaQuote (s : Bytes) : LexesTo (luaQuote s) [.str s] := by
  unfold LexesTo luaQuote
  rw [List.append_assoc]
  have h0 : lexRun .start [34] = some (.quoted 34 [], []) := rfl
  exact lexRun_append h0 (lexRun_body s (inString_quoted []))

example : LexesTo (luaQuote (ascii "a\n7")) [.str [97, 10, 55]] := by decide

/-! ### Tokens of the printed text -/

def listTokens : List Bytes → List Token
  | [] => []
  | [s] => [Token.str s]
  | s :: s' :: ss => Token.str s :: Token.comma :: listTokens (s' :: ss)

theorem lexesTo_luaQuoteList : ∀ items : List Bytes, LexesTo (luaQuoteList items) (listTokens items)
  | [] => rfl
  | [s] => by simpa [luaQuoteList, listTokens] using lexesTo_luaQuote s
  | s :: s' :: ss => by
      have e : luaQuoteList (s :: s' :: ss) = luaQuote s ++ (ascii ", " ++ luaQuoteList (s' :: ss)) := by
        simp [luaQuoteList, List.intercalate_cons_cons]
      have hc : LexesTo (ascii ", ") [Token.comma] := by decide
      rw [e]
      exact (lexesTo_luaQuote s).append (hc.append (lexesTo_luaQuoteList (s' :: ss)))

/-- The tokens of an optional field `k = "s"`, introduced by a separator. -/
def fieldTokens (k : Bytes) (s : Option Bytes) : List Token :=
  match s with
  | some s => [Token.comma, Token.name k, Token.eq, Token.str s]
  | none => []

/-- The content of a field that is omitted when empty. -/
def nonempty (s : Bytes) : Option Bytes := if s ≠ [] then some s else none

def poolTokens (p : Pool) : List Token :=
  [Token.lbrace, Token.name (ascii "name"), Token.eq, Token.str p.name, Token.comma,
      Token.name (ascii "addrs"), Token.eq, Token.lbrace] ++
    listTokens p.spec.addrs ++ [Token.rbrace] ++ fieldTokens (ascii "hash") (nonempty p.spec.hash) ++
    fieldTokens (ascii "dist") (nonempty p.spec.dist) ++ [Token.rbrace]

def keyspaceTokens (ks : Keyspace) : List Token :=
  [Token.lbrace, Token.name (ascii "prefix"), Token.eq, Token.str ks.spec.keyPrefix, Token.comma,
    Token.name (ascii "read"), Token.eq, Token.lbrace] ++ listTokens ks.spec.read ++
    [Token.rbrace, Token.comma, Token.name (ascii "write"), Token.eq, Token.lbrace] ++ listTokens ks.spec.write ++
    [Token.rbrace] ++ fieldTokens (ascii "write_policy") (nonempty ks.spec.writePolicy) ++
    fieldTokens (ascii "merge") (ks.spec.merge.map MergeSpec.name) ++ [Token.rbrace]

theorem lexesTo_optional {piece : Bytes} {k : Bytes}
    (h : LexesTo piece [Token.comma, Token.name k, Token.eq]) (s : Bytes) :
    LexesTo (if s ≠ [] then piece ++ luaQuote s else []) (fieldTokens k (nonempty s)) := by
  unfold nonempty
  split_ifs
  · exact h.append (lexesTo_luaQuote s)
  · rfl

theorem lexesTo_renderPool (p : Pool) : LexesTo (renderPool p) (poolTokens p ++ [Token.comma]) := by
  have h1 : LexesTo (ascii "        \x7b name = ") [Token.lbrace, Token.name (ascii "name"), Token.eq] := by decide
  have h2 : LexesTo (ascii ", addrs = \x7b ")
      [Token.comma, Token.name (ascii "addrs"), Token.eq, Token.lbrace] := by decide
  have h3 : LexesTo (ascii " \x7d") [Token.rbrace] := by decide
  have h4 : LexesTo (ascii ", hash = ") [Token.comma, Token.name (ascii "hash"), Token.eq] := by decide
  have h5 : LexesTo (ascii ", dist = ") [Token.comma, Token.name (ascii "dist"), Token.eq] := by decide
  have h6 : LexesTo (ascii " \x7d,\n") [Token.rbrace, Token.comma] := by decide
  have := h1.append (lexesTo_luaQuote p.name) |>.append h2
    |>.append (lexesTo_luaQuoteList p.spec.addrs) |>.append h3
    |>.append (lexesTo_optional h4 p.spec.hash) |>.append (lexesTo_optional h5 p.spec.dist)
    |>.append h6
  simpa [renderPool, poolTokens, List.append_assoc] using this

theorem lexesTo_renderMerge (m : Option MergeSpec) :
    LexesTo (renderMerge m) (fieldTokens (ascii "merge") (m.map MergeSpec.name)) := by
  cases m with
  | none => rfl
  | some m =>
      have h : LexesTo (ascii ",\n          merge = ")
          [Token.comma, Token.name (ascii "merge"), Token.eq] := by decide
      exact h.append (lexesTo_luaQuote m.name)

theorem lexesTo_renderKeyspace (ks : Keyspace) :
    LexesTo (renderKeyspace ks) (keyspaceTokens ks ++ [Token.comma]) := by
  have h1 : LexesTo (ascii "        \x7b prefix = ") [Token.lbrace, Token.name (ascii "prefix"), Token.eq] := by
    decide
  have h2 : LexesTo (ascii ",\n") [Token.comma] := by decide
  have h3 : LexesTo (ascii "          read = \x7b ") [Token.name (ascii "read"), Token.eq, Token.lbrace] := by decide
  have h4 : LexesTo (ascii " \x7d,\n") [Token.rbrace, Token.comma] := by decide
  have h5 : LexesTo (ascii "          write = \x7b ") [Token.name (ascii "write"), Token.eq, Token.lbrace] := by
    decide
  have h6 : LexesTo (ascii " \x7d") [Token.rbrace] := by decide
  have h7 : LexesTo (ascii ",\n          write_policy = ")
      [Token.comma, Token.name (ascii "write_policy"), Token.eq] := by decide
  have := h1.append (lexesTo_luaQuote ks.spec.keyPrefix) |>.append h2 |>.append h3
    |>.append (lexesTo_luaQuoteList ks.spec.read) |>.append h4 |>.append h5
    |>.append (lexesTo_luaQuoteList ks.spec.write) |>.append h6
    |>.append (lexesTo_optional h7 ks.spec.writePolicy)
    |>.append (lexesTo_renderMerge ks.spec.merge) |>.append h4
  simpa [renderKeyspace, keyspaceTokens, List.append_assoc] using this

def configTokens (pools : List Pool) (keyspaces : List Keyspace) : List Token :=
  [Token.keyword (ascii "return"), Token.lbrace, Token.name (ascii "pools"), Token.eq, Token.lbrace] ++
    pools.flatMap (fun p => poolTokens p ++ [Token.comma]) ++
    [Token.rbrace, Token.comma, Token.name (ascii "keyspaces"), Token.eq, Token.lbrace] ++
    keyspaces.flatMap (fun ks => keyspaceTokens ks ++ [Token.comma]) ++ [Token.rbrace, Token.comma, Token.rbrace]

theorem lex_renderConfig (pools : List Pool) (keyspaces : List Keyspace) :
    lex (renderConfig pools keyspaces) = some (configTokens pools keyspaces) := by
  have h1 : LexesTo (ascii "return \x7b\n") [Token.keyword (ascii "return"), Token.lbrace] := by decide
  have h2 : LexesTo (ascii "    pools = \x7b\n") [Token.name (ascii "pools"), Token.eq, Token.lbrace] := by decide
  have h3 : LexesTo (ascii "    \x7d,\n") [Token.rbrace, Token.comma] := by decide
  have h4 : LexesTo (ascii "    keyspaces = \x7b\n") [Token.name (ascii "keyspaces"), Token.eq, Token.lbrace] := by
    decide
  have h5 : LexesTo (ascii "\x7d\n") [Token.rbrace] := by decide
  have := h1.append h2 |>.append (LexesTo.flatMap lexesTo_renderPool pools) |>.append h3
    |>.append h4 |>.append (LexesTo.flatMap lexesTo_renderKeyspace keyspaces) |>.append h3
    |>.append h5
  have hrun : lexRun .start (renderConfig pools keyspaces) =
      some (.start, configTokens pools keyspaces) := by
    simpa [LexesTo, renderConfig, configTokens, List.append_assoc] using this
  simp [lex, hrun, lexFinish]

/-! ### The value of the printed text -/

/-- A sequence of strings. -/
def stringList (items : List Bytes) : Value := .table (ofList (items.map Value.str))

/-- An optional string field. -/
def optionalField (k : Bytes) (s : Option Bytes) : Table :=
  match s with
  | some s => [(.str k, .str s)]
  | none => []

def poolFields (p : Pool) : Table :=
  [(Key.str (ascii "name"), Value.str p.name), (Key.str (ascii "addrs"), stringList p.spec.addrs)] ++
    optionalField (ascii "hash") (nonempty p.spec.hash) ++
    optionalField (ascii "dist") (nonempty p.spec.dist)

def keyspaceFields (ks : Keyspace) : Table :=
  [(Key.str (ascii "prefix"), Value.str ks.spec.keyPrefix), (Key.str (ascii "read"), stringList ks.spec.read),
    (Key.str (ascii "write"), stringList ks.spec.write)] ++
    optionalField (ascii "write_policy") (nonempty ks.spec.writePolicy) ++
    optionalField (ascii "merge") (ks.spec.merge.map MergeSpec.name)

/-- The entry of a pool in the configuration table. -/
def poolValue (p : Pool) : Value := .table (poolFields p)

/-- The entry of a keyspace in the configuration table. -/
def keyspaceValue (ks : Keyspace) : Value := .table (keyspaceFields ks)

def configFields (pools : List Pool) (keyspaces : List Keyspace) : Table :=
  [(Key.str (ascii "pools"), Value.table (ofList (pools.map poolValue))),
    (Key.str (ascii "keyspaces"), Value.table (ofList (keyspaces.map keyspaceValue)))]

/-- The configuration table. -/
def configValue (pools : List Pool) (keyspaces : List Keyspace) : Value :=
  .table (configFields pools keyspaces)

/-- The elements of a list constructor, from a field position to its closing brace. -/
theorem parseRun_listTokens : ∀ (items : List Bytes) (f : Frame) (st : List Frame), f.slot = none →
    parseRun (.field f st) (listTokens items ++ [Token.rbrace]) =
      some (deliver (.table (f.storeAll (items.map Value.str)).fields) st)
  | [], f, st, _ => by simp [listTokens, parseRun, parseStep]
  | [s], f, st, hf => by
      have e := Frame.storeAll_cons hf (.str s) []
      rw [Frame.storeAll_nil] at e
      simp [listTokens, parseRun, parseStep, deliver, e]
  | s :: s' :: ss, f, st, hf => by
      have ih := parseRun_listTokens (s' :: ss) (f.store (.str s)) st (f.store_slot _)
      rw [Frame.storeAll_cons hf] at ih
      simpa [listTokens, parseRun, parseStep, deliver] using ih

theorem parseRun_stringList (items : List Bytes) (st : List Frame) (us : List Token) :
    parseRun (.value st) (Token.lbrace :: (listTokens items ++ Token.rbrace :: us)) =
      parseRun (deliver (stringList items) st) us := by
  have h := parseRun_listTokens items .empty st rfl
  have e : (Frame.empty.storeAll (items.map Value.str)).fields = ofList (items.map Value.str) := by
    simp [Frame.storeAll, Frame.empty, ofList]
  rw [e] at h
  have e2 : Token.lbrace :: (listTokens items ++ Token.rbrace :: us) =
      ([Token.lbrace] ++ (listTokens items ++ [Token.rbrace])) ++ us := by simp
  have h2 : parseRun (.value st) ([Token.lbrace] ++ (listTokens items ++ [Token.rbrace])) =
      some (deliver (stringList items) st) := h
  rw [e2, parseRun_append_of_eq us h2]

/-- Record fields under the names of a constructor. -/
def Frame.named (f : Frame) (t : Table) : Frame := { f with fields := f.fields ++ t }

theorem parseRun_fieldTokens (k : Bytes) (s : Option Bytes) (f : Frame) (st : List Frame)
    (hf : f.slot = none) (us : List Token) :
    parseRun (.after f st) (fieldTokens k s ++ us) =
      parseRun (.after (Frame.named f (optionalField k s)) st) us := by
  cases s with
  | none => simp [fieldTokens, optionalField, Frame.named]
  | some s =>
      simp [fieldTokens, optionalField, Frame.named, parseRun, parseStep, deliver, Frame.store,
        rawset, hf]

theorem parseRun_poolTokens (p : Pool) (f : Frame) (st : List Frame) (_ : f.slot = none) :
    parseRun (.field f st) (poolTokens p) = some (.after (f.store (poolValue p)) st) := by
  simp only [poolTokens, List.append_assoc, List.cons_append, List.nil_append, parseRun, parseStep,
    deliver, Option.bind_eq_bind, Option.bind_some]
  have h := parseRun_stringList p.spec.addrs
  simp only [parseRun, parseStep, Option.bind_eq_bind, Option.bind_some] at h
  rw [h]
  simp only [deliver]
  rw [parseRun_fieldTokens _ _ _ _ (Frame.store_slot _ _), parseRun_fieldTokens _ _ _ _ rfl]
  simp [parseRun, parseStep, deliver, Frame.named, Frame.store, Frame.empty, rawset, poolValue,
    poolFields]

theorem parseRun_keyspaceTokens (ks : Keyspace) (f : Frame) (st : List Frame) (_ : f.slot = none) :
    parseRun (.field f st) (keyspaceTokens ks) = some (.after (f.store (keyspaceValue ks)) st) := by
  simp only [keyspaceTokens, List.append_assoc, List.cons_append, List.nil_append, parseRun,
    parseStep, deliver, Option.bind_eq_bind, Option.bind_some]
  have h := parseRun_stringList
  simp only [parseRun, parseStep, Option.bind_eq_bind, Option.bind_some] at h
  rw [h]
  simp only [deliver, parseRun, parseStep, Option.bind_eq_bind, Option.bind_some]
  rw [h]
  simp only [deliver]
  rw [parseRun_fieldTokens _ _ _ _ (Frame.store_slot _ _), parseRun_fieldTokens _ _ _ _ rfl]
  simp [parseRun, parseStep, deliver, Frame.named, Frame.store, Frame.empty, rawset, keyspaceValue,
    keyspaceFields]

theorem storeAll_empty_fields (vs : List Value) : (Frame.empty.storeAll vs).fields = ofList vs := by
  simp [Frame.storeAll, Frame.empty, ofList]

theorem parseRun_configTokens (pools : List Pool) (keyspaces : List Keyspace) :
    parseRun .chunk (configTokens pools keyspaces) =
      some (.returned (configValue pools keyspaces)) := by
  simp only [configTokens, List.append_assoc, List.cons_append, List.nil_append, parseRun,
    parseStep, if_true, Option.bind_eq_bind, Option.bind_some]
  rw [parseRun_append_of_eq _ (parseRun_elements parseRun_poolTokens pools .empty _ rfl)]
  simp only [parseRun, parseStep, deliver, Option.bind_eq_bind, Option.bind_some]
  rw [parseRun_append_of_eq _ (parseRun_elements parseRun_keyspaceTokens keyspaces .empty _ rfl)]
  simp only [parseRun, parseStep, deliver, Option.bind_eq_bind, Option.bind_some,
    storeAll_empty_fields]
  rfl

/-- Reading the printed configuration gives the configuration table. -/
theorem loadLiteral_renderConfig (pools : List Pool) (keyspaces : List Keyspace) :
    loadLiteral (renderConfig pools keyspaces) = some (configValue pools keyspaces) := by
  simp [loadLiteral, lex_renderConfig, parseRun_configTokens, parseFinish]

/-! ### Reading the entries -/

/-- The value read from an optional string field. -/
def optionalValue : Option Bytes → Value
  | some s => .str s
  | none => .nil

theorem rawget_optionalField_ne (t : Table) {k : Bytes} {k' : Key} (s : Option Bytes)
    (h : k' ≠ .str k) : rawget (t ++ optionalField k s) k' = rawget t k' := by
  apply rawget_append_of_not_mem
  cases s with
  | none => simp [optionalField]
  | some s => simpa [optionalField] using h

theorem rawget_optionalField_self {t : Table} {k : Bytes} (s : Option Bytes)
    (h : rawget t (.str k) = .nil) : rawget (t ++ optionalField k s) (.str k) = optionalValue s := by
  cases s with
  | none => simpa [optionalField, optionalValue] using h
  | some s => exact rawget_rawset_self t _ _

theorem optionalValue_nonempty_ne_nil (s : Bytes) :
    optionalValue (nonempty s) ≠ .nil ↔ s ≠ [] := by
  unfold nonempty
  split_ifs with h <;> simp_all [optionalValue]

section pools
variable (p : Pool)

theorem poolFields_name : rawget (poolFields p) (.str (ascii "name")) = .str p.name := by
  unfold poolFields
  rw [rawget_optionalField_ne _ _ (by decide), rawget_optionalField_ne _ _ (by decide)]
  rfl

theorem poolFields_addrs :
    rawget (poolFields p) (.str (ascii "addrs")) = stringList p.spec.addrs := by
  unfold poolFields
  rw [rawget_optionalField_ne _ _ (by decide), rawget_optionalField_ne _ _ (by decide)]
  rfl

theorem poolFields_hash :
    rawget (poolFields p) (.str (ascii "hash")) = optionalValue (nonempty p.spec.hash) := by
  unfold poolFields
  rw [rawget_optionalField_ne _ _ (by decide), rawget_optionalField_self _ (by rfl)]

theorem poolFields_dist :
    rawget (poolFields p) (.str (ascii "dist")) = optionalValue (nonempty p.spec.dist) := by
  unfold poolFields
  rw [rawget_optionalField_self]
  rw [rawget_optionalField_ne _ _ (by decide)]
  rfl

end pools

section keyspaces
variable (ks : Keyspace)

theorem keyspaceFields_keyPrefix :
    rawget (keyspaceFields ks) (.str (ascii "prefix")) = .str ks.spec.keyPrefix := by
  unfold keyspaceFields
  rw [rawget_optionalField_ne _ _ (by decide), rawget_optionalField_ne _ _ (by decide)]
  rfl

theorem keyspaceFields_read :
    rawget (keyspaceFields ks) (.str (ascii "read")) = stringList ks.spec.read := by
  unfold keyspaceFields
  rw [rawget_optionalField_ne _ _ (by decide), rawget_optionalField_ne _ _ (by decide)]
  rfl

theorem keyspaceFields_write :
    rawget (keyspaceFields ks) (.str (ascii "write")) = stringList ks.spec.write := by
  unfold keyspaceFields
  rw [rawget_optionalField_ne _ _ (by decide), rawget_optionalField_ne _ _ (by decide)]
  rfl

theorem keyspaceFields_writePolicy : rawget (keyspaceFields ks) (.str (ascii "write_policy")) =
    optionalValue (nonempty ks.spec.writePolicy) := by
  unfold keyspaceFields
  rw [rawget_optionalField_ne _ _ (by decide), rawget_optionalField_self _ (by rfl)]

theorem keyspaceFields_merge : rawget (keyspaceFields ks) (.str (ascii "merge")) =
    optionalValue (ks.spec.merge.map MergeSpec.name) := by
  unfold keyspaceFields
  rw [rawget_optionalField_self]
  rw [rawget_optionalField_ne _ _ (by decide)]
  rfl

end keyspaces

/-- **The rendered configuration is a faithful Lua literal.**  For arbitrary byte strings in
every field the printed chunk loads, completely, to the table of the same pools and keyspaces
in the same order; an optional field is present exactly when it is set. -/
theorem renderConfig_loads (pools : List Pool) (keyspaces : List Keyspace) :
    loadLiteral (renderConfig pools keyspaces) = some (configValue pools keyspaces) ∧
    (∀ p ∈ pools,
      (rawget (poolFields p) (.str (ascii "hash")) ≠ .nil ↔ p.spec.hash ≠ []) ∧
      (rawget (poolFields p) (.str (ascii "dist")) ≠ .nil ↔ p.spec.dist ≠ [])) ∧
    (∀ ks ∈ keyspaces,
      (rawget (keyspaceFields ks) (.str (ascii "write_policy")) ≠ .nil ↔ ks.spec.writePolicy ≠ []) ∧
      (rawget (keyspaceFields ks) (.str (ascii "merge")) ≠ .nil ↔ ks.spec.merge.isSome)) := by
  refine ⟨loadLiteral_renderConfig pools keyspaces, ?_, ?_⟩
  · intro p _
    rw [poolFields_hash, poolFields_dist]
    exact ⟨optionalValue_nonempty_ne_nil _, optionalValue_nonempty_ne_nil _⟩
  · intro ks _
    rw [keyspaceFields_writePolicy, keyspaceFields_merge]
    refine ⟨optionalValue_nonempty_ne_nil _, ?_⟩
    cases ks.spec.merge <;> simp [optionalValue]

end McGateway.Operator
