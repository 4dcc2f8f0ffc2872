import McGateway.Registry

/-! # The read path (`entries.lua`, `routes.lua`, `project` of `lib.rs`)

A read fans out to the pools of its keyspace, turns each response into an entry, dispatches the
entries to the merge through the native module, and picks the reply.  `readHandler` follows the
handler from the collected responses to the reply; requests, timing and metrics are left out.

The value of a `t` flag is kept as the integer its digits denote.  Lua makes it a float when it
does not fit 64 bits, and the boundary to the native module converts or refuses that float
(`toI64`). -/

namespace McGateway.Read

open McGateway.Core
open Bytes (ascii isSpace isDigit validUtf8)

/-! ### Responses and entries -/

/-- What the handler can ask of an `mcp.response`. -/
structure Response where
  ok : Bool
  hit : Bool
  line : Option Bytes
  vlen : Option ℕ
  raw : Option Bytes
deriving DecidableEq, Repr

def classify : Option Response → Status
  | none => .error
  | some res => if !res.ok then .error else if res.hit then .hit else .miss

/-- The maximal runs of non-space bytes, `line:gmatch("%S+")`. -/
def tokens (line : Bytes) : List Bytes := (line.splitOnP isSpace).filter fun tok => tok ≠ []

/-- The number a string of digits denotes. -/
def decimal (digits : Bytes) : ℕ := digits.foldl (fun n c => 10 * n + (c.toNat - 48)) 0

/-- The number of a string of at least one digit. -/
def digits? (s : Bytes) : Option ℤ := if s ≠ [] ∧ s.all isDigit then some (decimal s) else none

/-- `tok:match("^t(%-?%d+)$")` with its number. -/
def tFlag? : Bytes → Option ℤ
  | 116 :: 45 :: s => (digits? s).map fun n => -n
  | 116 :: s => digits? s
  | _ => none

def parseT (line : Bytes) : Option ℤ := (tokens line).findSome? tFlag?

/-- The entry table built for one pool. -/
structure LuaEntry where
  key : Bytes
  pool : Bytes
  status : Status
  res : Option Response
  t : Option ℤ
  value : Option Bytes
  line : Option Bytes
deriving DecidableEq, Repr

/-- The last `vlen` bytes before the trailing CRLF. -/
def body (res : Response) : Option Bytes :=
  match res.vlen, res.raw with
  | some vlen, some raw =>
      if 0 < vlen ∧ vlen + 2 ≤ raw.length then some ((raw.drop (raw.length - vlen - 2)).take vlen) else none
  | _, _ => none

/-- `M.make`. -/
def make (key pool : Bytes) (res : Option Response) : LuaEntry :=
  match classify res, res with
  | .hit, some r => ⟨key, pool, .hit, res, r.line.bind parseT, body r, r.line⟩
  | status, _ => ⟨key, pool, status, res, none, none, none⟩

/-- `M.build`. -/
def build (key : Bytes) (poolNames : List Bytes) (results : List (Option Response)) : List LuaEntry :=
  poolNames.mapIdx fun j p => make key p (results[j]?.getD none)

/-! ### The native dispatch -/

inductive NativeError where
  | nameNotUtf8
  | poolNotUtf8
  | tOutOfRange
  | unknownMerge (name : Bytes)
  | indexOverflow
deriving DecidableEq, Repr

/-- A Lua number as an `i64`: an integer that fits is itself, a float is converted when it is an
integer in range.  The floats just below the range round up to its least element. -/
def toI64 (z : ℤ) : Option Int64 :=
  if -2 ^ 63 ≤ z ∧ z < 2 ^ 63 then some (Int64.ofInt z)
  else if -2 ^ 63 - 1024 ≤ z ∧ z < -2 ^ 63 then some Int64.minValue
  else none

/-- One round of the loop of `project`, with `as_views`. -/
def projectEntry (e : LuaEntry) : Except NativeError Entry :=
  match e.t with
  | none =>
      if validUtf8 e.pool then .ok ⟨e.key, e.pool, e.status, none, e.value, e.line⟩
      else .error .poolNotUtf8
  | some z =>
      match toI64 z with
      | none => .error .tOutOfRange
      | some t =>
          if validUtf8 e.pool then .ok ⟨e.key, e.pool, e.status, some t, e.value, e.line⟩
          else .error .poolNotUtf8

def project (entries : List LuaEntry) : Except NativeError (List Entry) := entries.mapM projectEntry

/-- The result of the dispatch, before it becomes a Lua value. -/
def dispatch (table : WasmTable) (name : Bytes) (entries : List LuaEntry) :
    Except NativeError MergeResult :=
  if !validUtf8 name then .error .nameNotUtf8
  else match project entries with
    | .error e => .error e
    | .ok views =>
        match applyMerge table name views with
        | none => .error (.unknownMerge name)
        | some (.winner i) => if i + 1 < 2 ^ 63 then .ok (.winner i) else .error .indexOverflow
        | some r => .ok r

/-! ### The reply -/

inductive Reply where
  /-- A backend's response, verbatim. -/
  | response (res : Response)
  | text (bytes : Bytes)
deriving DecidableEq, Repr

def multikeyUnsupported : Bytes := ascii "SERVER_ERROR multi-key not supported\r\n"
def allReadErr : Bytes := ascii "SERVER_ERROR all backends failed\r\n"
def missReply : Bytes := ascii "EN\r\n"

/-- The loop of the no-winner path. -/
def noWinnerFrom : Bool → Option Response → List LuaEntry → Reply
  | anyMiss, concreteError, [] =>
      if anyMiss then .text missReply
      else match concreteError with
        | some res => .response res
        | none => .text allReadErr
  | anyMiss, concreteError, e :: es =>
      match e.status, e.res with
      | .miss, some res => .response res
      | .miss, none => noWinnerFrom true concreteError es
      | .error, some res => noWinnerFrom anyMiss (concreteError.or (some res)) es
      | _, _ => noWinnerFrom anyMiss concreteError es

def noWinner (entries : List LuaEntry) : Reply := noWinnerFrom false none entries

/-- The reply for a merge result. -/
def replyFor (entries : List LuaEntry) : MergeResult → Reply
  | .winner i =>
      match entries[i]?.bind LuaEntry.res with
      | some res => .response res
      | none => noWinner entries
  | .synthesized bytes =>
      .text (ascii "VA " ++ ascii (toString bytes.length) ++ [13, 10] ++ bytes ++ [13, 10])
  | .miss => noWinner entries

/-- The read handler, from the collected responses on.  An error is raised, not replied. -/
def readHandler (table : WasmTable) (mergeName : Bytes) (poolNames : List Bytes) (key : Bytes)
    (results : List (Option Response)) : Except NativeError Reply :=
  if 35 ∈ key then .ok (.text multikeyUnsupported)
  else
    let entries := build key poolNames results
    match dispatch table mergeName entries with
    | .error e => .error e
    | .ok r => .ok (replyFor entries r)

end McGateway.Read
