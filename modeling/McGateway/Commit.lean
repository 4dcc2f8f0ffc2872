import McGateway.FileSystem
import McGateway.Render

/-! # The committer (`commit.go`)

`commit` applies a rendered tree to the mount: sweep temp files, write the modules that changed,
write `config.lua` if it changed, remove the modules that are no longer wanted.  Every write is a
temp file followed by a rename.  The first error aborts the commit where it stands; the `Result`
so far is returned with it. -/

namespace McGateway.Operator

open Bytes (ascii hasPrefix hasSuffix sortBy)

def tmpSuffix : Bytes := ascii ".tmp"
def wasmSuffix : Bytes := ascii ".wasm"

structure Result where
  wroteConfig : Bool
  wroteModules : List Bytes
  removedModules : List Bytes
  cleanedTemp : List Bytes
deriving DecidableEq, Repr

inductive CommitError where
  /-- `desired tree lacks config.lua` -/
  | lacksConfig
  /-- `desired tree contains unrecognized path <path>` -/
  | unrecognizedPath (path : Bytes)
  /-- `list <dir>: <err>`, with the directory quoted -/
  | listSwept (dir : Bytes) (err : FsError)
  /-- `sweep <path>: <err>` -/
  | sweep (path : Bytes) (err : FsError)
  /-- `read <path>: <err>` -/
  | read (path : Bytes) (err : FsError)
  /-- `stage <tmp>: <err>` -/
  | stage (tmp : Bytes) (err : FsError)
  /-- `commit <path>: <err>` -/
  | commit (path : Bytes) (err : FsError)
  /-- `list udf: <err>` -/
  | listStale (err : FsError)
  /-- `remove stale <path>: <err>` -/
  | removeStale (path : Bytes) (err : FsError)
deriving DecidableEq, Repr

/-- What `Commit` returns. -/
abbrev Outcome := Result × Option CommitError

/-- Go on unless an error was returned. -/
def andThen (p : Prog FS Outcome) (f : Result → Prog FS Outcome) : Prog FS Outcome :=
  p >>= fun o => if o.2.isSome then pure o else f o.1

/-- `sortedKeys`. -/
def sortedKeys (m : ByteMap Bytes) : List Bytes := sortBy id m.keys

/-! ### Sweeping -/

/-- The path of an entry of one of the two directories. -/
def entryPath (dir name : Bytes) : Bytes := if dir ≠ [] then dir ++ ascii "/" ++ name else name

/-- The inner loop of `sweepTemp`. -/
def sweepNames (dir : Bytes) : List Bytes → Result → Prog FS Outcome
  | [], res => pure (res, none)
  | name :: names, res =>
      if hasSuffix name tmpSuffix then do
        match ← Prog.ask (S := FS) (.remove (entryPath dir name)) with
        | .error e => pure (res, some (.sweep (entryPath dir name) e))
        | .ok () => sweepNames dir names { res with cleanedTemp := res.cleanedTemp ++ [entryPath dir name] }
      else sweepNames dir names res

/-- The outer loop of `sweepTemp`. -/
def sweepDirs : List Bytes → Result → Prog FS Outcome
  | [], res => pure (res, none)
  | dir :: dirs, res => do
      match ← Prog.ask (S := FS) (.readDir dir) with
      | .error e => pure (res, some (.listSwept dir e))
      | .ok names => andThen (sweepNames dir (sortBy id names) res) (sweepDirs dirs)

def sweepTemp : Result → Prog FS Outcome := sweepDirs [[], udfDir]

/-! ### Writing -/

/-- Write a temp file and rename it into place. -/
def stage (path data : Bytes) : Prog FS (Except CommitError Bool) := do
  match ← Prog.ask (S := FS) (.writeFile (path ++ tmpSuffix) data) with
  | .error e => pure (.error (.stage (path ++ tmpSuffix) e))
  | .ok () =>
      match ← Prog.ask (S := FS) (.rename (path ++ tmpSuffix) path) with
      | .error e => pure (.error (.commit path e))
      | .ok () => pure (.ok true)

def writeIfChanged (path data : Bytes) : Prog FS (Except CommitError Bool) := do
  match ← Prog.ask (S := FS) (.readFile path) with
  | .ok cur => if cur = data then pure (.ok false) else stage path data
  | .error .notExist => stage path data
  | .error e => pure (.error (.read path e))

/-- The loop over the desired modules. -/
def writeModules (desired : ByteMap Bytes) : List Bytes → Result → Prog FS Outcome
  | [], res => pure (res, none)
  | path :: paths, res =>
      if hasPrefix path (udfDir ++ ascii "/") then do
        match ← writeIfChanged path ((desired.lookup path).getD []) with
        | .error e => pure (res, some e)
        | .ok changed =>
            writeModules desired paths
              (if changed then { res with wroteModules := res.wroteModules ++ [path] } else res)
      else writeModules desired paths res

def writeConfig (desired : ByteMap Bytes) (res : Result) : Prog FS Outcome := do
  match ← writeIfChanged configFile ((desired.lookup configFile).getD []) with
  | .error e => pure (res, some e)
  | .ok changed => pure ({ res with wroteConfig := changed }, none)

/-! ### Removing -/

/-- The loop over the entries of the module directory. -/
def removeNames (desired : ByteMap Bytes) : List Bytes → Result → Prog FS Outcome
  | [], res => pure (res, none)
  | name :: names, res =>
      let path := entryPath udfDir name
      if hasSuffix name wasmSuffix ∧ path ∉ desired then do
        match ← Prog.ask (S := FS) (.remove path) with
        | .error e => pure (res, some (.removeStale path e))
        | .ok () => removeNames desired names { res with removedModules := res.removedModules ++ [path] }
      else removeNames desired names res

def removeStale (desired : ByteMap Bytes) (res : Result) : Prog FS Outcome := do
  match ← Prog.ask (S := FS) (.readDir udfDir) with
  | .error e => pure (res, some (.listStale e))
  | .ok names => removeNames desired (sortBy id names) res

/-- The paths the committer knows how to place. -/
def recognized (path : Bytes) : Bool :=
  path = configFile || (hasPrefix path (udfDir ++ ascii "/") && hasSuffix path wasmSuffix)

/-- `Commit`. -/
def commit (desired : ByteMap Bytes) : Prog FS Outcome :=
  let res : Result := ⟨false, [], [], []⟩
  if configFile ∉ desired then pure (res, some .lacksConfig)
  else match (sortedKeys desired).find? (fun path => !recognized path) with
    | some path => pure (res, some (.unrecognizedPath path))
    | none =>
        andThen (andThen (andThen (sweepTemp res) (writeModules desired (sortedKeys desired)))
          (writeConfig desired)) (removeStale desired)

end McGateway.Operator
