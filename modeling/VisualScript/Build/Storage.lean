import VisualScript.Assoc

/-!
# Build — Storage

What a build asks of a file store, and one that is kept in memory.  A store answers every request
with an outcome and its next state.
-/

namespace VisualScript

/-- How writing a file went: done, refused with or without a reason, or broken off. -/
inductive WriteOutcome where
  | done
  | refused (reason : Option String)
  | broken (message : String)
deriving DecidableEq, Repr

/-- A file store with states in `σ`.  Requests that fail say why. -/
structure Storage (σ : Type) where
  /-- Asks for an output directory; none when the choice is cancelled. -/
  select          : σ → Except String (Option String) × σ
  createDirectory : String → σ → Except String Unit × σ
  /-- Deletes a directory with all it holds; a missing one is fine. -/
  deleteDirectory : String → σ → Except String Unit × σ
  write           : (path content : String) → σ → WriteOutcome × σ

/-- A request made to a store. -/
inductive Request where
  | select
  | createDirectory (path : String)
  | deleteDirectory (path : String)
  | write (path : String)
deriving DecidableEq, Repr

/-- Files and directories by path, with failures on demand and a record of the requests. -/
structure MemoryStore where
  files         : List (String × String) := []
  directories   : List String := []
  requests      : List Request := []
  /-- How many writes were asked for. -/
  writes        : Nat := 0
  selected      : Option String := none
  selectFailure : Option String := none
  failDirectory : Option String := none
  failDelete    : Bool := false
  /-- The write that is refused, and the reason given. -/
  failOnWrite   : Option Nat := none
  writeError    : Option String := none
  /-- The write that is broken off. -/
  breakOnWrite  : Option Nat := none

namespace MemoryStore

/-- Whether a path lies below a directory. -/
def isBelow (dir path : String) : Bool := (dir ++ "/").toList.isPrefixOf path.toList

def record (r : Request) (m : MemoryStore) : MemoryStore :=
  { m with requests := m.requests ++ [r] }

def select (m : MemoryStore) : Except String (Option String) × MemoryStore :=
  let m := m.record .select
  match m.selectFailure with
  | some e => (.error e, m)
  | none   => (.ok m.selected, m)

def createDirectory (path : String) (m : MemoryStore) : Except String Unit × MemoryStore :=
  let m := m.record (.createDirectory path)
  if m.failDirectory = some path then (.error "permission denied", m)
  else if path ∈ m.directories then (.ok (), m)
  else (.ok (), { m with directories := m.directories ++ [path] })

def deleteDirectory (path : String) (m : MemoryStore) : Except String Unit × MemoryStore :=
  let m := m.record (.deleteDirectory path)
  if m.failDelete then (.error "directory busy", m)
  else
    (.ok (), { m with
      files := m.files.filter fun (p, _) => !isBelow path p
      directories := m.directories.filter fun d => !(d = path || isBelow path d) })

def write (path content : String) (m : MemoryStore) : WriteOutcome × MemoryStore :=
  let m := { m.record (.write path) with writes := m.writes + 1 }
  if m.breakOnWrite = some m.writes then (.broken "device gone", m)
  else if m.failOnWrite = some m.writes then (.refused m.writeError, m)
  else (.done, { m with files := Assoc.set path content m.files })

def storage : Storage MemoryStore :=
  { select := select, createDirectory := createDirectory, deleteDirectory := deleteDirectory
    write := write }

end MemoryStore

end VisualScript
