import VisualScript.Build.Storage
import VisualScript.Json.Display
import VisualScript.Settings

/-!
# Build — Disk

A store with directories that have to exist: paths are followed component by component from a
working directory, and requests fail the way the operating system fails them.
-/

namespace VisualScript

/-- Why the operating system refuses a request. -/
inductive DiskError where
  | notFound
  | alreadyExists
  | notDirectory
  | isDirectory
  | invalidArgument
  | nameTooLong
  | notEmpty
  /-- A path holds the null character; this is found before the system is asked. -/
  | nullInPath
deriving DecidableEq, Repr

namespace DiskError

def code : DiskError → Nat
  | notFound        => 2
  | alreadyExists   => 17
  | notDirectory    => 20
  | isDirectory     => 21
  | invalidArgument => 22
  | nameTooLong     => 36
  | notEmpty        => 39
  | nullInPath      => 0

def reason : DiskError → String
  | notFound        => "No such file or directory"
  | alreadyExists   => "File exists"
  | notDirectory    => "Not a directory"
  | isDirectory     => "Is a directory"
  | invalidArgument => "Invalid argument"
  | nameTooLong     => "File name too long"
  | notEmpty        => "Directory not empty"
  | nullInPath      => "embedded null byte"

end DiskError

/-- A refused request, with the path as the refusal shows it. -/
structure DiskFailure where
  error : DiskError
  shown : String
deriving DecidableEq, Repr

def DiskFailure.message (f : DiskFailure) : String :=
  match f.error with
  | .nullInPath => f.error.reason
  | e           => "[Errno " ++ toString e.code ++ "] " ++ e.reason ++ ": " ++ f.shown

/-- What is at a path. -/
inductive DiskEntry where
  | directory
  | file (content : String)
deriving DecidableEq, Repr

/-- The tree below a working directory, by the components of the paths. -/
structure Disk where
  entries          : List (List String × DiskEntry) := []
  /-- The directory that is offered as output directory. -/
  defaultDirectory : Option String := none

namespace Disk

/-- What stands between the slashes of a path. -/
def pieces (path : String) : List String := (path.toList.splitOn '/').map String.ofList

/-- The components of a path, empty ones and single dots left out. -/
def components (path : String) : List String :=
  (pieces path).filter fun c => c != "" && c != "."

/-- A path put together again from its components. -/
def join (parts : List String) : String := if parts.isEmpty then "." else "/".intercalate parts

def shown (parts : List String) : String := Json.Display.quoted (join parts)

def entry? (d : Disk) (place : List String) : Option DiskEntry :=
  if place.isEmpty then some .directory else d.entries.lookup place

/-- Whether a path is too long for the system to look at. -/
def isTooLong (path : String) : Bool := 4096 ≤ path.utf8ByteSize

/-- Goes from a directory to what one component leads to. -/
def step (d : Disk) (place : List String) (part : String) : Except DiskError (List String) :=
  if part = "." then .ok place
  else if part = ".." then .ok place.dropLast
  else if 255 < part.utf8ByteSize then .error .nameTooLong
  else match d.entry? (place ++ [part]) with
    | some .directory => .ok (place ++ [part])
    | some (.file _)  => .error .notDirectory
    | none            => .error .notFound

/-- The directory a list of components leads to. -/
def follow (d : Disk) (parts : List String) : Except DiskError (List String) :=
  parts.foldlM d.step []

def isDirectory (d : Disk) (parts : List String) : Bool := (d.follow parts).toOption.isSome

/-- What a list of components leads to; a file only at its end. -/
def find (d : Disk) (parts : List String) : Except DiskError (List String × DiskEntry) :=
  if isTooLong (join parts) then .error .nameTooLong
  else match parts.getLast? with
    | none      => .ok ([], .directory)
    | some last => do
        let place ← d.follow parts.dropLast
        match d.step place last with
        | .ok there            => return (there, .directory)
        | .error .notDirectory =>
            match d.entry? (place ++ [last]) with
            | some e => return (place ++ [last], e)
            | none   => throw .notFound
        | .error e => throw e

/-! ### Creating directories -/

/-- Creates one directory whose parent exists. -/
def createOne (d : Disk) (parts : List String) : Except DiskError Disk :=
  if isTooLong (join parts) then .error .nameTooLong
  else match parts.getLast? with
    | none      => .error .alreadyExists
    | some last => do
        let place ← d.follow parts.dropLast
        if last = ".." then throw .alreadyExists
        else if 255 < last.utf8ByteSize then throw .nameTooLong
        else if (d.entry? (place ++ [last])).isSome then throw .alreadyExists
        else return { d with entries := d.entries ++ [(place ++ [last], .directory)] }

/-- Accepts a failed creation if the directory is there; a path too long is never looked at. -/
def acceptExisting (d : Disk) (parts : List String) (e : DiskError) : Except DiskFailure Unit :=
  if e ≠ .nameTooLong ∧ d.isDirectory parts then .ok () else .error ⟨e, shown parts⟩

/-- Creates a directory and its missing parents; the components are given from the last to the
first.  What was created stays when a later directory fails. -/
def createReversed : List String → Disk → Except DiskFailure Unit × Disk
  | [],           d => (.ok (), d)
  | last :: init, d =>
      let parts := (last :: init).reverse
      match d.createOne parts with
      | .ok d            => (.ok (), d)
      | .error .notFound =>
          match createReversed init d with
          | (.error f, d) => (.error f, d)
          | (.ok (), d)   => match d.createOne parts with
              | .ok d            => (.ok (), d)
              | .error .notFound => (.error ⟨.notFound, shown parts⟩, d)
              | .error e         => (d.acceptExisting parts e, d)
      | .error e => (d.acceptExisting parts e, d)

def hasNull (path : String) : Bool := path.toList.contains '\x00'

def createDirectory (path : String) (d : Disk) : Except DiskFailure Unit × Disk :=
  if hasNull path then (.error ⟨.nullInPath, ""⟩, d)
  else createReversed (components path).reverse d

/-! ### Deleting directories -/

/-- Drops everything below a directory. -/
def clear (d : Disk) (place : List String) : Disk :=
  { d with entries := d.entries.filter fun (p, _) => !(place.isPrefixOf p && p != place) }

/-- Removes an empty directory by the path it is given: the way to it has to exist, and the path
has to end in the directory's own name. -/
def removeEmpty (d : Disk) (parts place : List String) : Except DiskError Disk :=
  match parts.getLast? with
  | none      => .error .invalidArgument
  | some last => do
      let _ ← d.follow parts.dropLast
      if last = ".." then throw .notEmpty
      else return { d with entries := d.entries.filter fun (p, _) => p != place }

/-- Deletes a directory with all it holds.  A directory that cannot be removed by the path it is
given, as when the path goes through what it held, is emptied all the same. -/
def deleteDirectory (path : String) (d : Disk) : Except DiskFailure Unit × Disk :=
  let parts := components path
  if hasNull path then (.ok (), d)
  else match d.find parts with
    | .error .nameTooLong  => (.error ⟨.nameTooLong, shown parts⟩, d)
    | .error _             => (.ok (), d)
    | .ok (_, .file _)     => (.error ⟨.notDirectory, "PosixPath(" ++ shown parts ++ ")"⟩, d)
    | .ok (place, .directory) =>
        let d := d.clear place
        match d.removeEmpty parts place with
        | .ok d    => (.ok (), d)
        | .error e => (.error ⟨e, shown parts⟩, d)

/-! ### Writing files -/

/-- Replaces or adds the entry at a place. -/
def setEntry (d : Disk) (place : List String) (e : DiskEntry) : Disk :=
  if (d.entries.lookup place).isSome then
    { d with entries := d.entries.map fun (p, old) => if p = place then (p, e) else (p, old) }
  else { d with entries := d.entries ++ [(place, e)] }

/-- Opens a file for writing: its directory has to exist, and it must not be a directory. -/
def writeFile (path content : String) (d : Disk) : Except DiskError Disk :=
  let parts := (pieces path).filter (· != "")
  if path = "" then .error .notFound
  else if isTooLong path then .error .nameTooLong
  else match parts.getLast? with
    | none      => .error .isDirectory
    | some last => do
        let place ← d.follow parts.dropLast
        if last = "." || last = ".." || path.endsWith "/" then throw .isDirectory
        else if 255 < last.utf8ByteSize then throw .nameTooLong
        else match d.entry? (place ++ [last]) with
          | some .directory => throw .isDirectory
          | _               => return d.setEntry (place ++ [last]) (.file content)

def write (path content : String) (d : Disk) : WriteOutcome × Disk :=
  if hasNull path then (.broken DiskError.nullInPath.reason, d)
  else match d.writeFile path content with
    | .ok d    => (.done, d)
    | .error e => (.refused (some (DiskFailure.message ⟨e, Json.Display.quoted path⟩)), d)

/-! ### As a store -/

def storage : Storage Disk :=
  { select := fun d => (.ok d.defaultDirectory, d)
    createDirectory := fun path d =>
      let (outcome, d) := d.createDirectory path
      (outcome.mapError DiskFailure.message, d)
    deleteDirectory := fun path d =>
      let (outcome, d) := d.deleteDirectory path
      (outcome.mapError DiskFailure.message, d)
    write := write }

/-- An empty disk that offers the given directory, or else that of the settings. -/
def empty (given : Option String) (s : Settings) : Disk :=
  { defaultDirectory := (given.filter (· != "")).or s.defaultOutputDir }

/-- Everything in the tree, files with their content, by path. -/
def listing (d : Disk) : List (String × Option String) :=
  let all := d.entries.map fun (p, e) => (join p, match e with
    | .directory    => none
    | .file content => some content)
  all.mergeSort fun a b => a.1 ≤ b.1

end Disk

end VisualScript
