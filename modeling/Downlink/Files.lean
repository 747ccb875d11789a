import Downlink.Capture.Writer
import Downlink.Config.Reader
import Downlink.Replay
import Downlink.SystemError

/-!
# Files

A file system is given by its answers: what a file holds, and whether one can be made. A path is
followed name by name, so each name but the last has to be a directory even where `..` follows it.
Configurations and captures are read from files.
-/

namespace Downlink

structure Files where
  read : String → Except SystemError Bytes
  /-- Whether an empty file can be made, in place of one that may be there. -/
  create : String → Except SystemError Unit

namespace Files

/-! ## Places -/

inductive Place
  /-- By the names on the way from the working directory. -/
  | inside (names : List String)
  /-- By the names on the way from the root. -/
  | rooted (names : List String)
  | around
  | beside
deriving DecidableEq, Repr

inductive Entry
  | file (content : Bytes)
  | directory
  | missing
deriving DecidableEq, Repr

def Place.child (name : String) : Place → Place
  | .inside names => .inside (names ++ [name])
  | .rooted names => .rooted (names ++ [name])
  | .around | .beside => .beside

/-- The directory around a directory; the root is around itself. -/
def Place.parent : Place → Place
  | .inside [] => .around
  | .inside names => .inside names.dropLast
  | .rooted names => .rooted names.dropLast
  | .around | .beside => .around

def rootDirectories : List String :=
  ["bin", "dev", "etc", "home", "lib", "proc", "sbin", "sys", "tmp", "usr", "var"]

/-- Whether everyone may make files there: in the working directory and among temporary files. -/
def Place.isOpen : Place → Bool
  | .inside _ => true
  | .rooted names => names.head? = some "tmp" && names.length > 1
  | .around | .beside => false

/-- What stands at a place, by the names of all files of the working directory. Outside of it are
the null device and the directories that have to be there. -/
def entryAt (files : List (List String × Bytes)) : Place → Entry
  | .inside names =>
    match files.lookup names with
    | some content => .file content
    | none =>
      if names.isEmpty ∨ files.any (names.isPrefixOf ·.1) then .directory else .missing
  | .rooted [] => .directory
  | .rooted [name] => if rootDirectories.contains name then .directory else .missing
  | .rooted names => if names = ["dev", "null"] then .file [] else .missing
  | .around => .directory
  | .beside => .missing

/-! ## Paths -/

/-- The longest name of a file, in bytes. -/
def maxName : Nat := 255

/-- The longest path, in bytes. -/
def maxPath : Nat := 4095

/-- The names of a path; one is empty where slashes follow each other, begin the path or end it. -/
def parts (path : String) : List String :=
  path.splitOn "/"

/-- Follows names from a place. Whatever another name follows, be it empty, is a directory. -/
def walk (files : List (List String × Bytes)) : Place → List String → Except SystemError Place
  | place, [] => .ok place
  | place, part :: rest =>
    match entryAt files place with
    | .file _ => .error .notDirectory
    | .missing => .error .notFound
    | .directory =>
      if part = "" ∨ part = "." then walk files place rest
      else if part = ".." then walk files place.parent rest
      else if maxName < part.utf8ByteSize then .error .nameTooLong
      else walk files (place.child part) rest

/-- Where a path begins; an empty or too long one leads nowhere. -/
def origin (path : String) : Except SystemError Place :=
  if path = "" then .error .notFound
  else if maxPath < path.utf8ByteSize then .error .nameTooLong
  else .ok (if path.startsWith "/" then .rooted [] else .inside [])

def readIn (files : List (List String × Bytes)) (path : String) : Except SystemError Bytes := do
  let place ← walk files (← origin path) (parts path)
  match entryAt files place with
  | .file content => return content
  | .directory => throw .isDirectory
  | .missing => throw .notFound

/-- Whether a file can be made at a path in a directory with these files. -/
def createIn (files : List (List String × Bytes)) (path : String) : Except SystemError Unit := do
  let start ← origin path
  let parts := parts path
  let name := parts.getLastD ""
  if name = "" then
    let _ ← walk files start ((parts.filter (· ≠ "")).dropLast ++ [""])
    throw .isDirectory
  else
    let directory ← walk files start (parts.dropLast ++ [""])
    let place ← walk files directory [name]
    match entryAt files place with
    | .directory => throw .isDirectory
    | .file _ => return
    | .missing => if place.isOpen then return else throw .permissionDenied

def ofList (files : List (String × Bytes)) : Files :=
  let placed := files.map fun (name, content) => ((parts name).filter (· ≠ ""), content)
  ⟨readIn placed, createIn placed⟩

/-! ## Contents -/

def contents (files : Files) (path : String) : Except LinkError Bytes :=
  (files.read path).mapError fun e => .file path e.message

/-- Everything that a file holds, as text in UTF-8. -/
def text (files : Files) (path : String) : Except LinkError String := do
  let bytes ← files.contents path
  match String.fromUTF8? ⟨bytes.toArray⟩ with
  | some text => return text
  | none => throw (.file path "stream did not contain valid UTF-8")

def config (files : Files) (path : String) : Except LinkError (Config × Layout) :=
  files.text path >>= Config.load

def capture (files : Files) (path : String) : Except LinkError Capture.Reader :=
  files.contents path >>= Capture.Reader.ofBytes path

def replay (files : Files) (path : String) : Except LinkError Replay :=
  (files.capture path).map .ofReader

def newCapture (files : Files) (path : String) : Except LinkError Capture.Writer :=
  match files.create path with
  | .ok () => .ok .empty
  | .error e => .error (.file path e.message)

end Files

end Downlink
