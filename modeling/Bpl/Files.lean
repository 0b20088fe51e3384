import Bpl.Path
import Bpl.Session
import Bpl.Terminal

namespace Bpl

/-- Why a file cannot be read or written. -/
inductive FileFault where
  | absent
  | notDirectory
  | directory
  | notText
  deriving DecidableEq

def FileFault.message : FileFault → String
  | absent => "No such file or directory (os error 2)"
  | notDirectory => "Not a directory (os error 20)"
  | directory => "Is a directory (os error 21)"
  | notText => "stream did not contain valid UTF-8"

/-- The files below a directory, each under the names that lead to it from there. Directories
exist where files need them. -/
structure Files where
  entries : List (List Path.Part × ByteArray)

namespace Files

/-- What is found at a place. -/
inductive Node where
  | file (contents : ByteArray)
  | directory
  | absent

/-- Where a path leads: below the directory, to a directory around it, or to something in one of
those, of which nothing is known. -/
inductive Place where
  | below (names : List Path.Part)
  | above
  | elsewhere
  deriving DecidableEq

def node (fs : Files) : Place → Node
  | .above => .directory
  | .elsewhere => .absent
  | .below names =>
    match fs.entries.find? (·.1 == names) with
    | some (_, contents) => .file contents
    | none =>
      if names.isEmpty || fs.entries.any (names.isPrefixOf ·.1) then .directory else .absent

/-- One part further from a directory. -/
def Place.enter (place : Place) (part : Path.Part) : Place :=
  if Path.idle part then place
  else match place with
    | below names =>
      if part ≠ ['.', '.'] then below (names ++ [part])
      else if names.isEmpty then above
      else below names.dropLast
    | above | elsewhere => if part = ['.', '.'] then above else elsewhere

/-- Follows the parts of a path; only directories can be passed. -/
def follow (fs : Files) (place : Place) : List Path.Part → Except FileFault Place
  | [] => .ok place
  | part :: parts =>
    match fs.node place with
    | .file _ => .error .notDirectory
    | .absent => .error .absent
    | .directory => follow fs (place.enter part) parts

def locate (fs : Files) (p : Path) : Except FileFault Place :=
  match p.parts with
  | [] :: part :: parts => fs.follow .above (part :: parts)
  | parts => fs.follow (.below []) parts

def read (fs : Files) (p : Path) : Except FileFault String := do
  match fs.node (← fs.locate p) with
  | .absent => throw .absent
  | .directory => throw .directory
  | .file contents =>
    match String.fromUTF8? contents with
    | some text => return text
    | none => throw .notText

/-- The files with `contents` at a place. What is put elsewhere is not seen. -/
def put (fs : Files) (place : Place) (contents : ByteArray) : Files :=
  match place with
  | .below names => ⟨fs.entries.filter (·.1 != names) ++ [(names, contents)]⟩
  | .above | .elsewhere => fs

/-- Writes a file in place of one that may be there; its directory must be there. -/
def write (fs : Files) (p : Path) (text : String) : Except FileFault Files := do
  let place ← fs.locate p
  match fs.node place with
  | .directory => throw .directory
  | .absent | .file _ => return fs.put place text.toUTF8

/-- The surroundings of a run that only knows these files. Linking changes none of them; how it
ends is up to the program of that name. -/
def host (linker : String → Except String Unit) : Host (StateM Files) where
  read p := do return ((← get).read p).mapError FileFault.message
  write p text := do
    match (← get).write p text with
    | .ok fs =>
      set fs
      return .ok ()
    | .error e => return .error e.message
  link program _ _ := return linker program
  strip := Terminal.plain

/-- The files that are new or have other contents than before. -/
def changed (before after : Files) : List (List Path.Part × ByteArray) :=
  after.entries.filter fun entry => !before.entries.contains entry

end Files

end Bpl
