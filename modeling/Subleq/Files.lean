import Subleq.Text.Lines
import Subleq.Text.Quoted
import Subleq.Text.Utf8

/-!
# Subleq.Files — a tree of files

The tools read and write files below one directory. A path is a text whose parts are separated by
slashes; it is followed part by part from that directory. Files hold text that was written, or
octets that may be no text at all.
-/

namespace Subleq

/-- What a file holds. -/
inductive Content where
  | text (s : String)
  | raw (octets : List UInt8)
deriving Repr, DecidableEq

namespace Content

def octets : Content → List UInt8
  | text s => s.toUTF8.toList
  | raw octets => octets

/-- The content as text: UTF-8, whose line ends are unified. -/
def read : Content → Except Text.Utf8.Fault String
  | text s => .ok (String.ofList (Text.unifyNewlines s.toList))
  | raw octets => (Text.Utf8.decode octets).map fun cs => String.ofList (Text.unifyNewlines cs)

/-- The content with a text after it. -/
def append : Content → String → Content
  | text s, more => text (s ++ more)
  | raw octets, more => raw (octets ++ more.toUTF8.toList)

end Content

/-! ## Paths -/

namespace Path

/-- The parts of a path. -/
def split : List Char → List (List Char)
  | [] => [[]]
  | c :: cs =>
    if c = '/' then [] :: split cs
    else
      match split cs with
      | [] => [[c]]
      | part :: parts => (c :: part) :: parts

/-- The parts of a path that are not empty. -/
def steps (path : String) : List String :=
  ((split path.toList).map String.ofList).filter (· ≠ "")

/-- The steps that lead somewhere, not those that stay in a directory. -/
def parts (path : String) : List String := (steps path).filter (· ≠ ".")

/-- The slashes that a path begins with if it starts from the root of the file system: one, or two
where there are exactly two. -/
def root (path : String) : String :=
  match path.toList with
  | '/' :: '/' :: '/' :: _ => "/"
  | '/' :: '/' :: _ => "//"
  | '/' :: _ => "/"
  | _ => ""

/-- The path ends with a slash, so that only a directory can be meant. -/
def endsInSlash (path : String) : Bool := path.toList.getLast? = some '/'

/-- The parts of a path after every `..` has been carried out: each takes away the part before it. At
a root there is nothing to take away; elsewhere a `..` with nothing before it stays. -/
def resolved (path : String) : List String :=
  (parts path).foldl (fun done part =>
    if part ≠ ".." then done ++ [part]
    else if done.any (· ≠ "..") then done.dropLast
    else if root path = "" then done ++ [".."]
    else done) []

/-- The path of a root and parts, which stays where it is if there is neither. -/
def join (root : String) (parts : List String) : String :=
  if root = "" ∧ parts = [] then "." else root ++ "/".intercalate parts

/-- The path with no more slashes and parts than it needs. -/
def clean (path : String) : String := join (root path) (parts path)

/-- The path with every `..` carried out. -/
def normal (path : String) : String := join (root path) (resolved path)

/-- The path without its last part. -/
def parent (path : String) : String := join (root path) (parts path).dropLast

/-- The paths that lead to a path, the shortest first, and the path itself. -/
def leading (path : String) : List String :=
  (List.range (parts path).length).map fun n => join (root path) ((parts path).take (n + 1))

/-- Replaces ASCII capitals by small letters. -/
def lowerAscii (cs : List Char) : List Char := cs.map Char.toLower

/-- What follows the last full stop in the last part of a path, with that full stop, in small
letters. Full stops that the last part begins with do not count. -/
def ending (path : String) : String :=
  let name := ((split path.toList).getLast?.getD []).dropWhile (· = '.')
  let tail := (name.reverse.takeWhile (· ≠ '.')).reverse
  if tail.length = name.length then "" else String.ofList ('.' :: lowerAscii tail)

end Path

/-! ## Errors -/

/-- Why a path cannot be used. -/
inductive FileError.Kind where
  | notFound
  | exists
  | notADirectory
  | isADirectory
  | nameTooLong
  | nullCharacter
deriving Repr, DecidableEq

/-- A path that cannot be used. -/
structure FileError where
  kind : FileError.Kind
  path : String
deriving Repr, DecidableEq

def FileError.message (e : FileError) : String :=
  let name := Text.quoted e.path
  match e.kind with
  | .notFound => s!"[Errno 2] No such file or directory: {name}"
  | .exists => s!"[Errno 17] File exists: {name}"
  | .notADirectory => s!"[Errno 20] Not a directory: {name}"
  | .isADirectory => s!"[Errno 21] Is a directory: {name}"
  | .nameTooLong => s!"[Errno 36] File name too long: {name}"
  | .nullCharacter => "embedded null byte"

/-! ## Places -/

/-- A place in the tree: the names that lead to it from the directory at the top, or from the root
of the file system, which has the name `/`. A place above the top begins with as many `..` as there
are steps up. -/
abbrev Place : Type := List String

namespace Place

/-- The top of the tree, a directory above it, or the root. -/
def isAbove (place : Place) : Bool := place = ["/"] || place.all (· = "..")

/-- The directory that a place is in. The root is in itself. -/
def above (place : Place) : Place :=
  if place = ["/"] then place
  else if place.isAbove then place ++ [".."]
  else place.dropLast

/-- The place is below the top. -/
def isInside (place : Place) : Bool := place.head? ≠ some "/" && place.head? ≠ some ".."

/-- The place that a path starts from. -/
def origin (path : String) : Place := if Path.root path = "" then [] else ["/"]

/-- The place that a path means where all that it leads through is there. -/
def ofPath (path : String) : Place := origin path ++ Path.resolved path

/-- The shortest path to a place. -/
def path (place : Place) : String :=
  match place with
  | "/" :: names => Path.join "/" names
  | names => Path.join "" names

end Place

/-! ## The tree -/

/-- A node of the tree. -/
inductive FileNode where
  | file (content : Content)
  | directory
deriving Repr, DecidableEq

/-- The nodes of the tree by their places. The top, the directories above it and the root are always
there. -/
structure Files where
  nodes : List (Place × FileNode) := []
deriving Repr, DecidableEq

namespace Files

/-- The node at a place. -/
def find? (fs : Files) (place : Place) : Option FileNode :=
  if place.isAbove then some .directory else fs.nodes.lookup place

/-- Puts a node at a place. -/
def put (fs : Files) (place : Place) (node : FileNode) : Files :=
  ⟨fs.nodes.filter (·.1 ≠ place) ++ [(place, node)]⟩

/-- The place that steps lead to from a directory. All but the last step have to lead to a
directory. -/
def follow (fs : Files) (place : Place) : List String → Except FileError.Kind Place
  | [] => .ok place
  | step :: steps =>
    match fs.find? place with
    | none => .error .notFound
    | some (.file _) => .error .notADirectory
    | some .directory =>
      if step = "." then fs.follow place steps
      else if step = ".." then fs.follow place.above steps
      else if 255 < step.utf8ByteSize then .error .nameTooLong
      else fs.follow (place ++ [step]) steps

/-- The place that steps lead to from where a path starts, if the path can be used at all. -/
def locateBy (fs : Files) (path : String) (steps : List String) : Except FileError.Kind Place :=
  if path.toList.contains (Char.ofNat 0) then .error .nullCharacter
  else if path = "" then .error .notFound
  else if 4096 ≤ path.utf8ByteSize then .error .nameTooLong
  else fs.follow (Place.origin path) steps

/-- The place that a path leads to. -/
def locate (fs : Files) (path : String) : Except FileError.Kind Place :=
  fs.locateBy path (Path.steps path)

/-- The content of the file at a path. -/
def read (fs : Files) (path : String) : Except FileError Content :=
  match fs.locate path with
  | .error kind => .error ⟨kind, path⟩
  | .ok place =>
    match fs.find? place with
    | none => .error ⟨.notFound, path⟩
    | some .directory => .error ⟨.isADirectory, path⟩
    | some (.file content) =>
      if Path.endsInSlash path then .error ⟨.notADirectory, path⟩ else .ok content

/-- The place of the file at a path that is to be written, and what the file holds if it is there.
With a slash at its end the path means a directory, whatever the last name is: that name is not
looked at, and only the directory that it would be in has to be there. -/
def openForWriting (fs : Files) (path : String) :
    Except FileError (Place × Option Content) :=
  let steps := Path.steps path
  let steps := if Path.endsInSlash path then steps.dropLast ++ ["."] else steps
  match fs.locateBy path steps with
  | .error kind => .error ⟨kind, path⟩
  | .ok place =>
    match fs.find? place with
    | none => .ok (place, none)
    | some .directory => .error ⟨.isADirectory, path⟩
    | some (.file content) => .ok (place, some content)

/-- Writes a file: makes it, or replaces what it holds. -/
def write (fs : Files) (path text : String) : Except FileError Files := do
  let (place, _) ← fs.openForWriting path
  return fs.put place (.file (.text text))

/-- Adds a text at the end of a file, which is made if it is not there. -/
def append (fs : Files) (path text : String) : Except FileError Files := do
  let (place, old) ← fs.openForWriting path
  return fs.put place (.file ((old.getD (.text "")).append text))

/-- Makes the directory at a path below one that is there. -/
def makeDirectory (fs : Files) (path : String) : Except FileError Files :=
  match fs.locate path with
  | .error kind => .error ⟨kind, path⟩
  | .ok place =>
    match fs.find? place with
    | some .directory => .ok fs
    | some (.file _) => .error ⟨.exists, path⟩
    | none => .ok (fs.put place .directory)

/-- Makes the directory at a path. Where one above it is missing, all that lead there are made, the
shortest path first. -/
def makeDirectories (fs : Files) (path : String) : Except FileError Files :=
  match fs.locate path with
  | .error .notFound => (Path.leading path).foldlM makeDirectory fs
  | _ => fs.makeDirectory path

/-- Puts a node at the place of a path, below directories that are made where they are not
there. -/
def plant (fs : Files) (path : String) (node : FileNode) : Files :=
  let place := Place.ofPath path
  let leading := (List.range place.length).map place.take
  let fs := leading.foldl
    (fun fs p => if (fs.find? p).isSome then fs else fs.put p .directory) fs
  fs.put place node

/-! ## Comparing -/

/-- The octets of the file at a place. -/
def octets? (fs : Files) (place : Place) : Option (List UInt8) :=
  match fs.find? place with
  | some (.file content) => some content.octets
  | _ => none

/-- The files that another tree does not have in the same form. -/
def changesSince (fs old : Files) : List (Place × Content) :=
  fs.nodes.filterMap fun (place, node) =>
    match node with
    | .file content => if old.octets? place = some content.octets then none else some (place, content)
    | .directory => none

/-- The changes below the top, by their paths and in the order of these. -/
def changesInside (fs old : Files) : List (String × Content) :=
  let inside := (fs.changesSince old).filter (·.1.isInside)
  (inside.map fun (place, content) => (place.path, content)).mergeSort fun x y =>
    decide (x.1 ≤ y.1)

end Files

end Subleq
