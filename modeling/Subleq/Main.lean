import Subleq.CommandLine.Compiler
import Subleq.CommandLine.Toolkit

/-!
# Subleq.Main — the program

The first word on the command line names the tool, the other words are the tool's own. The files
that the words name are taken from the disk before the tool starts, and what the tool changes is
written back after it has ended. While a tool wants more lines than it was given, it is started
again with one more line from the terminal; what it printed before is then the beginning of what it
prints now, so that only the rest has to be shown.
-/

namespace Subleq.Main

/-- The tool of a name. Its command line is read by the rules of the late release. -/
def tool? : String → Option (List String → Shell → CommandLine.Ending × Shell)
  | "oisccc" => some (CommandLine.Compiler.main .late)
  | "oisckit" => some (CommandLine.Toolkit.main .late)
  | _ => none

/-- What is on the disk at a path. A path that cannot be read as a file is taken for a directory. -/
def probe (path : String) : IO (Option FileNode) := do
  try
    let octets ← IO.FS.readBinFile path
    return some (.file (.raw octets.toList))
  catch
    | .noFileOrDirectory .. => return none
    | _ => return some .directory

/-- Takes the files that words name from the disk. -/
def gather (words : List String) : IO Files := do
  let mut files : Files := {}
  for path in words.flatMap Path.leading do
    if let some node ← probe path then files := files.plant path node
  return files

/-- Writes files to the disk. -/
def store (changes : List (Place × Content)) : IO Unit :=
  for (place, content) in changes do
    let path := place.path
    IO.FS.createDirAll (Path.parent path)
    IO.FS.writeBinFile path (ByteArray.mk content.octets.toArray)

/-- The text after its first characters. -/
def rest (text : String) (count : Nat) : String := String.ofList (text.toList.drop count)

/-- Ends the program as the tool has ended. -/
def exitStatus : CommandLine.Ending → IO UInt32
  | .status code | .stopped code => return UInt32.ofNat code
  | .failed cause => do
    IO.eprintln cause.message
    return 1

/-- The octets of a line, with the line feed that ends it. -/
partial def octetLine (stream : IO.FS.Stream) (octets : List UInt8) : IO (List UInt8) := do
  match (← stream.read 1).toList with
  | [] => return octets
  | more =>
    if more = [10] then return octets ++ more else octetLine stream (octets ++ more)

/-- What the octets of a line are to the terminal. -/
def typedLine (octets : List UInt8) : Terminal.Line :=
  match Text.Utf8.decode octets with
  | .ok cs => .text (String.ofList (Text.cutLine cs).1)
  | .error cause => .undecodable cause

/-- Runs a tool on the lines read so far, of which so many characters of the output are shown
already, and reads another line when the tool wants one. -/
partial def serve (start : List Terminal.Line → IO (CommandLine.Ending × Shell × Files))
    (lines : List Terminal.Line) (shown : Nat) : IO UInt32 := do
  let (ending, sh, files) ← start lines
  IO.print (rest sh.output shown)
  (← IO.getStdout).flush
  let octets ← if sh.starved then octetLine (← IO.getStdin) [] else pure []
  if octets.isEmpty then
    IO.eprint sh.errors
    store (sh.files.changesSince files)
    exitStatus ending
  else
    serve start (lines ++ [typedLine octets]) sh.output.length

/-- The file that a line names if it is a command of the console. -/
def namedBy : Terminal.Line → String
  | .text line => String.ofList (Text.trimEnd (Text.firstWord line.toList).2)
  | .undecodable _ => ""

end Subleq.Main

def main (words : List String) : IO UInt32 := do
  match words with
  | name :: words =>
    match Subleq.Main.tool? name with
    | some tool =>
      let start := fun lines => do
        -- At the console a line names files as well.
        let names := words ++ lines.map Subleq.Main.namedBy
        let files ← Subleq.Main.gather (Subleq.Console.defaultImage :: names)
        let (ending, sh) := tool words { files, input := lines }
        return (ending, sh, files)
      Subleq.Main.serve start [] 0
    | none =>
      IO.eprintln "usage: oisccc | oisckit [arguments]"
      return 2
  | [] =>
    IO.eprintln "usage: oisccc | oisckit [arguments]"
    return 2
