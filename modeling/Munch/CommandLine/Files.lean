/-
The files that the command finds and leaves. A path is followed from directory to directory, and
leads to a file, to a directory, or nowhere.
-/
import Munch.Text.Utf8

namespace Munch.CommandLine

open Text

/-- A part of the output. -/
inductive Part where
  | text (s : String)
  /-- How many seconds the matching took. -/
  | seconds

/-- What is written to a stream or file; a place for the time is filled in by the caller. -/
def render (seconds : String) (parts : List Part) : String :=
  String.join (parts.map fun
    | .text s => s
    | .seconds => seconds)

/-- Why a path leads to no file. -/
inductive PathFault where
  /-- A directory on the way is not there. -/
  | missing
  /-- A file stands where a directory has to. -/
  | notDirectory
  | isDirectory
  /-- The path holds the character that ends every path. -/
  | zero
  | tooLong

/-- The parts of a path, without empty ones and those that stay where they are. -/
def pathParts (path : String) : List String :=
  (path.splitOn "/").filter fun part => part != "" && part != "."

/-- The path made of the parts, from the root or from the directory of the command. -/
def joinPath (absolute : Bool) (parts : List String) : String :=
  if absolute then "/" ++ "/".intercalate parts
  else if parts.isEmpty then "."
  else "/".intercalate parts

/-- The path without the parts that change nothing. -/
def plainPath (path : String) : String :=
  joinPath (path.startsWith "/") (pathParts path)

/-- The parts of the directory above. Above the root there is nothing else. -/
def above (absolute : Bool) (here : List String) : List String :=
  match here.getLast? with
  | none => if absolute then [] else [".."]
  | some ".." => here ++ [".."]
  | some _ => here.dropLast

/-- How many bytes a part of a path may take. -/
def maxNameBytes : Nat := 255

/-- How many bytes a path may take. -/
def maxPathBytes : Nat := 4095

/-- Where a path leads. -/
inductive Place where
  | directory
  /-- A file that is there, or that can be put there. -/
  | file (path : String)

/-- Files and directories by their plain paths. -/
structure Files where
  contents : List (String × List Part)
  directories : List String

namespace Files

/-- The directories that need no mention are those above the one of the command, and the root. -/
def isDirectory (files : Files) (absolute : Bool) (parts : List String) : Bool :=
  parts.all (· == "..") || files.directories.contains (joinPath absolute parts)

/-- Follows parts of a path from a directory on. -/
def follow (files : Files) (absolute : Bool) (here : List String) :
    List String → Except PathFault Place
  | [] => .ok .directory
  | part :: rest =>
    let next := here ++ [part]
    let path := joinPath absolute next
    if maxNameBytes < (utf8 part).length then .error .tooLong
    else if part = ".." then files.follow absolute (above absolute here) rest
    else if files.isDirectory absolute next then files.follow absolute next rest
    else if rest.isEmpty then .ok (.file path)
    else if files.contents.any (·.1 == path) then .error .notDirectory
    else .error .missing

/-- Where a path leads. -/
def place (files : Files) (path : String) : Except PathFault Place :=
  if path.contains '\x00' then .error .zero
  else if maxPathBytes < (utf8 (plainPath path)).length then .error .tooLong
  else files.follow (path.startsWith "/") [] (pathParts path)

/-- What is in a file, if there is one. -/
def read? (files : Files) (path : String) : Except PathFault (Option (List Part)) :=
  match files.place path with
  | .ok (.file path) => .ok (files.contents.lookup path)
  | .ok .directory => .error .isDirectory
  | .error .missing | .error .notDirectory | .error .zero => .ok none
  | .error fault => .error fault

/-- The files with the content of one replaced. -/
def write (files : Files) (path : String) (content : List Part) : Except PathFault Files :=
  match files.place path with
  | .ok (.file path) =>
    .ok { files with contents := files.contents.filter (·.1 != path) ++ [(path, content)] }
  | .ok .directory => .error .isDirectory
  | .error fault => .error fault

end Files

end Munch.CommandLine
