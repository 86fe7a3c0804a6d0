/-! # Files

A path is followed name by name. Each name but the last has to lead to a directory.
-/

namespace HostCode.CommandLine

inductive Entry
  | text (content : String)
  | directory
  | missing
  deriving DecidableEq, Repr

inductive PathError | zero | tooLong | missing | notDirectory
  deriving DecidableEq, Repr

def PathError.message : PathError → String
  | zero => "invalid argument"
  | tooLong => "file name too long"
  | missing => "no such file or directory"
  | notDirectory => "not a directory"

def maxName : Nat := 255

def maxPath : Nat := 4095

/-- The names of a path, each with the path up to it, from which `start` leads on. -/
def stages (start : String) : List String → List (String × String)
  | [] => []
  | name :: rest => (name, start ++ name) :: stages (start ++ name ++ "/") rest

/-- The stages of a whole path. The empty path before its first slash is the root. -/
def stagesOf (path : String) : List (String × String) := stages "" (path.splitOn "/")

def follow (find : String → Entry) : List (String × String) → Except PathError Entry
  | [] => .error .missing
  | (name, path) :: rest =>
    if maxName < name.utf8ByteSize then .error .tooLong else
    match find path, rest with
    | .missing, _ => .error .missing
    | .text _, _ :: _ => .error .notDirectory
    | entry, [] => .ok entry
    | .directory, rest => follow find rest

/-- Opens the file at a path, where `find` tells what the paths to it lead to. -/
def openFile (find : String → Entry) (path : String) : Except PathError Entry :=
  if path.contains (Char.ofNat 0) then .error .zero
  else if maxPath < path.utf8ByteSize then .error .tooLong
  else follow find (stagesOf path)

end HostCode.CommandLine
