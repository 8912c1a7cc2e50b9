import Lisplet.Text.Path

/-!
# The history file

A session saves its history under a name given by the user. Whether that works depends on what is
there in the file system: the name is followed step by step, every step but the last has to lead
into a directory, and the last one has to be a file or nothing yet. The first step that fails gives
the reason.
-/

namespace Lisplet.CommandLine

inductive Entry where
  | directory
  | file
  deriving DecidableEq, Repr

inductive SaveFault where
  | missing
  | notDirectory
  | isDirectory
  | nameTooLong
  deriving DecidableEq, Repr

def SaveFault.message : SaveFault → String
  | .missing => "No such file or directory (os error 2)"
  | .notDirectory => "Not a directory (os error 20)"
  | .isDirectory => "Is a directory (os error 21)"
  | .nameTooLong => "File name too long (os error 36)"

/-- The most bytes that a single name can have. -/
def maxName : Nat := 255

/-- The most bytes that a name with its directories can have. -/
def maxPath : Nat := 4095

namespace HistoryFile

/-- The names on a path, from the outermost directory on. -/
def names (path : String) : List String :=
  ((Text.pieces '/' path.toList).filter fun name => !name.isEmpty).map String.ofList

def root (path : String) : String :=
  if path.toList.head? = some '/' then "/" else ""

/-- Whether a path can only be that of a directory. -/
def endsInSlash (path : String) : Bool :=
  path.toList.getLast? = some '/'

/-- The paths to all that a path leads through, and to its end, from `base` on. -/
def stepsFrom (base : String) : List String → List String
  | [] => []
  | name :: rest => (base ++ name) :: stepsFrom (base ++ name ++ "/") rest

def steps (path : String) : List String :=
  stepsFrom (root path) (names path)

/-- Whether a name stands for a directory wherever it is. -/
def isDots (name : String) : Bool :=
  name = "." || name = ".."

/-- Follows the names of a path from `base` on, to where a file is to be written. -/
def follow (entry : String → Option Entry) (slash : Bool) (base : String) :
    List String → Option SaveFault
  | [] => some (if slash then .isDirectory else .missing)
  | [name] =>
    if slash || isDots name then some .isDirectory
    else if maxName < name.utf8ByteSize then some .nameTooLong
    else if entry (base ++ name) = some .directory then some .isDirectory
    else none
  | name :: rest =>
    if maxName < name.utf8ByteSize then some .nameTooLong
    else
      match entry (base ++ name) with
      | none => some .missing
      | some .file => some .notDirectory
      | some .directory => follow entry slash (base ++ name ++ "/") rest

/-- Why no file can be written under a path, if that is so; `entry` tells what stands where. -/
def saveFault? (entry : String → Option Entry) (path : String) : Option SaveFault :=
  if maxPath < path.utf8ByteSize then some .nameTooLong
  else follow entry (endsInSlash path) (root path) (names path)

end HistoryFile

end Lisplet.CommandLine
