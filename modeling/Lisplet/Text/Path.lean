/-!
# Dotted paths

A symbol is a path: segments with dots between them. The first segment names a variable, each
further one a field of the struct reached so far.
-/

namespace Lisplet.Text

/-- The pieces of a text between the separators; there is always at least one. -/
def pieces (separator : Char) : List Char → List (List Char)
  | [] => [[]]
  | c :: cs =>
    if c = separator then
      [] :: pieces separator cs
    else
      match pieces separator cs with
      | [] => [[c]]
      | s :: ss => (c :: s) :: ss

end Lisplet.Text

namespace Lisplet.Path

def segments (path : String) : List String :=
  (Text.pieces '.' path.toList).map String.ofList

def ofSegments (segments : List String) : String :=
  ".".intercalate segments

/-- A path may be assigned to, or read from a source, when no segment is empty. -/
def isValid (path : String) : Bool :=
  (segments path).all fun s => !s.isEmpty

def isSimple (name : String) : Bool :=
  !name.toList.contains '.'

/-- A path of several segments as the path to a struct and a key in it. -/
def parentAndKey? (path : String) : Option (String × String) :=
  match (segments path).reverse with
  | key :: parent@(_ :: _) => some (ofSegments parent.reverse, key)
  | _ => none

end Lisplet.Path
