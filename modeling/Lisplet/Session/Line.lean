import Lisplet.Text.Cluster.Basic

/-!
# Lines of input

The input of a session is cut into lines. A line that is read as a command, or as the continuation
of one, has been typed: a backspace in it erases the user-perceived character before it, if there
is one.

The size of what a backspace erases is kept in one byte, so it counts modulo 256: of a cluster of
256 bytes or more only the remainder is taken off its end. A line in which that would cut a
character in two has no typed form.
-/

namespace Lisplet.Session

/-- The lines of a stream, each with its terminator; only the last one may have none. -/
def linesFrom (line : List Char) : List Char → List String
  | [] => if line.isEmpty then [] else [String.ofList line.reverse]
  | c :: cs =>
    if c = '\n' then String.ofList (c :: line).reverse :: linesFrom [] cs
    else linesFrom (c :: line) cs

def linesOf (text : String) : List String :=
  linesFrom [] text.toList

/-- A line without its line feed, or carriage return and line feed. -/
def chomp (line : String) : List Char :=
  match line.toList.reverse with
  | '\n' :: '\r' :: cs => cs.reverse
  | '\n' :: cs => cs.reverse
  | cs => cs.reverse

/-! ## Backspaces -/

def backspace : Char := '\x08'

def byteSize (cs : List Char) : Nat :=
  cs.foldl (fun n c => n + c.utf8Size) 0

/-- `cs` without its first `n` bytes, if that leaves whole characters. -/
def dropBytes? : Nat → List Char → Option (List Char)
  | 0, cs => some cs
  | _ + 1, [] => none
  | n + 1, c :: cs => if c.utf8Size ≤ n + 1 then dropBytes? (n + 1 - c.utf8Size) cs else none

structure Typing where
  /-- The text so far, backwards. -/
  text : List Char := []
  /-- The sizes of its clusters, the latest first. -/
  sizes : List Nat := []

def Typing.take? (t : Typing) (cluster : List Char) : Option Typing :=
  if cluster = [backspace] then
    match t.sizes with
    | [] => some t
    | n :: sizes => (dropBytes? n t.text).map fun text => { text, sizes }
  else
    some { text := cluster.reverse ++ t.text, sizes := byteSize cluster % 256 :: t.sizes }

/-- The text that typing a line leaves. A line without backspaces is left as it is. -/
def typed? (cs : List Char) : Option (List Char) :=
  if cs.contains backspace then
    ((Text.clusters cs).foldlM Typing.take? {}).map fun t => t.text.reverse
  else
    some cs

def typedLine? (line : String) : Option String :=
  (typed? (chomp line)).map String.ofList

end Lisplet.Session
