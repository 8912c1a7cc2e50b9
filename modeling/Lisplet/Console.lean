/-!
# Consoles

Programs write lines and read lines. A console is the input still to be read and all that has been
written. Its input is either a queue of lines, each delivered as it is, or the lines of a stream,
which still carry their terminators.
-/

namespace Lisplet

inductive Emission where
  /-- A line, to be followed by a line feed. -/
  | line (text : String)
  /-- The prompt of a read, to be followed by nothing. -/
  | prompt (text : String)
  deriving DecidableEq, Repr

def Emission.text : Emission → String
  | .line text => text ++ "\n"
  | .prompt text => text

structure Console where
  /-- The lines still to be read. -/
  input : List String := []
  /-- Whether the lines carry their terminators, to be removed when a program reads them. -/
  terminated : Bool := false
  /-- What has been written, the latest first. -/
  written : List Emission := []

namespace Console

def isTerminator (c : Char) : Bool :=
  c == '\n' || c == '\r'

def stripTerminators (line : String) : String :=
  String.ofList (line.toList.reverse.dropWhile isTerminator).reverse

def writeLine (c : Console) (text : String) : Console :=
  { c with written := .line text :: c.written }

/-- Shows the prompt, if there is one, and takes the next line of input. -/
def readLine (c : Console) (prompt : String) : Option String × Console :=
  let c := if prompt.isEmpty then c else { c with written := .prompt prompt :: c.written }
  match c.input with
  | [] => (none, c)
  | line :: rest =>
    (some (if c.terminated then stripTerminators line else line), { c with input := rest })

def linesOf (out : List Emission) : List String :=
  out.filterMap fun
    | .line text => some text
    | .prompt _ => none

def textOf (out : List Emission) : String :=
  String.join (out.map Emission.text)

end Console

end Lisplet
