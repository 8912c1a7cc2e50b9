import Lisplet.Interpreter.Run
import Lisplet.Session.Line

/-!
# Sessions

A session evaluates the lines of its input one after the other on one interpreter. A line of blanks
is skipped. Any other line is a command: while it leaves a form open, the following lines are added
to it, up to an empty one; what the command then reads comes from the lines after those. A command
ends in a value or an error, and the session goes on either way until the input ends.

Commands and their continuations are typed lines, in which backspaces have done their work; what a
command reads is taken from the input as it is.
-/

namespace Lisplet.Session

inductive Turn where
  /-- A line of blanks. -/
  | skipped (line : String)
  /-- A command, with the lines its source went on in, the lines it read, what it wrote and how it
  ended. Values are given by their canonical text. -/
  | command (line : String) (continuation reads : List String) (written : List Emission)
      (outcome : Except Halt String)

def Turn.lines : Turn → List String
  | .skipped line => [line]
  | .command line continuation reads _ _ => line :: continuation ++ reads

/-- The turn of a command that has come to a line without a typed form. -/
def Turn.untyped (line : String) (continuation : List String) : Turn :=
  .command line continuation [] [] (.error (.crash .characterCut))

/-- Evaluates a command. The input of the interpreter is the lines after it, and `following` has
their typed forms. -/
def command (fuel : Nat) (i : Interpreter) (line source : String)
    (following : List (Option String)) : Turn × Interpreter :=
  let (forms, reader) := (Reader.ofSource source following).all
  let taken := following.length - reader.answers.length
  let continuation := i.console.input.take taken
  let rest := i.console.input.drop taken
  if (following.take taken).contains none then
    (.untyped line continuation, i)
  else
    let i := { i with console := { i.console with input := rest, written := [] } }
    let (outcome, i) := i.run (evalForms fuel forms)
    let reads := rest.take (rest.length - i.console.input.length)
    (.command line continuation reads i.console.written.reverse (outcome.map i.heap.text), i)

/-- The turns of a session, at most as many as `turns`. The input of the interpreter is the lines
still to come, and `typed` has their typed forms. A crash ends the session. -/
def run (fuel : Nat) : Nat → List (Option String) → Interpreter → List Turn
  | 0, _, _ => []
  | turns + 1, typed, i =>
    match i.console.input, typed with
    | line :: rest, text :: following =>
      let i := { i with console := { i.console with input := rest } }
      match text with
      | none => [.untyped line []]
      | some source =>
        if (Text.trim source.toList).isEmpty then
          .skipped line :: run fuel turns following i
        else
          match command fuel i line source following with
          | (.command l c r w (.error (.crash x)), _) => [.command l c r w (.error (.crash x))]
          | (turn, i) => turn :: run fuel turns (following.drop (turn.lines.length - 1)) i
    | _, _ => []

/-- A session over the lines of a text. Every turn uses up a line, so there are no more turns than
lines. -/
def ofText (fuel : Nat) (maxDepth : Nat) (input : String) : List Turn :=
  let lines := linesOf input
  run fuel lines.length (lines.map typedLine?)
    (Interpreter.fresh maxDepth { input := lines, terminated := true })

end Lisplet.Session
