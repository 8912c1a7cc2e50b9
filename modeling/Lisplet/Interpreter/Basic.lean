import Lisplet.Console
import Lisplet.Environment
import Lisplet.Value.Equal
import Lisplet.Value.Text

/-!
# Interpreters

An interpreter is the state of a session: the heap, the variables, the help texts, the console and
the depth of nested evaluation with its limit. `Eval` is a computation on such a state that gives a
result or halts; either way the state it has reached remains.

A cell can be in use for reading, by any number of readers at a time, or for writing, by one writer
alone. Every operation asks for this first: nothing looks into a cell that is in use for writing, and
nothing is written to a cell that is in use at all. Most uses are over before anything else is done
and leave no trace; the state has those in which other computations are run.

Evaluation is allowed a finite amount of fuel, so every computation ends. Running out of fuel is
kept apart from the errors of a program, and so is a crash, in which an operation meets arguments or
a cell it was never meant to meet.
-/

namespace Lisplet

/-- A cell in use, for writing or for reading only. -/
structure Use where
  cell : Nat
  writing : Bool
  deriving DecidableEq

structure Interpreter where
  heap : Heap := {}
  env : Environment Value := {}
  /-- The help text of every primitive, in the order of definition. -/
  help : Record String := []
  console : Console := {}
  /-- How deeply evaluation may nest. -/
  maxDepth : Nat
  /-- How deeply evaluation is nested now. -/
  depth : Nat := 0
  /-- The identity of the next primitive or closure. -/
  nextId : Nat := 0
  /-- The uses of cells that are not over, the latest first. -/
  uses : List Use := []

/-- Whether some cell of a kind is in use for writing. -/
def Interpreter.barred (i : Interpreter) (cells : Nat → Bool) : Bool :=
  i.uses.any fun use => use.writing && cells use.cell

def Interpreter.inUse (i : Interpreter) (cell : Nat) : Bool :=
  i.uses.any fun use => use.cell == cell

/-- What an operation found that must not be. -/
inductive Crash where
  /-- Fewer arguments than the operation's contract promises. -/
  | missingArgument
  /-- A cell was to be read while it was in use for writing, or written while it was in use. -/
  | cellInUse
  /-- A backspace was to erase a part of a character. -/
  | characterCut
  deriving DecidableEq, Repr

def Crash.message : Crash → String
  | .missingArgument => "an argument is missing"
  | .cellInUse => "RefCell already mutably borrowed"
  | .characterCut => "a character was cut in two"

inductive Halt where
  /-- An error of the program. -/
  | error (e : Error)
  | crash (c : Crash)
  /-- The fuel was used up before an answer was found. -/
  | outOfFuel
  deriving DecidableEq

abbrev Eval (α : Type) := EStateM Halt Interpreter α

namespace Eval

def fail {α : Type} (cause : Cause) : Eval α :=
  throw (.error { cause })

def ofExcept {α : Type} : Except Error α → Eval α
  | .ok a => pure a
  | .error e => throw (.error e)

def outOfFuel {α : Type} : Eval α :=
  throw .outOfFuel

/-- Halts where the arguments of an operation are not as its contract has it. -/
def missingArgument {α : Type} : Eval α :=
  throw (.crash .missingArgument)

/-! ## Reading and writing the state -/

/-- Runs a computation that looks into the cells `reads` tells of, unless one of them is in use for
writing. -/
def looking {α : Type} (reads : Heap → Nat → Bool) (act : Eval α) : Eval α := fun i =>
  if i.barred (reads i.heap) then .error (.crash .cellInUse) i else act i

def text (v : Value) : Eval String :=
  looking (fun h cell => h.shows cell v) fun i => .ok (i.heap.text v) i

/-- The text a value adds to a string. -/
def plainText (v : Value) : Eval String :=
  looking (fun h cell => h.shows cell v) fun i => .ok (i.heap.plainText v) i

def failWith {α : Type} (cause : String → Cause) (v : Value) : Eval α := do
  fail (cause (← text v))

def items (cell : Nat) : Eval (List Value) :=
  looking (fun _ used => used == cell) fun i => .ok (i.heap.items cell) i

def fields (cell : Nat) : Eval (Record Value) :=
  looking (fun _ used => used == cell) fun i => .ok (i.heap.fields cell) i

def newList (items : List Value) : Eval Value := fun i =>
  let (v, heap) := i.heap.newList items
  .ok v { i with heap }

def copyList (cell : Nat) : Eval Value :=
  looking (fun _ used => used == cell) fun i =>
    let (a, heap) := i.heap.alloc (.list (i.heap.items cell))
    .ok (.list a) { i with heap }

def newStruct (fields : Record Value) : Eval Value := fun i =>
  let (v, heap) := i.heap.newStruct fields
  .ok v { i with heap }

/-- Overwrites the contents of a cell, unless it is in use. -/
def write (cell : Nat) (contents : Cell) : Eval Unit := fun i =>
  if i.inUse cell then .error (.crash .cellInUse) i
  else .ok () { i with heap := i.heap.write cell contents }

def load (forms : List Form) : Eval (List Value) := fun i =>
  let (vs, heap) := i.heap.loadAll forms
  .ok vs { i with heap }

/-- An identity that no primitive or closure has had. -/
def freshId : Eval Nat := fun i =>
  .ok i.nextId { i with nextId := i.nextId + 1 }

def lookup (name : String) : Eval Value := fun i =>
  match i.env.lookup name with
  | .ok v => .ok v i
  | .error e => .error (.error e) i

/-- Assigns to the innermost binding of a name, or to a new global one. -/
def setVariable (name : String) (v : Value) : Eval Unit := fun i =>
  .ok () { i with env := i.env.set name v }

/-! ## Brackets around a computation -/

/-- Runs a computation inside a frame, which is taken away however the computation ends. -/
def inFrame {α : Type} (frame : Record Value) (act : Eval α) : Eval α := fun i =>
  let (env, guard) := i.env.scope frame
  match act { i with env } with
  | .ok a i => .ok a { i with env := i.env.release guard }
  | .error h i => .error h { i with env := i.env.release guard }

def during {α : Type} (use : Use) (act : Eval α) : Eval α := fun i =>
  match act { i with uses := use :: i.uses } with
  | .ok a j => .ok a { j with uses := i.uses }
  | .error h j => .error h { j with uses := i.uses }

def whileReading {α : Type} (cell : Nat) (act : Eval α) : Eval α :=
  looking (fun _ used => used == cell) (during ⟨cell, false⟩ act)

def whileWriting {α : Type} (cell : Nat) (act : Eval α) : Eval α := fun i =>
  if i.inUse cell then .error (.crash .cellInUse) i else during ⟨cell, true⟩ act i

/-- Runs a computation one level deeper, unless that is too deep. -/
def descend {α : Type} (act : Eval α) : Eval α := fun i =>
  if i.depth < i.maxDepth then
    match act { i with depth := i.depth + 1 } with
    | .ok a i => .ok a { i with depth := i.depth - 1 }
    | .error h i => .error h { i with depth := i.depth - 1 }
  else
    .error (.error { cause := .depthExceeded }) i

/-- Adds the text of `v`, as it is by then, to the trail of an error that leaves `act`. -/
def leavingCrumb {α : Type} (v : Value) (act : Eval α) : Eval α := fun i =>
  match act i with
  | .ok a i => .ok a i
  | .error (.error e) i =>
    match text v i with
    | .ok crumb i => .error (.error (e.withCrumb crumb)) i
    | .error h i => .error h i
  | .error h i => .error h i

/-- Runs a computation, and on an error of the program another one. -/
def rescue {α : Type} (act : Eval α) (handler : Error → Eval α) : Eval α := fun i =>
  match act i with
  | .ok a i => .ok a i
  | .error (.error e) i => handler e i
  | .error h i => .error h i

end Eval

end Lisplet
