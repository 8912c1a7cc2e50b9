import Lisplet.Interpreter.Evaluate
import Lisplet.Interpreter.Prelude

/-!
# Running sources

A source is read as a whole before any of it is evaluated. Then its forms are evaluated in order,
and the value of the last one is the result. A signal that comes out of a form at this level has
nowhere to go and is an error, with the form as its breadcrumb.
-/

namespace Lisplet

open Eval

variable [Host]

def stray (cause : Cause) (form : Value) : Eval Value :=
  leavingCrumb form (fail cause)

/-- The value `v` of a form at the outermost level, where a signal is an error. -/
def settled (form : Value) : Value → Eval Value
  | .leaving _ => stray .strayReturn form
  | .breaking _ => stray .strayBreak form
  | .goto target => stray (.gotoTargetNotFound target) form
  | .label _ => stray .improperLabels form
  | v => pure v

def evalTop (fuel : Nat) : List Value → Value → Eval Value
  | [], result => pure result
  | form :: rest, _ => do
    let v ← evaluate fuel form
    evalTop fuel rest (← settled form v)

def evalForms (fuel : Nat) (forms : Except Error (List Form)) : Eval Value := do
  let forms ← load (← ofExcept forms)
  evalTop fuel forms .nil

/-- Reads and evaluates a source that has to be complete. -/
def evalSource (fuel : Nat) (source : String) : Eval Value :=
  evalForms fuel (read source)

namespace Interpreter

abbrev Outcome := Except Halt Value

def run {α : Type} (i : Interpreter) (act : Eval α) : Except Halt α × Interpreter :=
  match act i with
  | .ok a i => (.ok a, i)
  | .error h i => (.error h, i)

/-- Reads a source, with answers for when it leaves a form open, and evaluates it. The reader tells
what was asked and which answers are left. -/
def evalInteractive (i : Interpreter) (fuel : Nat) (source : String)
    (answers : List (Option String)) : Outcome × Interpreter × Reader :=
  let (forms, reader) := (Reader.ofSource source answers).all
  let (outcome, i) := i.run (evalForms fuel forms)
  (outcome, i, reader)

end Interpreter

end Lisplet
