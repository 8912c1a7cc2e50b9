import Lisplet.Interpreter.Basic
import Lisplet.Text.Path

/-!
# What operations may use

Operations evaluate forms and call functions, and evaluation runs operations. The knot is tied over
fuel: an operation gets an `Engine`, which evaluates and applies with one unit of fuel less than
the operation itself was given, and which also says how many rounds a loop may make.

This module has what evaluation and the operations share: variables behind dotted paths, signals
met where they mean nothing, and kinds of arguments.
-/

namespace Lisplet

/-- Evaluation and application with the remaining fuel. -/
structure Engine where
  /-- How many rounds a loop may still make. -/
  fuel : Nat
  /-- Evaluates a value as program text. -/
  evaluate : Value → Eval Value
  /-- Calls a function with arguments that are already values. -/
  apply : Value → List Value → Eval Value

namespace Eval

/-! ## Paths -/

def follow (path : String) : Value → List String → Eval Value
  | v, [] => pure v
  | .struct cell, key :: rest => do
    match (← fields cell).get? key with
    | some v => follow path v rest
    | none => fail (.keyNotFound key path)
  | v, _ :: _ => failWith (.typeMismatch .struct) v

/-- The value at a path: the first segment is a variable, the others are keys of structs. -/
def resolve (path : String) : Eval Value := do
  match Path.segments path with
  | [] => lookup path
  | name :: keys => follow path (← lookup name) keys

/-- Writes to a path: a plain name is a variable, anything longer a field of the struct that all but
the last segment lead to. -/
def assign (path : String) (v : Value) : Eval Value := do
  if !Path.isValid path then
    fail (.invalidSymbolPath path)
  else
    match Path.parentAndKey? path with
    | none =>
      setVariable path v
      pure v
    | some (parent, key) =>
      match ← resolve parent with
      | .struct cell =>
        write cell (.struct ((← fields cell).insert key v))
        pure v
      | other => failWith (.typeMismatch .struct) other

/-! ## Signals and kinds -/

/-- A signal met where nothing takes it up: it travels on, except that a label is misplaced. -/
def escalate : Value → Eval Value
  | .label _ => fail .improperLabels
  | v => pure v

def accept (kind : Kind) (v : Value) : Eval Value :=
  match kind.accept? v with
  | some v => pure v
  | none => failWith (.typeMismatch kind) v

def tooMany {α : Type} (extra : Value) : Eval α :=
  failWith .tooManyArguments extra

end Eval

namespace Engine

open Eval

/-- Evaluates a form and goes on with its value; a signal is escalated instead. -/
def value (e : Engine) (form : Value) (next : Value → Eval Value) : Eval Value := do
  let v ← e.evaluate form
  if v.isSignal then escalate v else next v

/-- Evaluates forms in order; the result is the last value, or the first signal. -/
def sequence (e : Engine) : List Value → Value → Eval Value
  | [], result => pure result
  | form :: rest, _ => e.value form (e.sequence rest)

end Engine

end Lisplet
