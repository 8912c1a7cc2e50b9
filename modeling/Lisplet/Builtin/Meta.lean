import Lisplet.Builtin.Collection
import Lisplet.Interpreter.Engine
import Lisplet.Reader.Basic

/-!
# Console, assignment, evaluation and introspection

Operations that reach beyond their arguments: they print and read, assign to variables, evaluate
text, raise and catch errors, and look into the interpreter itself.
-/

namespace Lisplet.Builtin

open Eval

/-! ## The console -/

def print (args : List Value) : Eval Value := do
  let line := " ".intercalate (← plainTexts args)
  fun i => .ok .true { i with console := i.console.writeLine line }

/-- The text of an optional argument, of which there can be only one. -/
def optionalText : List Value → Eval String
  | [] => pure ""
  | [v] => plainText v
  | _ :: extra :: _ => tooMany extra

def read (args : List Value) : Eval Value := do
  let prompt ← optionalText args
  fun i =>
    let (line, console) := i.console.readLine prompt
    .ok ((line.map Value.str).getD .nil) { i with console }

/-! ## Assignment and evaluation -/

/-- Assigns to the name that a value is. -/
def assignTo (v : Value) : Value → Eval Value
  | .str path => Eval.assign path v
  | .symbol path => Eval.assign path v
  | other => failWith .identifierExpected other

/-- `(setq name|path value)`; a name that is not written as a symbol is computed. -/
def assign (e : Engine) : List Value → Eval Value
  | .symbol path :: v :: _ => Eval.assign path v
  | form :: v :: _ => e.value form (assignTo v)
  | _ => missingArgument

/-- `(eval string|value)` evaluates the forms that a string writes, or a value once more. -/
def eval (e : Engine) : List Value → Eval Value
  | .str source :: _ => do
    let forms ← ofExcept (Lisplet.read source)
    e.sequence (← load forms) .nil
  | v :: _ => e.evaluate v
  | [] => missingArgument

def apply (e : Engine) : List Value → Eval Value
  | f :: .nil :: _ => e.apply f []
  | f :: .list cell :: _ => do e.apply f (← items cell)
  | _ :: v :: _ => failWith (.typeMismatch .list) v
  | _ => missingArgument

/-! ## Errors -/

def throw : List Value → Eval Value
  | .str message :: _ => fail (.thrown message)
  | .error err :: _ => MonadExcept.throw (Halt.error err)
  | v :: _ => failWith (.typeMismatch .string) v
  | [] => missingArgument

def handlerName (v : Value) : Eval String :=
  match v with
  | .symbol name | .str name =>
    if Path.isSimple name then pure name else failWith (.typeMismatch .symbol) v
  | _ => failWith (.typeMismatch .symbol) v

def attempt (e : Engine) : List Value → Eval Value
  | form :: name :: handler :: _ => do
    let name ← handlerName name
    rescue (e.evaluate form) fun err => inFrame [(name, .error err)] (e.evaluate handler)
  | _ => missingArgument

/-! ## Introspection -/

/-- `(help [start])` is the help texts of the primitives whose names begin that way. -/
def help (args : List Value) : Eval Value := do
  let start ← optionalText args
  fun i =>
    let texts := i.help.filterMap fun (name, text) =>
      if start.toList.isPrefixOf name.toList then some text else none
    .ok (.str ("\n".intercalate texts)) i

def typeName : List Value → Eval Value
  | v :: _ => pure (.str v.typeName)
  | [] => missingArgument

def bound : List Value → Eval Value
  | .symbol path :: _ => rescue (do let _ ← resolve path; pure .true) fun _ => pure .nil
  | v :: _ => failWith (.typeMismatch .symbol) v
  | [] => missingArgument

end Lisplet.Builtin
