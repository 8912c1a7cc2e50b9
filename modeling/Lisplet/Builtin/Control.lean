import Lisplet.Interpreter.Body

/-!
# Control

Conditionals, blocks, jumps, loops and functions. These operations get some or all of their
arguments unevaluated and decide for themselves what to evaluate, in which frame and how often.
-/

namespace Lisplet.Builtin

open Eval

/-- The name of a local variable: a symbol or string that is a single segment. -/
def localName (v : Value) : Eval String :=
  match v.labelName? with
  | some name => if Path.isSimple name then pure name else failWith .invalidLocalName v
  | none => failWith .invalidLocalName v

def localNames : List Value → Eval (List String)
  | [] => pure []
  | v :: vs => do
    let name ← localName v
    let names ← localNames vs
    pure (name :: names)

/-! ## Conditionals and blocks -/

def conditional (e : Engine) : List Value → Eval Value
  | condition :: consequent :: rest =>
    match rest with
    | [] => e.value condition fun v => if v.isTruthy then e.evaluate consequent else pure .nil
    | [alternative] =>
      e.value condition fun v => if v.isTruthy then e.evaluate consequent else e.evaluate alternative
    | _ :: extra :: _ => tooMany extra
  | _ => fail .thenExpected

/-- The frame of a block, given by a struct of initial values, by a list of names or by `Nil`. -/
def blockFrame : Value → Eval (Record Value)
  | .struct cell => fields cell
  | .list cell => whileReading cell do
    let names ← localNames (← items cell)
    pure (Record.ofEntries (names.map fun name => (name, .nil)))
  | .nil => pure []
  | v => failWith (.typeMismatch .struct) v

def block (e : Engine) : List Value → Eval Value
  | locals :: forms => do
    let frame ← blockFrame locals
    let flow ← inFrame frame (e.runBody forms)
    pure flow.toValue
  | [] => missingArgument

/-! ## Jumps -/

def labelName (v : Value) : Eval String :=
  match v.labelName? with
  | some name => pure name
  | none => failWith .labelNameExpected v

def label : List Value → Eval Value
  | [] => fail (.tooFewArguments "label")
  | [name] => do pure (.label (← labelName name))
  | _ :: extra :: _ => tooMany extra

def goto : List Value → Eval Value
  | [] => fail (.tooFewArguments "goto")
  | [name] => do pure (.goto (← labelName name))
  | _ :: extra :: _ => tooMany extra

/-- The signal made by `signal` from the value of an optional form. -/
def signalWith (signal : Value → Value) (e : Engine) : List Value → Eval Value
  | [] => pure (signal .nil)
  | [form] => e.value form fun v => pure (signal v)
  | _ :: extra :: _ => tooMany extra

/-- `(return [value])` leaves the enclosing block, loop or function. -/
def leave : Engine → List Value → Eval Value :=
  signalWith .leaving

/-- `(break [value])` leaves the enclosing block or loop. -/
def exitLoop : Engine → List Value → Eval Value :=
  signalWith .breaking

/-! ## Loops -/

/-- Goes on after a pass that ran to its end; any other way to end it ends the loop. -/
def afterPass (flow : Flow) (next : Value → Eval Value) : Eval Value :=
  match flow with
  | .next v => next v
  | flow => pure flow.toValue

/-- Repeats the body as long as the condition is as expected, tested before each pass. -/
def repeatWhile (e : Engine) (expected : Bool) (condition : Value) (body : List Value) :
    Nat → Value → Eval Value
  | 0, _ => outOfFuel
  | rounds + 1, result =>
    e.value condition fun test =>
      if test.isTruthy != expected then pure result
      else do
        let flow ← e.runIteration [] body
        afterPass flow (repeatWhile e expected condition body rounds)

/-- `(while condition form ...)`, and `until` with the opposite expectation. -/
def conditionLoop (expected : Bool) (e : Engine) : List Value → Eval Value
  | condition :: body => repeatWhile e expected condition body e.fuel .nil
  | [] => missingArgument

/-- Repeats the body as long as the condition holds, tested after each pass. -/
def repeatDo (e : Engine) (condition : Value) (body : List Value) : Nat → Eval Value
  | 0 => outOfFuel
  | rounds + 1 => do
    let flow ← e.runIteration [] body
    afterPass flow fun result =>
      e.value condition fun test =>
        if test.isTruthy then repeatDo e condition body rounds else pure result

def doLoop (e : Engine) : List Value → Eval Value
  | condition :: body => repeatDo e condition body e.fuel
  | [] => missingArgument

def repeatEndlessly (e : Engine) (body : List Value) : Nat → Eval Value
  | 0 => outOfFuel
  | rounds + 1 => do
    let flow ← e.runIteration [] body
    afterPass flow fun _ => repeatEndlessly e body rounds

def endlessLoop (e : Engine) : List Value → Eval Value
  | [] => fail .loopBodyExpected
  | body => repeatEndlessly e body e.fuel

/-- The given number of passes, the first with `name` bound to `k` in a frame of its own, each
further one with the next integer. -/
def countPasses (e : Engine) (name : String) (body : List Value) :
    Nat → Int → Value → Eval Value
  | 0, _, result => pure result
  | passes + 1, k, _ => do
    let flow ← e.runIteration [(name, .int (Int64.ofInt k))] body
    afterPass flow (countPasses e name body passes (k + 1))

def loopVariable : Value → Eval String
  | .symbol name => localName (.symbol name)
  | v => failWith (.typeMismatch .symbol) v

/-- `(for var from to form ...)` runs the body for each integer from `from` up to, but not
including, `to`. -/
def forLoop (e : Engine) : List Value → Eval Value
  | var :: first :: bound :: body => do
    let name ← loopVariable var
    match first, bound with
    | .int m, .int n => countPasses e name body (n.toInt - m.toInt).toNat m.toInt .nil
    | _, _ => failWith (.typeMismatch .integer) first
  | _ => missingArgument

/-! ## Functions -/

/-- The names in a list of captured variables or parameters: `()`, `(a b)` or `'(a b)`. -/
def nameList : Value → Eval (List String)
  | .nil => pure []
  | .expr names => localNames names
  | .list cell => do localNames (← items cell)
  | v => failWith .parameterListExpected v

def capture (captured : Record Value) : List String → Eval (Record Value)
  | [] => pure captured
  | name :: names => do
    let v ← resolve name
    capture (captured.insert name v) names

/-- `(lambda (captured ...) (param ...) body)` makes a function. -/
def lambda : List Value → Eval Value
  | captured :: params :: body :: _ => do
    let captured ← capture [] (← nameList captured)
    let params ← nameList params
    pure (.closure (← freshId) captured params body)
  | _ => missingArgument

end Lisplet.Builtin
