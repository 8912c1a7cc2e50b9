import Lisplet.Builtin.Arithmetic
import Lisplet.Builtin.Control
import Lisplet.Builtin.Meta

/-!
# Evaluation

A symbol evaluates to what its path leads to, an expression to the result of calling its head with
the rest, a struct to a new struct of the values of its fields, and a list to a new list with the
same items. Everything else evaluates to itself.

`evaluate` and `apply` spend one unit of fuel each time they are entered. A result that was found
with some fuel is found with any larger amount.

A host program may add primitives of its own. What they do is a parameter of all evaluation.
-/

namespace Lisplet

open Eval

/-- The host of the interpreter: what its own functions make of their arguments. -/
class Host where
  native : Nat → List Value → Eval Value

/-- The functions of this host return their arguments as a list. -/
instance Host.echoing : Host :=
  ⟨fun _ => Builtin.list⟩

variable [Host]

/-- Runs an operation on its arguments: as they are written for a plain primitive, bound by the
contract for a checked one. -/
def Operation.run (e : Engine) : Operation → List Value → Eval Value
  | .conditional => Builtin.conditional e
  | .block => Builtin.block e
  | .label => Builtin.label
  | .goto => Builtin.goto
  | .leave => Builtin.leave e
  | .exitLoop => Builtin.exitLoop e
  | .whileLoop => Builtin.conditionLoop true e
  | .untilLoop => Builtin.conditionLoop false e
  | .doLoop => Builtin.doLoop e
  | .endlessLoop => Builtin.endlessLoop e
  | .forLoop => Builtin.forLoop e
  | .lambda => Builtin.lambda
  | .add => Builtin.add
  | .subtract => Builtin.subtract
  | .multiply => Builtin.multiply
  | .divide => Builtin.divide
  | .modulo => Builtin.modulo
  | .less => Builtin.comparison (· == .lt)
  | .greater => Builtin.comparison (· == .gt)
  | .atMost => Builtin.comparison (· != .gt)
  | .atLeast => Builtin.comparison (· != .lt)
  | .equal => Builtin.equality true
  | .different => Builtin.equality false
  | .not => Builtin.not
  | .and => Builtin.and e
  | .or => Builtin.or e
  | .toInt => Builtin.toInt
  | .toDouble => Builtin.toDouble
  | .concatenate => Builtin.concatenate
  | .list => Builtin.list
  | .count => Builtin.count
  | .append => Builtin.append
  | .struct => Builtin.struct
  | .keys => Builtin.keys
  | .fetch => Builtin.fetch
  | .store => Builtin.store
  | .print => Builtin.print
  | .read => Builtin.read
  | .assign => Builtin.assign e
  | .eval => Builtin.eval e
  | .throw => Builtin.throw
  | .attempt => Builtin.attempt e
  | .help => Builtin.help
  | .typeName => Builtin.typeName
  | .bound => Builtin.bound
  | .apply => Builtin.apply e
  | .native id => Host.native id

/-! ## Contracts -/

/-- Arguments bound by a contract, or the signal that cut the binding short. -/
inductive Bound where
  | args (values : List Value)
  | signal (v : Value)

def Bound.cons (v : Value) : Bound → Bound
  | .args values => .args (v :: values)
  | .signal s => .signal s

def restKind? (contract : List Kind) : Option Kind :=
  contract.getLast?.filter Kind.isRest

/-- The kinds of the arguments that must be there. -/
def fixedKinds (contract : List Kind) : List Kind :=
  if (restKind? contract).isSome then contract.dropLast else contract

/-- Binds arguments from left to right; those beyond the fixed kinds are of kind `further`. A signal
ends the binding, and no later argument is evaluated. -/
def bindArgs (evaluate : Value → Eval Value) (further : Kind) : List Kind → List Value → Eval Bound
  | _, [] => pure (.args [])
  | kinds, arg :: more => do
    let kind := kinds.headD further
    let bindMore (v : Value) : Eval Bound := do
      let bound ← bindArgs evaluate further kinds.tail more
      pure (bound.cons v)
    if kind.isUnevaluated then
      bindMore arg
    else
      let v ← evaluate arg
      if v.isSignal then
        pure (.signal (← escalate v))
      else
        bindMore (← accept kind v)

/-- Binds the arguments of a checked primitive, once their number is right. -/
def bindContract (evaluate : Value → Eval Value) (name : String) (contract : List Kind)
    (args : List Value) : Eval Bound := do
  let fixed := fixedKinds contract
  if args.length < fixed.length then
    fail (.tooFewArguments name)
  else
    match restKind? contract, args.drop fixed.length with
    | none, extra :: _ => tooMany extra
    | rest, _ => bindArgs evaluate (rest.getD .any) fixed args

/-! ## Calls -/

/-- The frame of a call: the captured variables, then the parameters, `Nil` where an argument is
missing. Further arguments are ignored. -/
def bindParams : Record Value → List String → List Value → Record Value
  | frame, [], _ => frame
  | frame, p :: ps, [] => bindParams (frame.insert p .nil) ps []
  | frame, p :: ps, v :: vs => bindParams (frame.insert p v) ps vs

/-- The result of a function whose body has come to `v`: a return ends here, and no other signal
leaves a function. -/
def closureResult : Value → Eval Value
  | .leaving v => pure v
  | .breaking _ => fail .strayBreak
  | .goto target => fail (.gotoTargetNotFound target)
  | .label _ => fail .improperLabels
  | v => pure v

namespace Engine

def invoke (e : Engine) (captured : Record Value) (params : List String) (body : Value)
    (args : List Value) : Eval Value :=
  inFrame (bindParams captured params args) do
    closureResult (← e.evaluate body)

def arguments (e : Engine) (next : List Value → Eval Value) :
    List Value → List Value → Eval Value
  | [], values => next values.reverse
  | form :: rest, values => e.value form fun v => arguments e next rest (v :: values)

def runBound (e : Engine) (op : Operation) : Bound → Eval Value
  | .args values => op.run e values
  | .signal v => pure v

/-- Calls a function with argument forms. -/
def call (e : Engine) (callee : Value) (args : List Value) : Eval Value :=
  match callee with
  | .primitive _ _ op => op.run e args
  | .checked _ name contract op => do e.runBound op (← bindContract e.evaluate name contract args)
  | .closure _ captured params body => e.arguments (e.invoke captured params body) args []
  | other => failWith .functionExpected other

/-- Calls a function with arguments that are already values. -/
def applyTo (e : Engine) (callee : Value) (values : List Value) : Eval Value :=
  match callee with
  | .primitive _ _ op => op.run e values
  | .checked _ name contract op => do e.runBound op (← bindContract pure name contract values)
  | .closure _ captured params body => e.invoke captured params body values
  | other => failWith .functionExpected other

def callForm (e : Engine) : List Value → Eval Value
  | [] => pure .nil
  | head :: args => e.value head fun callee => e.call callee args

def newStructOf (e : Engine) : Record Value → Record Value → Eval Value
  | [], values => newStruct values
  | (key, form) :: rest, values =>
    e.value form fun v => newStructOf e rest (values.insert key v)

def step (e : Engine) : Value → Eval Value
  | .list cell => copyList cell
  | .struct cell => descend do e.newStructOf (← fields cell) []
  | .symbol path => resolve path
  | .expr forms => leavingCrumb (.expr forms) (descend (e.callForm forms))
  | v => pure v

end Engine

mutual

def evaluate : Nat → Value → Eval Value
  | 0, _ => outOfFuel
  | fuel + 1, v => Engine.step ⟨fuel, evaluate fuel, apply fuel⟩ v

def apply : Nat → Value → List Value → Eval Value
  | 0, _, _ => outOfFuel
  | fuel + 1, callee, values => Engine.applyTo ⟨fuel, evaluate fuel, apply fuel⟩ callee values

end

def Engine.ofFuel (fuel : Nat) : Engine :=
  ⟨fuel, Lisplet.evaluate fuel, Lisplet.apply fuel⟩

end Lisplet
