import Lisplet.Error
import Lisplet.Form
import Lisplet.Kind
import Lisplet.Operation

/-!
# Values

Program text and data are the same kind of thing: what the reader has read is evaluated to values,
and a value can be evaluated again. Lists and structs can be changed in place and shared, so a
value holds only the address of their cell; everything else is immutable and held directly.

`Return`, `Break`, `Goto` and `Label` values are signals. They travel outward like results until a
construct that understands them takes them up.
-/

namespace Lisplet

inductive Value where
  | nil
  | true
  | int (n : Int64)
  | double (d : Double)
  | str (s : String)
  /-- The list in a cell of the heap. -/
  | list (cell : Nat)
  /-- The struct in a cell of the heap. -/
  | struct (cell : Nat)
  | symbol (path : String)
  | expr (items : List Value)
  /-- An operation that gets its arguments unevaluated. Primitives are told apart by `id`. -/
  | primitive (id : Nat) (name : String) (op : Operation)
  /-- An operation whose arguments are evaluated and checked against a contract. -/
  | checked (id : Nat) (name : String) (contract : List Kind) (op : Operation)
  /-- A function with the variables it has captured. Closures are told apart by `id`. -/
  | closure (id : Nat) (captured : List (String × Value)) (params : List String) (body : Value)
  /-- The signal of a return, with its payload. -/
  | leaving (payload : Value)
  /-- The signal of a break, with its payload. -/
  | breaking (payload : Value)
  | goto (target : String)
  | label (name : String)
  | error (e : Error)
  deriving Inhabited

namespace Value

def typeName : Value → String
  | .nil => "Nil"
  | .true => "True"
  | .int _ => "Integer"
  | .double _ => "Double"
  | .str _ => "String"
  | .list _ => "List"
  | .struct _ => "Struct"
  | .symbol _ => "Symbol"
  | .expr _ => "Expression"
  | .primitive .. => "Primitive"
  | .checked .. => "CheckedPrimitive"
  | .closure .. => "Closure"
  | .leaving _ => "Return"
  | .breaking _ => "Break"
  | .goto _ => "Goto"
  | .label _ => "Label"
  | .error _ => "Error"

def ofBool (b : Bool) : Value :=
  if b then .true else .nil

def isNil : Value → Bool
  | .nil => Bool.true
  | _ => false

def isTruthy (v : Value) : Bool :=
  !v.isNil

def isSignal : Value → Bool
  | .leaving _ | .breaking _ | .goto _ | .label _ => Bool.true
  | _ => false

def isCallable : Value → Bool
  | .primitive .. | .checked .. | .closure .. => Bool.true
  | _ => false

def toDouble? : Value → Option Double
  | .int n => some (.ofInt n.toInt)
  | .double d => some d
  | _ => none

end Value

/-- The argument of a parameter of this kind, if it takes the value. Everything is taken as it is,
except that a string stands for the symbol of its text. -/
def Kind.accept? : Kind → Value → Option Value
  | .any, v | .rest, v | .unevaluated, v | .restUnevaluated, v => some v
  | .function, v => if v.isCallable then some v else none
  | .integer, .int n => some (.int n)
  | .double, .double d => some (.double d)
  | .number, .int n => some (.int n)
  | .number, .double d => some (.double d)
  | .list, .list a => some (.list a)
  | .list, .nil => some .nil
  | .expression, .expr items => some (.expr items)
  | .symbol, .symbol path => some (.symbol path)
  | .symbol, .str s => some (.symbol s)
  | .string, .str s => some (.str s)
  | .struct, .struct a => some (.struct a)
  | _, _ => none

end Lisplet
