/-!
# Parameter kinds

A checked primitive declares the kind of each of its parameters. The last kind may take all the
remaining arguments, and a kind may ask for its argument unevaluated.
-/

namespace Lisplet

/-- What a parameter of a checked primitive accepts. -/
inductive Kind where
  | function
  | integer
  | double
  | list
  | number
  | expression
  | symbol
  | string
  | unevaluated
  | any
  | struct
  | rest
  | restUnevaluated
  deriving DecidableEq, Repr

namespace Kind

def name : Kind → String
  | .function => "Function"
  | .integer => "Integer"
  | .double => "Double"
  | .list => "List"
  | .number => "Number"
  | .expression => "Expression"
  | .symbol => "Symbol"
  | .string => "String"
  | .unevaluated => "Unevaluated"
  | .any => "Any"
  | .struct => "Struct"
  | .rest => "Rest"
  | .restUnevaluated => "RestUnevaluated"

def all : List Kind :=
  [.function, .integer, .double, .list, .number, .expression, .symbol, .string, .unevaluated,
    .any, .struct, .rest, .restUnevaluated]

def ofName? (name : String) : Option Kind :=
  all.find? fun k => k.name = name

def isRest : Kind → Bool
  | .rest | .restUnevaluated => true
  | _ => false

/-- Whether arguments of this kind are passed on as they are written. -/
def isUnevaluated : Kind → Bool
  | .unevaluated | .restUnevaluated => true
  | _ => false

end Kind

end Lisplet
