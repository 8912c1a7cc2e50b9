import Lisplet.Interpreter.Basic

/-!
# Primitives

The primitives that every interpreter starts with, in the order in which `help` lists them, and the
ways a host can add more. An alias binds a second name to the very same primitive and has no help
text of its own.
-/

namespace Lisplet

/-- A primitive to be defined; without a contract its arguments arrive unevaluated. -/
structure Definition where
  name : String
  contract : Option (List Kind)
  op : Operation
  help : String

namespace Interpreter

/-- Defines a primitive, replacing whatever the name meant globally. -/
def define (i : Interpreter) (d : Definition) : Interpreter :=
  let v : Value :=
    match d.contract with
    | none => .primitive i.nextId d.name d.op
    | some contract => .checked i.nextId d.name contract d.op
  { i with
    env := i.env.defineGlobal d.name v
    help := i.help.insert d.name d.help
    nextId := i.nextId + 1 }

/-- Gives the present value of `target` a second name; without a value nothing happens. -/
def defineAlias (i : Interpreter) (name target : String) : Interpreter :=
  match i.env.get? target with
  | some v => { i with env := i.env.defineGlobal name v }
  | none => i

end Interpreter

namespace Prelude

def control : List Definition :=
  [ ⟨"if", none, .conditional, "(if condition then [else]) -> value of the chosen branch"⟩,
    ⟨"block", some [.any, .restUnevaluated], .block,
      "(block locals form ...) -> value of the last form; locals is a struct, a list of names or Nil"⟩,
    ⟨"label", none, .label, "(label name) -> marks a goto target in a block or loop body"⟩,
    ⟨"goto", none, .goto, "(goto name) -> continues after the named label"⟩,
    ⟨"return", none, .leave, "(return [value]) -> leaves the enclosing block, loop or lambda"⟩,
    ⟨"break", none, .exitLoop, "(break [value]) -> leaves the enclosing block or loop"⟩,
    ⟨"while", some [.unevaluated, .restUnevaluated], .whileLoop,
      "(while condition form ...) -> repeats the body while condition holds"⟩,
    ⟨"until", some [.unevaluated, .restUnevaluated], .untilLoop,
      "(until condition form ...) -> repeats the body until condition holds"⟩,
    ⟨"do", some [.unevaluated, .restUnevaluated], .doLoop,
      "(do condition form ...) -> runs the body, then repeats while condition holds"⟩,
    ⟨"loop", some [.restUnevaluated], .endlessLoop,
      "(loop form ...) -> repeats the body until return"⟩,
    ⟨"for", some [.unevaluated, .integer, .integer, .restUnevaluated], .forLoop,
      "(for var from to form ...) -> runs the body with var bound over [from, to)"⟩,
    ⟨"lambda", some [.unevaluated, .unevaluated, .unevaluated], .lambda,
      "(lambda (captured ...) (param ...) body) -> closure"⟩ ]

def arithmetic : List Definition :=
  [ ⟨"add", some [.rest], .add, "(add n ...) -> sum, Double if any operand is Double"⟩,
    ⟨"subtract", some [.number, .rest], .subtract,
      "(subtract n m ...) -> difference, (subtract n) negates"⟩,
    ⟨"multiply", some [.rest], .multiply, "(multiply n ...) -> product"⟩,
    ⟨"divide", some [.number, .number, .rest], .divide,
      "(divide n m ...) -> quotient, integer division when all operands are Integer"⟩,
    ⟨"modulo", some [.integer, .integer], .modulo, "(modulo n m) -> remainder"⟩,
    ⟨"lt", some [.any, .any], .less, "(lt a b) -> True when a < b"⟩,
    ⟨"gt", some [.any, .any], .greater, "(gt a b) -> True when a > b"⟩,
    ⟨"leq", some [.any, .any], .atMost, "(leq a b) -> True when a <= b"⟩,
    ⟨"geq", some [.any, .any], .atLeast, "(geq a b) -> True when a >= b"⟩,
    ⟨"eq", some [.any, .any], .equal, "(eq a b) -> True when a equals b"⟩,
    ⟨"neq", some [.any, .any], .different, "(neq a b) -> True when a differs from b"⟩,
    ⟨"not", some [.any], .not, "(not value) -> True when value is Nil"⟩,
    ⟨"and", none, .and, "(and form ...) -> Nil at the first Nil, else the last value"⟩,
    ⟨"or", none, .or, "(or form ...) -> first non-Nil value, else Nil"⟩,
    ⟨"int", some [.any], .toInt,
      "(int value) -> Integer from a number or numeric string, else Nil"⟩,
    ⟨"double", some [.any], .toDouble,
      "(double value) -> Double from a number or numeric string, else Nil"⟩ ]

def collections : List Definition :=
  [ ⟨"cat", some [.rest], .concatenate,
      "(cat value ...) -> string concatenation of the values' texts"⟩,
    ⟨"list", some [.rest], .list, "(list value ...) -> new list of the values, Nil when empty"⟩,
    ⟨"count", some [.any], .count,
      "(count string|list|struct) -> number of characters, items or keys"⟩,
    ⟨"append", some [.any, .rest], .append,
      "(append list value ...) -> new list with the values added at the end"⟩,
    ⟨"struct", some [.rest], .struct, "(struct key value ...) -> new struct from key/value pairs"⟩,
    ⟨"keys", some [.struct], .keys, "(keys struct) -> list of the struct's keys in order"⟩,
    ⟨"@", some [.any, .any], .fetch,
      "(@ struct|list key|index) -> item at key|index of struct|list"⟩,
    ⟨"set@", some [.any, .any, .any], .store,
      "(set@ struct|list key|index value) -> the struct|list after writing value at key|index"⟩,
    ⟨"print", some [.rest], .print,
      "(print value ...) -> True, writes the values separated by spaces"⟩,
    ⟨"read", some [.rest], .read,
      "(read [prompt]) -> next input line as a string, Nil at end of input"⟩ ]

def introspection : List Definition :=
  [ ⟨"setq", some [.unevaluated, .any], .assign,
      "(setq name|path value) -> value, assigned to the innermost binding or a new global"⟩,
    ⟨"eval", some [.any], .eval,
      "(eval string|value) -> result of evaluating the parsed string or the value"⟩,
    ⟨"throw", some [.any], .throw, "(throw message|error) -> raises an error"⟩,
    ⟨"try", some [.unevaluated, .unevaluated, .unevaluated], .attempt,
      "(try form name handler) -> value of form, or of handler with the error bound to name"⟩,
    ⟨"help", some [.rest], .help, "(help [prefix]) -> help lines of the globals starting with prefix"⟩,
    ⟨"type", some [.any], .typeName, "(type value) -> name of the value's type"⟩,
    ⟨"bound", some [.symbol], .bound, "(bound symbol) -> True when the symbol resolves"⟩,
    ⟨"apply", some [.function, .any], .apply,
      "(apply function list) -> result of calling function with the list items"⟩ ]

def definitions : List Definition :=
  control ++ arithmetic ++ collections ++ introspection

def aliases : List (String × String) :=
  [ ("+", "add"), ("-", "subtract"), ("*", "multiply"), ("/", "divide"), ("<", "lt"), (">", "gt"),
    ("<=", "leq"), (">=", "geq"), ("=", "setq") ]

end Prelude

namespace Interpreter

def defaultMaxDepth : Nat := 400

/-- An interpreter that knows the primitives and nothing else. -/
def fresh (maxDepth : Nat) (console : Console) : Interpreter :=
  let i := Prelude.definitions.foldl define { maxDepth, console }
  Prelude.aliases.foldl (fun i (name, target) => i.defineAlias name target) i

end Interpreter

end Lisplet
