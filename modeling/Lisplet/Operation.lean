/-!
# Operations

The operations behind the primitives of the language. A primitive is an operation under a name,
with or without a contract for its arguments.
-/

namespace Lisplet

inductive Operation where
  -- control
  | conditional
  | block
  | label
  | goto
  | leave
  | exitLoop
  | whileLoop
  | untilLoop
  | doLoop
  | endlessLoop
  | forLoop
  | lambda
  -- arithmetic, comparison, logic and coercion
  | add
  | subtract
  | multiply
  | divide
  | modulo
  | less
  | greater
  | atMost
  | atLeast
  | equal
  | different
  | not
  | and
  | or
  | toInt
  | toDouble
  -- texts, lists and structs
  | concatenate
  | list
  | count
  | append
  | struct
  | keys
  | fetch
  | store
  -- the console
  | print
  | read
  -- assignment, evaluation, errors and introspection
  | assign
  | eval
  | throw
  | attempt
  | help
  | typeName
  | bound
  | apply
  /-- A function that the host brings along, by its number. -/
  | native (id : Nat)
  deriving DecidableEq, Repr

end Lisplet
