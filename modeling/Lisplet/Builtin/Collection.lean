import Lisplet.Interpreter.Engine

/-!
# Texts, lists and structs

Building texts, lists and structs, and reading and writing their items. Writing changes a list or
struct in place; all other operations make new ones.
-/

namespace Lisplet.Builtin

open Eval

def plainTexts : List Value → Eval (List String)
  | [] => pure []
  | v :: vs => do
    let t ← plainText v
    let ts ← plainTexts vs
    pure (t :: ts)

def concatenate (args : List Value) : Eval Value := do
  pure (.str (String.join (← plainTexts args)))

/-! ## Lists -/

def list (args : List Value) : Eval Value :=
  newList args

def size (n : Nat) : Value :=
  .int (Int64.ofInt n)

def count : List Value → Eval Value
  | [] => missingArgument
  | v :: _ =>
    match v with
    | .nil => pure (size 0)
    | .str s => pure (size s.length)
    | .list cell => do pure (size (← items cell).length)
    | .struct cell => do pure (size (← fields cell).length)
    | v => failWith (.typeMismatch .list) v

def append : List Value → Eval Value
  | [] => missingArgument
  | .nil :: vs => newList vs
  | .list cell :: vs => do newList ((← items cell) ++ vs)
  | v :: _ => failWith (.typeMismatch .list) v

/-! ## Structs -/

def structKey : Value → Eval String
  | .str s => pure s
  | .symbol path => pure path
  | .int n => pure (Integer.text n)
  | v => failWith .invalidKey v

def pairs (record : Record Value) : List Value → Eval (Record Value)
  | [] => pure record
  | [_] => fail .insufficientArguments
  | key :: v :: rest => do
    let key ← structKey key
    pairs (record.insert key v) rest

def struct (args : List Value) : Eval Value := do
  if args.length % 2 = 1 then fail .insufficientArguments
  else newStruct (← pairs [] args)

def keys : List Value → Eval Value
  | [] => missingArgument
  | .struct cell :: _ => do newList ((← fields cell).keys.map .str)
  | v :: _ => failWith (.typeMismatch .struct) v

/-! ## Items by key or index -/

def listIndex (length : Nat) : Value → Eval Nat
  | .int n =>
    if 0 ≤ n.toInt ∧ n.toInt < length then pure n.toInt.toNat else fail (.indexOutOfRange n)
  | v => failWith (.typeMismatch .integer) v

/-- `(@ struct|list key|index)`. A list is in use until its index has been looked at. -/
def fetch : List Value → Eval Value
  | .struct cell :: key :: _ => do
    let key ← structKey key
    pure (((← fields cell).get? key).getD .nil)
  | .list cell :: index :: _ => whileReading cell do
    let items ← items cell
    let n ← listIndex items.length index
    pure (items[n]?.getD .nil)
  | .nil :: index :: _ => do
    let _ ← listIndex 0 index
    pure .nil
  | v :: _ :: _ => failWith .containerExpected v
  | _ => missingArgument

/-- `(set@ struct|list key|index value)`. A list is in use from before its index is looked at. -/
def store : List Value → Eval Value
  | .struct cell :: key :: v :: _ => do
    let key ← structKey key
    write cell (.struct ((← fields cell).insert key v))
    pure (.struct cell)
  | .list cell :: index :: v :: _ => do
    let items ← items cell
    let n ← whileWriting cell (listIndex items.length index)
    write cell (.list (items.set n v))
    pure (.list cell)
  | v :: _ :: _ :: _ => failWith .containerExpected v
  | _ => missingArgument

end Lisplet.Builtin
