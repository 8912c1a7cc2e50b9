import Lisplet.Interpreter.Engine
import Lisplet.Text.Blank

/-!
# Arithmetic, comparison and logic

Arithmetic on integers is exact: a result that does not fit is an error. As soon as one operand is
a double the other one becomes a double too. Numbers compare by value across the two types, strings
by the order of their code points.
-/

namespace Lisplet.Builtin

open Eval

/-- A number: an integer is kept exact until it meets a double. -/
inductive Number where
  | int (n : Int64)
  | double (d : Double)

namespace Number

def toDouble : Number → Double
  | .int n => .ofInt n.toInt
  | .double d => d

def toValue : Number → Value
  | .int n => .int n
  | .double d => .double d

def isZero : Number → Bool
  | .int n => n == 0
  | .double d => d.isZero

end Number

/-- An operation on numbers, by what it does to integers and to doubles. -/
structure Arithmetic where
  onInts : Int64 → Int64 → Option Int64
  onDoubles : Double → Double → Double

namespace Arithmetic

def add : Arithmetic := ⟨Integer.add?, Double.add⟩

def sub : Arithmetic := ⟨Integer.sub?, Double.sub⟩

def mul : Arithmetic := ⟨Integer.mul?, Double.mul⟩

def div : Arithmetic := ⟨Integer.div?, Double.div⟩

def combine (op : Arithmetic) : Number → Number → Except Error Number
  | .int a, .int b =>
    match op.onInts a b with
    | some n => .ok (.int n)
    | none => .error { cause := .integerOverflow a b }
  | a, b => .ok (.double (op.onDoubles a.toDouble b.toDouble))

end Arithmetic

def number : Value → Eval Number
  | .int n => pure (.int n)
  | .double d => pure (.double d)
  | v => failWith (.typeMismatch .number) v

def fold (op : Arithmetic) : Number → List Value → Eval Number
  | total, [] => pure total
  | total, v :: vs => do
    let n ← number v
    let total ← ofExcept (op.combine total n)
    fold op total vs

def add (args : List Value) : Eval Value := do
  pure (← fold .add (.int 0) args).toValue

def multiply (args : List Value) : Eval Value := do
  pure (← fold .mul (.int 1) args).toValue

/-- `(subtract n m ...)`; a single number is subtracted from zero. -/
def subtract : List Value → Eval Value
  | [] => missingArgument
  | [v] => do
    let n ← number v
    pure (← ofExcept (Arithmetic.sub.combine (.int 0) n)).toValue
  | v :: vs => do
    let n ← number v
    pure (← fold .sub n vs).toValue

def quotient : Number → List Value → Eval Number
  | total, [] => pure total
  | total, v :: vs => do
    let n ← number v
    if n.isZero then fail .divisionByZero
    else
      let total ← ofExcept (Arithmetic.div.combine total n)
      quotient total vs

/-- `(divide n m ...)`; integers divide with the fraction dropped. -/
def divide : List Value → Eval Value
  | [] => missingArgument
  | v :: vs => do
    let n ← number v
    pure (← quotient n vs).toValue

/-- `(modulo n m)` is the remainder, with the sign of `n`. -/
def modulo : List Value → Eval Value
  | .int a :: .int b :: _ =>
    if b = 0 then fail .divisionByZero
    else
      match Integer.rem? a b with
      | some n => pure (.int n)
      | none => fail (.integerOverflow a b)
  | v :: _ :: _ => failWith (.typeMismatch .integer) v
  | _ => missingArgument

/-! ## Comparison -/

def compareTexts (s t : String) : Ordering :=
  if s < t then .lt else if s = t then .eq else .gt

def order (v w : Value) : Eval Ordering := do
  match v, w with
  | .int m, .int n => pure (compare m.toInt n.toInt)
  | .str s, .str t => pure (compareTexts s t)
  | _, _ =>
    match v.toDouble?, w.toDouble? with
    | none, _ => failWith (.typeMismatch .number) v
    | _, none => failWith (.typeMismatch .number) w
    | some x, some y =>
      match x.compare? y with
      | some o => pure o
      | none => fail (.notComparable (← text v) (← text w))

def comparison (holds : Ordering → Bool) : List Value → Eval Value
  | v :: w :: _ => do pure (.ofBool (holds (← order v w)))
  | _ => missingArgument

/-- Equality, by which an integer and a double are equal when the integer, rounded to a double, is
the same number. -/
def equalValues (h : Heap) : Value → Value → Bool
  | .int n, .double d => (Double.ofInt n.toInt).same d
  | .double d, .int n => d.same (Double.ofInt n.toInt)
  | v, w => h.same v w

/-- `(eq a b)`, and `neq` when differing is expected. -/
def equality (expected : Bool) : List Value → Eval Value
  | v :: w :: _ =>
    looking (fun h cell => h.shows cell v || h.shows cell w) fun i =>
      .ok (.ofBool (equalValues i.heap v w == expected)) i
  | _ => missingArgument

/-! ## Logic -/

def not : List Value → Eval Value
  | v :: _ => pure (.ofBool v.isNil)
  | [] => missingArgument

/-- Evaluates forms up to the first `Nil`. -/
def conjunction (e : Engine) : List Value → Value → Eval Value
  | [], result => pure result
  | form :: rest, _ =>
    e.value form fun v => if v.isNil then pure .nil else conjunction e rest v

def and (e : Engine) (args : List Value) : Eval Value :=
  conjunction e args .true

/-- `(or form ...)` evaluates forms up to the first value other than `Nil`. -/
def or (e : Engine) : List Value → Eval Value
  | [] => pure .nil
  | form :: rest => e.value form fun v => if v.isTruthy then pure v else or e rest

/-! ## Coercion -/

/-- The integer part of a finite double, as the nearest word; `Nil` for the others. -/
def integerPart (d : Double) : Value :=
  match d.truncate with
  | some n => .int (Integer.clamp n)
  | none => .nil

/-- The integer that a text writes, blanks around it ignored: an integer in range as it is, any other
number by its integer part. -/
def integerOfText (s : String) : Value :=
  let cs := Text.trim s.toList
  match Integer.ofText? cs with
  | some n => .int n
  | none =>
    match Double.ofText? cs with
    | some d => integerPart d
    | none => .nil

def toInt : List Value → Eval Value
  | .int n :: _ => pure (.int n)
  | .double d :: _ => pure (integerPart d)
  | .str s :: _ => pure (integerOfText s)
  | _ :: _ => pure .nil
  | [] => missingArgument

def toDouble : List Value → Eval Value
  | .int n :: _ => pure (.double (.ofInt n.toInt))
  | .double d :: _ => pure (.double d)
  | .str s :: _ =>
    match Double.ofText? (Text.trim s.toList) with
    | some d => pure (.double d)
    | none => pure .nil
  | _ :: _ => pure .nil
  | [] => missingArgument

end Lisplet.Builtin
