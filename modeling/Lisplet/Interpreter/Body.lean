import Lisplet.Interpreter.Engine

/-!
# Bodies

The body of a block or loop is a sequence of forms among which labels and jumps work. A label
written out as `(label name)` among the forms is known from the start, so jumps go forward as well
as backward; a label that comes about in any other way counts from when its form was evaluated. If
a name is given twice, the later one counts.
-/

namespace Lisplet

inductive Flow where
  /-- By its last form. -/
  | next (v : Value)
  /-- By a return. -/
  | leave (v : Value)
  /-- By a break. -/
  | exit (v : Value)
  /-- By a jump to a label that the body does not have. -/
  | goto (target : String)

/-- The value of a block that ended in this way: a return or break stops here, a jump travels on. -/
def Flow.toValue : Flow → Value
  | .next v | .leave v | .exit v => v
  | .goto target => .goto target

/-- The name in a `label` or `goto` form. -/
def Value.labelName? : Value → Option String
  | .symbol name => some name
  | .str name => some name
  | _ => none

/-- The name of a label written out in a body. -/
def Value.literalLabel? : Value → Option String
  | .expr [.symbol "label", name] => name.labelName?
  | _ => none

/-- The labels written out among `forms`, with the positions of their forms counted from `pos`. -/
def literalLabels (labels : Record Nat) (pos : Nat) : List Value → Record Nat
  | [] => labels
  | form :: rest =>
    match form.literalLabel? with
    | some name => literalLabels (labels.insert name pos) (pos + 1) rest
    | none => literalLabels labels (pos + 1) rest

/-- How a run through the forms of a body ended. -/
inductive Leg where
  /-- The body has ended. -/
  | ended (flow : Flow)
  /-- A jump to the label at a position, with the labels known by then and the value so far. -/
  | jump (label : Nat) (labels : Record Nat) (result : Value)

namespace Engine

open Eval

/-- Runs forms in order up to the first jump; `pos` is the position of the first of them. -/
def runLeg (e : Engine) (labels : Record Nat) (pos : Nat) (result : Value) :
    List Value → Eval Leg
  | [] => pure (.ended (.next result))
  | form :: rest => do
    match ← e.evaluate form with
    | .leaving v => pure (.ended (.leave v))
    | .breaking v => pure (.ended (.exit v))
    | .goto target =>
      match labels.get? target with
      | some label => pure (.jump label labels result)
      | none => pure (.ended (.goto target))
    | .label name => e.runLeg (labels.insert name pos) (pos + 1) .nil rest
    | v => e.runLeg labels (pos + 1) v rest

def runLegs (e : Engine) (forms : List Value) :
    Nat → Record Nat → Nat → Value → Eval Flow
  | 0, _, _, _ => outOfFuel
  | legs + 1, labels, pos, result => do
    match ← e.runLeg labels pos result (forms.drop pos) with
    | .ended flow => pure flow
    | .jump label labels result => e.runLegs forms legs labels (label + 1) result

def runBody (e : Engine) (forms : List Value) : Eval Flow :=
  e.runLegs forms e.fuel (literalLabels [] 0 forms) 0 .nil

def runIteration (e : Engine) (frame : Record Value) (forms : List Value) : Eval Flow :=
  inFrame frame (e.runBody forms)

end Engine

end Lisplet
