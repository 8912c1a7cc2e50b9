import Lisplet.Proofs.Calls

/-!
# Expressions from outside

An expression is evaluated one level further in, and an error that leaves it takes the text of the
expression along. With no cell in use there is nothing else to it, so an expression can be replaced
by the call it makes.
-/

namespace Lisplet

open Eval Policy

variable {α : Type} {x : Eval α} {fuel : Nat} {i j : Interpreter} {name : String} {callee : Value}
  {forms args : List Value}

/-- What has come about one level further in, seen from outside of the expression `form`. -/
def surfaced (form : Value) : EStateM.Result Halt Interpreter α → EStateM.Result Halt Interpreter α
  | .ok a j => .ok a { j with depth := j.depth - 1 }
  | .error h j => .error (h.withCrumb (j.heap.text form)) { j with depth := j.depth - 1 }

theorem descend_of_deeper_eq {y : Eval α} (h : x (i.deeper 1) = y (i.deeper 1)) :
    descend x i = descend y i := by
  change x { i with depth := i.depth + 1 } = y { i with depth := i.depth + 1 } at h
  unfold descend
  rw [h]

theorem leavingCrumb_congr {y : Eval α} (form : Value) (h : x i = y i) :
    leavingCrumb form x i = leavingCrumb form y i := by
  unfold leavingCrumb
  rw [h]

theorem leavingCrumb_descend {form : Value} (hdepth : i.depth < i.maxDepth)
    (hidle : ((i.deeper 1).run x).2.uses = []) :
    leavingCrumb form (descend x) i = surfaced form (x (i.deeper 1)) := by
  have hinside : x { i with depth := i.depth + 1 } = x (i.deeper 1) := rfl
  unfold Interpreter.run at hidle
  unfold leavingCrumb descend
  rw [if_pos hdepth, hinside]
  cases hx : x (i.deeper 1) with
  | ok a j => rfl
  | error h j =>
    rw [hx] at hidle
    cases h with
    | error e =>
      have htext : text form { j with depth := j.depth - 1 } =
          .ok (j.heap.text form) { j with depth := j.depth - 1 } :=
        looking_of_idle (i := { j with depth := j.depth - 1 }) hidle _ _
      simp only [htext]
      rfl
    | crash c => rfl
    | outOfFuel => rfl

/-- An expression is the call of its head, one level further in. -/
theorem evaluate_expr (hidle : i.uses = []) (hdepth : i.depth < i.maxDepth) (fuel : Nat)
    (forms : List Value) :
    evaluate (fuel + 1) (.expr forms) i =
      surfaced (.expr forms) ((Engine.ofFuel fuel).callForm forms (i.deeper 1)) := by
  have hsound : lax.Sound _ ((Engine.ofFuel fuel).callForm forms) :=
    sound_callForm (sound_engine trivial fuel) (lax_permissive.allowsAll forms)
  exact leavingCrumb_descend hdepth ((hsound.keeps (i.deeper 1)).uses.trans hidle)

/-- A head that is a bound name is called with the rest. -/
theorem callForm_of_bound (hsimple : Path.isSimple name = true)
    (hget : i.env.get? name = some callee) (hcallee : callee.isSignal = false) (fuel : Nat)
    (args : List Value) :
    (Engine.ofFuel (fuel + 1)).callForm (.symbol name :: args) i =
      (Engine.ofFuel (fuel + 1)).call callee args i := by
  have hhead : (Engine.ofFuel (fuel + 1)).evaluate (.symbol name) i = .ok callee i :=
    resolve_of_at ⟨name, [], callee, Path.segments_of_isSimple hsimple, hget, .nil callee⟩
  exact Engine.value_of_not_signal hhead hcallee

end Lisplet
