import Lisplet.Proofs.Evaluation

/-!
# Frames and depth are balanced

Evaluation pushes frames and goes deeper, and it is left in many ways: by a value, by a signal, by
an error, or by a refusal to go deeper. However it is left, the frames are those that were there
before, each with the names it had, and the depth is the one it was. The lax policy admits every
state, so this is what `Policy.Reaches.keeps` says of all evaluation.

A host may bring functions of its own. They get the whole interpreter, so all depends on what they
do with it: nothing is asked of them but to leave it alone, apart from lists and structs.
-/

namespace Lisplet

open Policy

/-- Two states between which the frames and the depth are in balance: the stack is as high, every
frame binds the names it did, nesting is as deep, and global names have at most been added. -/
structure Interpreter.Balanced (i j : Interpreter) : Prop where
  height : j.env.depth = i.env.depth
  names : ∀ n : Nat, (j.env.frames[n]?).map Record.keys = (i.env.frames[n]?).map Record.keys
  depth : j.depth = i.depth
  globals : i.env.globals.keys ⊆ j.env.globals.keys

theorem Interpreter.Keeps.balanced {i j : Interpreter} (h : i.Keeps j) : i.Balanced j where
  height := by simpa [Environment.depth] using congrArg List.length h.frames
  names n := by rw [← List.getElem?_map, ← List.getElem?_map, h.frames]
  depth := h.depth
  globals := h.globals

def Eval.Balanced {α : Type} (x : Eval α) : Prop :=
  ∀ i : Interpreter, i.Balanced (i.run x).2

theorem Policy.Sound.balanced {α : Type} {Q : α → Prop} {x : Eval α} (h : lax.Sound Q x) :
    x.Balanced :=
  fun i => (h.reaches (lax_permissive.admits i)).keeps.balanced

/-! ## Hosts -/

/-- A host whose functions leave the interpreter alone. They may write to lists and structs, and end
as they please. -/
def Host.Aloof (host : Host) : Prop :=
  ∀ id args (i : Interpreter), ∃ heap, (i.run (host.native id args)).2 = { i with heap := heap }

theorem Host.aloof_echoing : Host.echoing.Aloof :=
  fun _ _ _ => ⟨_, rfl⟩

theorem Host.Aloof.welcomes_lax [host : Host] (hhost : host.Aloof) : lax.Welcomes where
  native id args _ i _ := by
    obtain ⟨heap, hheap⟩ := hhost id args i
    have hreach : lax.Reaches i (i.run (host.native id args)).2 :=
      hheap ▸ .host i heap lax_permissive
    unfold Interpreter.run at hreach
    cases hr : host.native id args i with
    | ok v j =>
      rw [hr] at hreach
      exact ⟨hreach, lax_permissive.allows v⟩
    | error h j =>
      rw [hr] at hreach
      exact ⟨hreach, lax_allowsHalt h⟩

/-! ## Evaluation -/

/-- Evaluation in all its forms is balanced: of a value, a call, an application, a body, a pass of a
loop, forms in sequence, and a source that has been read as a whole or line by line. -/
theorem evaluation_balanced [host : Host] (hhost : host.Aloof) (fuel : Nat) :
    (∀ v, (evaluate fuel v).Balanced) ∧
    (∀ callee args, ((Engine.ofFuel fuel).call callee args).Balanced) ∧
    (∀ callee values, (apply fuel callee values).Balanced) ∧
    (∀ forms, ((Engine.ofFuel fuel).runBody forms).Balanced) ∧
    (∀ frame forms, ((Engine.ofFuel fuel).runIteration frame forms).Balanced) ∧
    (∀ forms, ((Engine.ofFuel fuel).sequence forms .nil).Balanced) ∧
    (∀ source, (evalSource fuel source).Balanced) ∧
    (∀ source answers (i : Interpreter),
      i.Balanced (i.evalInteractive fuel source answers).2.1) := by
  have := hhost.welcomes_lax
  have he := sound_engine (P := lax) trivial fuel
  refine ⟨?_, ?_, ?_, ?_, ?_, ?_, ?_, ?_⟩
  · intro v
    exact (he.evaluate (lax_permissive.allows v)).balanced
  · intro callee args
    exact (sound_call he (lax_permissive.allows callee) (lax_permissive.allowsAll args)).balanced
  · intro callee values
    exact (he.apply (lax_permissive.allows callee) (lax_permissive.allowsAll values)).balanced
  · intro forms
    exact (sound_runBody he (lax_permissive.allowsAll forms)).balanced
  · intro frame forms
    have hframe := lax_permissive.allowsFields frame
    exact (sound_runIteration he hframe (lax_permissive.allowsAll forms)).balanced
  · intro forms
    have hnil := lax_permissive.allows .nil
    exact (sound_sequence he (lax_permissive.allowsAll forms) hnil).balanced
  · intro source
    exact (sound_evalSource trivial fuel source).balanced
  · intro source answers i
    exact (sound_evalForms trivial fuel source answers).balanced i

/-- A call of a function of the host, the first argument of which assigns a global name. -/
theorem evaluation_balanced_echoing :
    let setq : Value := .checked 1 "setq" [.unevaluated, .any] .assign
    let assigned : Value := .expr [setq, .symbol "x", .int 1]
    let form : Value := .expr [.checked 2 "pair" [.any, .any] (.native 0), assigned, .int 2]
    Host.echoing.Aloof ∧ (evaluate 3 form).Balanced ∧
    evaluate 3 form { maxDepth := 2 } = .ok (.list 0)
      { heap := ⟨#[.list [.int 1, .int 2]]⟩, env := ⟨[("x", .int 1)], []⟩, maxDepth := 2 } :=
  ⟨Host.aloof_echoing, (evaluation_balanced Host.aloof_echoing 3).1 _, rfl⟩

end Lisplet
