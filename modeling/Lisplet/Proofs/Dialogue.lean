import Lisplet.Proofs.Evaluation

/-!
# Dialogues

What an evaluation does at its console is a dialogue: it prints lines, and it reads lines, each
after a prompt of its own. The lines of the input are used up from the front, one by each read, and
nothing else takes any; nothing but printing and prompts is written.
-/

namespace Lisplet

open Policy

namespace Console

inductive Exchange where
  /-- A line is printed. -/
  | print (text : String)
  /-- A line is read, after a prompt; there is none at the end of the input. -/
  | read (prompt : String) (line : Option String)

namespace Exchange

/-- What is written in a step. An empty prompt is not shown. -/
def output : Exchange → List Emission
  | .print text => [.line text]
  | .read prompt _ => if prompt.isEmpty then [] else [.prompt prompt]

def taken : Exchange → List String
  | .print _ => []
  | .read _ line => line.toList

end Exchange

inductive Converses : Console → List Exchange → Console → Prop
  | silence (c : Console) : Converses c [] c
  | print {c d : Console} {xs : List Exchange} (text : String) :
      Converses (c.writeLine text) xs d → Converses c (.print text :: xs) d
  | read {c d : Console} {xs : List Exchange} (prompt : String) :
      Converses (c.readLine prompt).2 xs d → Converses c (.read prompt c.input.head? :: xs) d

/-! ## One step -/

theorem input_readLine (c : Console) (prompt : String) :
    c.input = c.input.head?.toList ++ (c.readLine prompt).2.input := by
  obtain ⟨input, terminated, written⟩ := c
  unfold readLine
  cases input <;> split <;> rfl

theorem written_readLine (c : Console) (prompt : String) (line : Option String) :
    (c.readLine prompt).2.written.reverse =
      c.written.reverse ++ (Exchange.read prompt line).output := by
  obtain ⟨input, terminated, written⟩ := c
  unfold readLine
  by_cases hprompt : prompt.isEmpty = true
  · simp only [Exchange.output, hprompt, if_true, List.append_nil]
    cases input <;> rfl
  · simp only [Exchange.output, hprompt, Bool.false_eq_true, if_false]
    cases input <;> exact List.reverse_cons

theorem written_writeLine (c : Console) (text : String) :
    (c.writeLine text).written.reverse = c.written.reverse ++ (Exchange.print text).output :=
  List.reverse_cons

/-! ## Whole dialogues -/

namespace Converses

variable {c d e : Console} {xs ys : List Exchange}

theorem append (h : c.Converses xs d) (h' : d.Converses ys e) : c.Converses (xs ++ ys) e := by
  induction h with
  | silence c => exact h'
  | print text _ ih => exact .print text (ih h')
  | read prompt _ ih => exact .read prompt (ih h')

/-- Every line is either taken by one of the reads, in order, or still to come. -/
theorem input_eq (h : c.Converses xs d) : c.input = xs.flatMap Exchange.taken ++ d.input := by
  induction h with
  | silence c => rfl
  | print text _ ih => exact ih
  | @read c d xs prompt _ ih =>
    calc c.input = c.input.head?.toList ++ (c.readLine prompt).2.input := c.input_readLine prompt
      _ = c.input.head?.toList ++ (xs.flatMap Exchange.taken ++ d.input) := by rw [ih]
      _ = (.read prompt c.input.head? :: xs : List Exchange).flatMap Exchange.taken ++ d.input := by
        rw [List.flatMap_cons, List.append_assoc]
        rfl

/-- What has been written is what was there and then the output of the steps, in order. -/
theorem written_eq (h : c.Converses xs d) :
    d.written.reverse = c.written.reverse ++ xs.flatMap Exchange.output := by
  induction h with
  | silence c => exact (List.append_nil _).symm
  | print text _ ih => rw [ih, written_writeLine, List.flatMap_cons, List.append_assoc]
  | read prompt _ ih => rw [ih, written_readLine, List.flatMap_cons, List.append_assoc]

end Converses

end Console

/-! ## Evaluations -/

namespace Policy

variable {P : Policy} {i j : Interpreter}

/-- Whatever an evaluation does, its console is led through a dialogue. -/
theorem Reaches.converses (h : P.Reaches i j) : ∃ xs, i.console.Converses xs j.console := by
  induction h with
  | trans _ _ ihij ihjk =>
    obtain ⟨xs, hxs⟩ := ihij
    obtain ⟨ys, hys⟩ := ihjk
    exact ⟨xs ++ ys, hxs.append hys⟩
  | print i text => exact ⟨_, .print text (.silence _)⟩
  | ask i prompt => exact ⟨_, .read prompt (.silence _)⟩
  | frame _ _ _ ih | deeper _ _ ih | inUse _ _ _ ih => exact ih
  | _ => exact ⟨[], .silence _⟩

end Policy

/-- Evaluating what has been read is a dialogue. -/
theorem exists_converses_evalForms (fuel : Nat) (source : String) (answers : List (Option String))
    (i : Interpreter) :
    ∃ xs, i.console.Converses xs
      (i.run (evalForms fuel (Reader.ofSource source answers).all.1)).2.console :=
  ((sound_evalForms trivial fuel source answers).reaches (lax_permissive.admits i)).converses

end Lisplet
