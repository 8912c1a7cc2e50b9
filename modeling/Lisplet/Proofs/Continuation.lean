import Mathlib
import Lisplet.Reader.Basic

/-!
# Reading in parts

A reader that asks for more reads what it was given part by part. The end of a part is looked at
like a blank, and the answer is added after a blank. So the machine is in the same state after the
end of a part as it would be before the blank if all of the text had been there, and to read in
parts is to read everything at once.
-/

namespace Lisplet.Reader

/-! ## Settling -/

/-- The modes in which nothing is left to end. -/
def Mode.rests : Mode → Bool
  | .blank | .string .. | .tick _ | .fields .. | .colon .. => true
  | _ => false

theorem rests_deliver (s : State) (f : Form) : (s.deliver f).mode.rests = true := by
  unfold State.deliver
  split <;> rfl

theorem refuse_none (s : State) : s.refuse none = .ok s := by
  unfold State.refuse
  split <;> first | rfl | contradiction

theorem settle_of_rests {s : State} (h : s.mode.rests = true) : s.settle none = .ok s := by
  obtain ⟨forms, stack, mode⟩ := s
  cases mode with
  | blank => exact refuse_none _
  | string | tick | fields | colon => rfl
  | _ => cases h

theorem refuse_blank (s : State) {c : Char} (hc : CharClass.ofChar c = .blank) :
    s.refuse (some c) = .ok s := by
  unfold State.refuse
  split
  next heq =>
    cases heq
    rw [if_pos (.inr hc)]
  next heq =>
    cases heq
    rw [hc, if_neg (by decide)]
  next => rfl

/-- The end of the text is looked at like a blank. -/
theorem settle_blank (s : State) {c : Char} (hc : CharClass.ofChar c = .blank) :
    s.settle (some c) = s.settle none := by
  have hend : (s.decideMinus .blank).endLexeme .blank =
      (s.decideMinus .endOfText).endLexeme .endOfText := by
    obtain ⟨forms, stack, mode⟩ := s
    cases mode <;> rfl
  unfold State.settle
  simp only [Option.elim_some, Option.elim_none]
  rw [hc, hend]
  cases (s.decideMinus .endOfText).endLexeme .endOfText with
  | error f => rfl
  | ok t =>
    show t.refuse (some c) = t.refuse none
    rw [refuse_blank t hc, refuse_none]

theorem rests_of_endLexeme {s t : State} (h : s.endLexeme .endOfText = .ok t)
    (hm : ∀ start quoted, s.mode ≠ .minus start quoted) : t.mode.rests = true := by
  unfold State.endLexeme at h
  split at h
  next start point text hmode =>
    rw [if_pos (by decide)] at h
    split at h
    next f _ =>
      cases h
      exact rests_deliver s f
    next => cases h
  next start text hmode =>
    rw [if_neg (by decide)] at h
    split at h
    next f _ =>
      cases h
      exact rests_deliver s f
    next => cases h
  next text hmode =>
    rw [if_pos (by decide)] at h
    cases h
    exact rests_deliver s _
  next start fields text hmode =>
    rw [if_neg (by decide)] at h
    cases h
    rfl
  next =>
    cases h
    obtain ⟨forms, stack, mode⟩ := s
    cases mode <;> simp_all [Mode.rests]

theorem rests_of_settle {s t : State} (h : s.settle none = .ok t) : t.mode.rests = true := by
  unfold State.settle at h
  simp only [Option.elim_none] at h
  split at h
  next u hu =>
    rw [refuse_none] at h
    cases h
    apply rests_of_endLexeme hu
    intro start quoted
    obtain ⟨forms, stack, mode⟩ := s
    cases mode with
    | minus start quoted => cases quoted <;> simp [State.decideMinus]
    | _ => simp [State.decideMinus]
  next => cases h

/-! ## Running over two parts -/

theorem ofChar_newline : CharClass.ofChar '\n' = .blank := by
  decide

theorem ofChar_space : CharClass.ofChar ' ' = .blank := by
  decide

/-- Blanks are blanks to the reader: none of its marks is one. -/
theorem ofChar_eq_blank {c : Char} (h : Text.isBlank c = true) : CharClass.ofChar c = .blank := by
  have hmark : ∀ d, Text.isBlank d = false → c ≠ d := by
    rintro d hd rfl
    rw [h] at hd
    cases hd
  unfold CharClass.ofChar
  rw [if_neg (hmark _ (by decide)), if_neg (hmark _ (by decide)), if_neg (hmark _ (by decide)),
    if_neg (hmark _ (by decide)), if_neg (hmark _ (by decide)), if_neg (hmark _ (by decide)),
    if_neg (hmark _ (by decide)), if_pos h]

-- A state that has been settled at the end of the text goes on like the one it came from.
theorem run_settled {s t : State} (h : s.settle none = .ok t) {c : Char}
    (hc : CharClass.ofChar c = .blank) (before : List Char) (pos : Nat) (cs : List Char) :
    run false s before pos (c :: cs) = run false t before pos (c :: cs) := by
  have hs : s.settle (some c) = .ok t := (settle_blank s hc).trans h
  have ht : t.settle (some c) = .ok t :=
    (settle_blank t hc).trans (settle_of_rests (rests_of_settle h))
  unfold run
  rw [hs, ht]

theorem run_of_take {s t u : State} {pos : Nat} {c : Char} (hs : s.settle (some c) = .ok t)
    (ht : t.take pos c = .ok u) (before cs : List Char) :
    run false s before pos (c :: cs) = run false u (c :: before) (pos + 1) cs := by
  rw [run, hs]
  simp only [Bool.false_and, Bool.false_eq_true, if_false, ht]

-- A run that finds no fault takes its first character.
theorem take_of_run {s t : State} {before : List Char} {pos : Nat} {c : Char} {cs : List Char}
    (h : (run false s before pos (c :: cs)).outcome = .ok t) :
    ∃ u v, s.settle (some c) = .ok u ∧ u.take pos c = .ok v := by
  rw [run] at h
  cases hs : s.settle (some c) with
  | error f =>
    rw [hs] at h
    cases h
  | ok u =>
    cases ht : u.take pos c with
    | error f =>
      simp only [hs, Bool.false_and, Bool.false_eq_true, if_false, ht] at h
      cases h
    | ok v => exact ⟨u, v, rfl, ht⟩

-- What a run does with a character that it does not stop at.
theorem run_cons {s t : State} {before : List Char} {pos : Nat} {c : Char} {cs : List Char}
    (h : (run false s before pos (c :: cs)).outcome = .ok t) :
    ∃ u, ∀ ds, run false s before pos (c :: ds) = run false u (c :: before) (pos + 1) ds := by
  obtain ⟨u, v, hs, ht⟩ := take_of_run h
  exact ⟨v, run_of_take hs ht before⟩

theorem after_run {s t : State} {before : List Char} {pos : Nat} {cs : List Char}
    (h : (run false s before pos cs).outcome = .ok t) : (run false s before pos cs).after = [] := by
  induction cs generalizing s before pos with
  | nil => rfl
  | cons c cs ih =>
    obtain ⟨u, hu⟩ := run_cons h
    rw [hu] at h ⊢
    exact ih h

/-- What a run that finds no fault has read. -/
theorem read_run {s t : State} {before : List Char} {pos : Nat} {cs : List Char}
    (h : (run false s before pos cs).outcome = .ok t) :
    (run false s before pos cs).before = cs.reverse ++ before ∧
      (run false s before pos cs).pos = pos + cs.length := by
  induction cs generalizing s before pos with
  | nil => exact ⟨rfl, rfl⟩
  | cons c cs ih =>
    obtain ⟨u, hu⟩ := run_cons h
    rw [hu] at h ⊢
    obtain ⟨hbefore, hpos⟩ := ih h
    refine ⟨?_, ?_⟩
    · rw [hbefore, List.reverse_cons, List.append_assoc]
      rfl
    · rw [hpos, List.length_cons]
      omega

/-- To run over two parts of a text, with a blank between them, is to run over all of it. -/
theorem run_append {s t : State} {before : List Char} {pos : Nat} {cs : List Char} (ds : List Char)
    (h : (run false s before pos cs).outcome = .ok t) {c : Char}
    (hc : CharClass.ofChar c = .blank) :
    run false s before pos (cs ++ c :: ds) =
      run false t (run false s before pos cs).before (run false s before pos cs).pos
        (c :: ds) := by
  induction cs generalizing s before pos with
  | nil => exact run_settled h hc before pos ds
  | cons c cs ih =>
    obtain ⟨u, hu⟩ := run_cons h
    rw [List.cons_append, hu, hu]
    rw [hu] at h
    exact ih h

/-! ## Readers of the same text -/

structure Alike (r q : Reader) : Prop where
  before : r.before = q.before
  pos : r.pos = q.pos
  after : r.after = q.after

def Agree {α : Type} (x y : Except Error α × Reader) : Prop :=
  x.1 = y.1 ∧ x.2.Alike y.2

theorem Agree.symm {α : Type} {x y : Except Error α × Reader} (h : Agree x y) : Agree y x :=
  ⟨h.1.symm, h.2.before.symm, h.2.pos.symm, h.2.after.symm⟩

theorem Agree.trans {α : Type} {x y z : Except Error α × Reader} (hxy : Agree x y)
    (hyz : Agree y z) : Agree x z :=
  ⟨hxy.1.trans hyz.1, hxy.2.before.trans hyz.2.before, hxy.2.pos.trans hyz.2.pos,
    hxy.2.after.trans hyz.2.after⟩

variable {single : Bool} {s t : State} {r q : Reader}

-- The counter is for what is to come: nothing that has been read or is left to read depends on it.
@[simp] theorem malformed_counting (f : Fault) : (r.counting s t).malformed f = r.malformed f :=
  rfl

@[simp] theorem exhausted_counting : (r.counting s t).exhausted = r.exhausted :=
  rfl

theorem counting_congr {s' t' : State} (hs : s.nesting = s'.nesting) (ht : t.nesting = t'.nesting) :
    r.counting s t = r.counting s' t' := by
  unfold counting
  rw [hs, ht]

theorem Alike.counting (h : r.Alike q) (s t : State) : (r.counting s t).Alike (q.counting s t) :=
  ⟨h.before, h.pos, h.after⟩

theorem Alike.malformed (h : r.Alike q) (f : Fault) : r.malformed f = q.malformed f := by
  unfold Reader.malformed fragment buffer
  rw [h.before, h.pos, h.after]

theorem Alike.leg (h : r.Alike q) : Agree (leg single s r) (leg single s q) := by
  unfold Reader.leg
  rw [h.before, h.pos, h.after]
  dsimp only
  cases (run single s q.before q.pos q.after).outcome with
  | error f => exact ⟨congrArg Except.error (Alike.malformed ⟨rfl, rfl, rfl⟩ f), rfl, rfl, rfl⟩
  | ok t => exact ⟨rfl, rfl, rfl, rfl⟩

theorem Alike.conclude (h : r.Alike q) : Agree (conclude single s r) (conclude single s q) := by
  unfold Reader.conclude
  rw [h.pos]
  cases faultAtEnd single s q.pos with
  | some f => exact ⟨congrArg Except.error (h.malformed f), h.counting s {}⟩
  | none => exact ⟨rfl, h⟩

theorem Alike.finish (h : r.Alike q) : Agree (finish single s r) (finish single s q) := by
  have hleg : Agree (Reader.leg single s r) (Reader.leg single s q) := h.leg
  unfold Reader.finish
  generalize Reader.leg single s r = x at hleg
  generalize Reader.leg single s q = y at hleg
  obtain ⟨x, r⟩ := x
  obtain ⟨y, q⟩ := y
  obtain ⟨rfl, halike⟩ := hleg
  cases x with
  | error e => exact ⟨rfl, halike⟩
  | ok t => exact halike.conclude

theorem Alike.exhaust (h : r.Alike q) : r.asking.exhaust.Alike q.asking.exhaust :=
  ⟨h.before, h.pos, congrArg (· ++ [' ']) h.after⟩

-- The answers to come have no part in how the text at hand is read.
theorem leg_answers (answers : List (Option String)) :
    leg single s { r with answers } =
      ((leg single s r).1, { (leg single s r).2 with answers }) := by
  unfold leg
  dsimp only
  split <;> rfl

theorem resume_nil_of_legs (h : Agree (leg single s r) (leg single t q)) :
    Agree (resume single s r []) (resume single t q []) := by
  unfold resume
  rw [leg_answers [] (s := s) (r := r), leg_answers [] (s := t) (r := q)]
  generalize leg single s r = x at h
  generalize leg single t q = y at h
  obtain ⟨x, r⟩ := x
  obtain ⟨y, q⟩ := y
  obtain ⟨rfl, hrq⟩ := h
  have halike : Alike { r with answers := [] } { q with answers := [] } :=
    ⟨hrq.before, hrq.pos, hrq.after⟩
  cases x with
  | error e => exact ⟨rfl, halike⟩
  | ok u =>
    dsimp only
    split
    next => exact halike.conclude
    next => exact halike.exhaust.finish

theorem before_leg : (leg single s r).2.before = (run single s r.before r.pos r.after).before := by
  unfold leg
  dsimp only
  split <;> rfl

theorem pos_leg : (leg single s r).2.pos = (run single s r.before r.pos r.after).pos := by
  unfold leg
  dsimp only
  split <;> rfl

theorem after_leg : (leg single s r).2.after = (run single s r.before r.pos r.after).after := by
  unfold leg
  dsimp only
  split <;> rfl

theorem outcome_of_leg (h : (leg single s r).1 = .ok t) :
    (run single s r.before r.pos r.after).outcome = .ok t := by
  unfold leg at h
  dsimp only at h
  split at h
  next => cases h
  next u hu =>
    cases h
    exact hu

/-- A leg is determined by its run. -/
theorem agree_leg_of_run
    (h : run false s r.before r.pos r.after = run false t q.before q.pos q.after) :
    Agree (leg false s r) (leg false t q) := by
  unfold leg
  dsimp only
  rw [h]
  cases (run false t q.before q.pos q.after).outcome with
  | error f => exact ⟨congrArg Except.error (Alike.malformed ⟨rfl, rfl, rfl⟩ f), rfl, rfl, rfl⟩
  | ok u => exact ⟨rfl, rfl, rfl, rfl⟩

-- A leg over two parts is a leg over the first and then one over the second.
theorem leg_append (h : (leg false s r).1 = .ok t) (cs : List Char) :
    Agree (leg false s { r with after := r.after ++ '\n' :: cs })
      (leg false t { (leg false s r).2 with after := '\n' :: cs }) := by
  apply agree_leg_of_run
  dsimp only
  rw [before_leg, pos_leg]
  exact run_append cs (outcome_of_leg h) ofChar_newline

/-! ## Answers -/

/-- The texts a reader was given when it asked for more, up to the first empty one; `r` is what it
has come to. -/
def supplied (answers : List (Option String)) (r : Reader) : List String :=
  ((answers.take (answers.length - r.answers.length)).map (·.getD "")).takeWhile (!·.isEmpty)

def lines (texts : List String) : List Char :=
  texts.flatMap fun text => '\n' :: text.toList

theorem answers_leg : (leg single s r).2.answers = r.answers := by
  unfold leg
  dsimp only
  split <;> rfl

theorem answers_conclude : (conclude single s r).2.answers = r.answers := by
  unfold conclude
  split <;> rfl

theorem answers_finish : (finish single s r).2.answers = r.answers := by
  unfold finish
  have hleg : (leg single s r).2.answers = r.answers := answers_leg
  split
  next e r' heq =>
    rw [heq] at hleg
    exact hleg
  next t r' heq =>
    rw [heq] at hleg
    exact answers_conclude.trans hleg

/-- An answer that adds no text changes nothing; one that does is read after what was there. -/
theorem resume_cons (s : State) (r : Reader) (answer : Option String)
    (rest : List (Option String)) :
    (Agree (resume false s r (answer :: rest)) (resume false s r []) ∧
      ((resume false s r (answer :: rest)).2.answers = answer :: rest ∨
        (resume false s r (answer :: rest)).2.answers = rest ∧ (answer.getD "").isEmpty = true)) ∨
    ∃ t q, (leg false s r).1 = .ok t ∧ (answer.getD "").isEmpty = false ∧
      q.Alike { (leg false s r).2 with after := '\n' :: (answer.getD "").toList } ∧
      resume false s r (answer :: rest) = resume false t q rest := by
  have hleft : ∀ t, (leg false s r).1 = .ok t → (leg false s r).2.after = [] :=
    fun t h => after_leg.trans (after_run (outcome_of_leg h))
  rw [resume, resume, leg_answers (answer :: rest), leg_answers []]
  generalize leg false s r = x at hleft
  obtain ⟨x, q⟩ := x
  have halike : Alike { q with answers := answer :: rest } { q with answers := [] } :=
    ⟨rfl, rfl, rfl⟩
  cases x with
  | error e => exact .inl ⟨⟨rfl, halike⟩, .inl rfl⟩
  | ok t =>
    dsimp only
    by_cases hdone : t.unfinished.isNone = true
    · rw [if_pos hdone, if_pos hdone]
      exact .inl ⟨halike.conclude, .inl answers_conclude⟩
    · rw [if_neg hdone, if_neg hdone]
      by_cases hempty : (answer.getD "").isEmpty = true
      · rw [if_pos hempty]
        have hexhaust : Alike (exhaust { q with asked := prompt q :: q.asked, answers := rest })
            (exhaust { q with asked := prompt q :: q.asked, answers := [] }) :=
          ⟨rfl, rfl, rfl⟩
        exact .inl ⟨hexhaust.finish, .inr ⟨answers_finish, hempty⟩⟩
      · rw [if_neg hempty]
        refine .inr ⟨t, extend { q with asked := prompt q :: q.asked, answers := rest }
          (answer.getD ""), rfl, eq_false_of_ne_true hempty, ⟨rfl, rfl, ?_⟩, rfl⟩
        show q.after ++ '\n' :: (answer.getD "").toList = '\n' :: (answer.getD "").toList
        rw [hleft t rfl, List.nil_append]

theorem length_answers_resume (s : State) (r : Reader) (answers : List (Option String)) :
    (resume false s r answers).2.answers.length ≤ answers.length := by
  induction answers generalizing s r with
  | nil =>
    have hnone : (resume false s r []).2.answers = [] := by
      rw [resume, leg_answers]
      generalize leg false s r = x
      obtain ⟨x, q⟩ := x
      cases x with
      | error e => rfl
      | ok t =>
        dsimp only
        split
        next => exact answers_conclude
        next => exact answers_finish
    exact Nat.le_of_eq (congrArg List.length hnone)
  | cons answer rest ih =>
    rcases resume_cons s r answer rest with ⟨-, hkept | ⟨hrest, -⟩⟩ | ⟨t, q, -, -, -, hresume⟩
    · exact Nat.le_of_eq (congrArg List.length hkept)
    · rw [hrest, List.length_cons]
      omega
    · have hle := ih t q
      rw [hresume, List.length_cons]
      omega

/-! ## Reading in parts and reading at once -/

theorem supplied_nil (r : Reader) : supplied [] r = [] := by
  unfold supplied
  rw [List.take_nil]
  rfl

theorem supplied_of_length {answers : List (Option String)} {r : Reader}
    (h : r.answers.length = answers.length) : supplied answers r = [] := by
  unfold supplied
  rw [h, Nat.sub_self]
  rfl

-- The induction is on the answers; each that adds a text moves the start of what is left to read.
theorem resume_agree (s : State) (r : Reader) (answers : List (Option String)) :
    Agree (resume false s r answers)
      (resume false s
        { r with after := r.after ++ lines (supplied answers (resume false s r answers).2) }
        []) := by
  have hsame : ∀ (s : State) (r : Reader) {texts : List String}, texts = [] →
      Agree (resume false s r [])
        (resume false s { r with after := r.after ++ lines texts } []) := by
    rintro s r texts rfl
    apply resume_nil_of_legs
    exact Alike.leg ⟨rfl, rfl, (List.append_nil r.after).symm⟩
  induction answers generalizing s r with
  | nil => exact hsame s r (supplied_nil _)
  | cons answer rest ih =>
    rcases resume_cons s r answer rest with ⟨hagree, hcase⟩ | ⟨t, q, ht, htext, hq, hresume⟩
    · have hnone : supplied (answer :: rest) (resume false s r (answer :: rest)).2 = [] := by
        rcases hcase with hkept | ⟨hrest, hempty⟩
        · exact supplied_of_length (by rw [hkept])
        · unfold supplied
          have hone : (answer :: rest).length - rest.length = 1 := by
            rw [List.length_cons]
            omega
          rw [hrest, hone]
          simp [hempty]
      exact hagree.trans (hsame s r hnone)
    · have hle := length_answers_resume t q rest
      have hsupplied : supplied (answer :: rest) (resume false t q rest).2 =
          answer.getD "" :: supplied rest (resume false t q rest).2 := by
        unfold supplied
        have hcount : (answer :: rest).length - (resume false t q rest).2.answers.length =
            rest.length - (resume false t q rest).2.answers.length + 1 := by
          rw [List.length_cons]
          omega
        rw [hcount, List.take_succ_cons, List.map_cons,
          List.takeWhile_cons_of_pos (by simp [htext])]
      rw [hresume, hsupplied]
      refine (ih t q).trans (Agree.symm (resume_nil_of_legs ?_))
      have hlines : lines (answer.getD "" :: supplied rest (resume false t q rest).2) =
          '\n' :: ((answer.getD "").toList ++
            lines (supplied rest (resume false t q rest).2)) := rfl
      rw [hlines]
      refine (leg_append ht _).trans (Agree.symm (Alike.leg ⟨hq.before, hq.pos, ?_⟩))
      show q.after ++ _ = _
      rw [hq.after]
      rfl

/-! ## Texts that need no answer -/

theorem rests_of_run {before : List Char} {pos : Nat} {cs : List Char}
    (h : (run false s before pos cs).outcome = .ok t) : t.mode.rests = true := by
  induction cs generalizing s before pos with
  | nil => exact rests_of_settle h
  | cons c cs ih =>
    obtain ⟨u, hu⟩ := run_cons h
    rw [hu] at h
    exact ih h

-- A blank closes nothing: it leaves open what was open, or is where it cannot be.
theorem take_space (pos : Nat) (hrest : s.mode.rests = true) :
    (∃ t, s.take pos ' ' = .ok t ∧ t.mode.rests = true ∧ t.unfinished = s.unfinished) ∨
      ∃ f, s.take pos ' ' = .error f ∧ s.unfinished = some f := by
  obtain ⟨forms, stack, mode⟩ := s
  cases mode with
  | blank =>
    refine .inl ⟨_, ?_, hrest, rfl⟩
    unfold State.take
    dsimp only
    split
    next => simp only [State.beginItem, ofChar_space]
    next => simp only [State.beginForm, ofChar_space]
  | string start text escaped =>
    cases escaped <;> exact .inl ⟨_, rfl, rfl, rfl⟩
  | tick start =>
    refine .inr ⟨⟨.badLiteral, start⟩, ?_, rfl⟩
    simp only [State.take, State.beginLiteral, ofChar_space]
  | fields start fields =>
    refine .inl ⟨_, ?_, hrest, rfl⟩
    simp only [State.take, State.beginKey, ofChar_space]
  | colon start fields key => exact .inl ⟨_, rfl, hrest, rfl⟩
  | _ => cases hrest

/-- A form that is still open after the blank of an empty answer is a fault behind that blank. -/
theorem finish_space {f : Fault} (hrest : s.mode.rests = true) (hopen : s.unfinished = some f)
    (hafter : r.after = [' ']) :
    (finish false s r).1 =
      .error (malformed { r with before := ' ' :: r.before, pos := r.pos + 1, after := [] } f) := by
  have hsettle : s.settle (some ' ') = .ok s :=
    (settle_blank s ofChar_space).trans (settle_of_rests hrest)
  unfold finish leg
  rw [hafter, run, hsettle]
  rcases take_space r.pos hrest with ⟨t, htake, ht, hsame⟩ | ⟨g, htake, hfault⟩
  · simp only [Bool.false_and, Bool.false_eq_true, if_false, htake, run, settle_of_rests ht,
      conclude, faultAtEnd, hsame, hopen, malformed_counting]
  · cases hfault.symm.trans hopen
    simp only [Bool.false_and, Bool.false_eq_true, if_false, htake]

theorem asked_leg : (leg single s r).2.asked = r.asked := by
  unfold leg
  dsimp only
  split <;> rfl

-- Where the text alone is enough, no answer is looked at.
theorem resume_of_complete {fs : List Form} (h : (resume false s r []).1 = .ok fs)
    (answers : List (Option String)) :
    (resume false s r answers).1 = .ok fs ∧ (resume false s r answers).2.asked = r.asked ∧
      (resume false s r answers).2.answers = answers := by
  have hasked : (leg false s r).2.asked = r.asked := asked_leg
  have hafter : ∀ t, (leg false s r).1 = .ok t → (leg false s r).2.after = [] :=
    fun t ht => after_leg.trans (after_run (outcome_of_leg ht))
  have hrests : ∀ t, (leg false s r).1 = .ok t → t.mode.rests = true :=
    fun t ht => rests_of_run (outcome_of_leg ht)
  rw [resume, leg_answers] at h
  generalize hleg : leg false s r = x at h hasked hafter hrests
  obtain ⟨x, q⟩ := x
  cases x with
  | error e => cases h
  | ok t =>
    dsimp only at h hasked
    by_cases hdone : t.unfinished.isNone = true
    · rw [if_pos hdone] at h
      have hresume : resume false s r answers = conclude false t { q with answers } := by
        cases answers with
        | nil =>
          rw [resume, leg_answers, hleg]
          exact if_pos hdone
        | cons answer rest =>
          rw [resume, leg_answers, hleg]
          exact if_pos hdone
      have hfault : faultAtEnd false t q.pos = none := by
        unfold faultAtEnd
        rw [Option.isNone_iff_eq_none.mp hdone]
        rfl
      rw [hresume]
      unfold conclude at h ⊢
      dsimp only at h ⊢
      rw [hfault] at h ⊢
      exact ⟨h, hasked, rfl⟩
    · rw [if_neg hdone] at h
      have hspace : q.after ++ [' '] = [' '] := by
        rw [hafter t rfl, List.nil_append]
      obtain ⟨f, hf⟩ := Option.ne_none_iff_exists'.mp (mt Option.isNone_iff_eq_none.mpr hdone)
      rw [finish_space (hrests t rfl) hf hspace] at h
      cases h

/-! ## Sources -/

/-- A source with the answers that its reader takes, each on a new line below it. -/
def joined (source : String) (answers : List (Option String)) : String :=
  "\n".intercalate (source :: supplied answers (ofSource source answers).all.2)

theorem toList_intercalate_lines (source : String) (texts : List String) :
    ("\n".intercalate (source :: texts)).toList = source.toList ++ lines texts := by
  induction texts generalizing source with
  | nil =>
    rw [String.intercalate_singleton]
    exact (List.append_nil source.toList).symm
  | cons text texts ih =>
    rw [String.intercalate_cons_cons, String.toList_append, String.toList_append, ih]
    rw [List.append_assoc]
    rfl

theorem toList_between (source other : String) (c : Char) :
    (source ++ String.singleton c ++ other).toList = source.toList ++ c :: other.toList := by
  simp

theorem all_agree (source : String) (answers : List (Option String)) :
    Agree (ofSource source answers).all (ofSource (joined source answers) []).all := by
  refine (resume_agree {} (ofSource source answers) answers).trans (resume_nil_of_legs ?_)
  apply Alike.leg
  exact ⟨rfl, rfl, (toList_intercalate_lines source _).symm⟩

/-- To read a source with answers is to read the source with the answers it took written below it:
the same forms or the same error, and the same text in the end. A source that can be read without
answers takes none. -/
theorem all_eq_all_joined (source : String) (answers : List (Option String)) :
    ((ofSource source answers).all.1 = (ofSource (joined source answers) []).all.1 ∧
      (ofSource source answers).all.2.buffer = (ofSource (joined source answers) []).all.2.buffer) ∧
    ∀ fs, read source = .ok fs →
      (ofSource source answers).all.1 = .ok fs ∧
      (ofSource source answers).all.2.prompts = [] ∧
      (ofSource source answers).all.2.answers = answers := by
  have hagree := all_agree source answers
  refine ⟨⟨hagree.1, ?_⟩, ?_⟩
  · unfold buffer
    rw [hagree.2.before, hagree.2.after]
  · intro fs hread
    have hresume : (ofSource source answers).all =
        resume false {} (ofSource source answers) answers := rfl
    have halone : (resume false {} (ofSource source answers) []).1 = .ok fs := by
      rw [← hread]
      exact (resume_nil_of_legs (Alike.leg ⟨rfl, rfl, rfl⟩)).1
    obtain ⟨hforms, hasked, hanswers⟩ := resume_of_complete halone answers
    rw [hresume]
    refine ⟨hforms, ?_, hanswers⟩
    unfold prompts
    rw [hasked]
    rfl

theorem all_complete_source :
    read "(a 'b)" = .ok [.expr [.symbol "a", .str "b"]] ∧
      (ofSource "(a 'b)" [some "c"]).all.1 = .ok [.expr [.symbol "a", .str "b"]] ∧
      (ofSource "(a 'b)" [some "c"]).all.2.prompts = [] ∧
      (ofSource "(a 'b)" [some "c"]).all.2.answers = [some "c"] := by
  have hread : read "(a 'b)" = .ok [.expr [.symbol "a", .str "b"]] := by cbv
  exact ⟨hread, (all_eq_all_joined "(a 'b)" [some "c"]).2 _ hread⟩

example : joined "(a" [some "b", some "c)", some "d"] = "(a\nb\nc)" := by
  cbv

end Lisplet.Reader
