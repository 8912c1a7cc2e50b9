import Lisplet.Proofs.Continuation
import Lisplet.Proofs.Readable

/-!
# The course of a call

A call on a reader goes on character by character, and by a request wherever the text ends in an
open form. `Step` is one character or one request with its answer, and `Ends` says what the call
comes to. Every call takes such a course, so what each step keeps is true at every moment of a call
and between calls.
-/

namespace Lisplet.Reader

def advance (r : Reader) (c : Char) (cs : List Char) : Reader :=
  { r with before := c :: r.before, pos := r.pos + 1, after := cs }

/-- The text of the answer to the next request; empty where there is none. -/
def nextAnswer (r : Reader) : String :=
  r.answers.head?.join.getD ""

def answered (r : Reader) : Reader :=
  let q := { r.asking with answers := r.answers.tail }
  if r.nextAnswer.isEmpty then q.exhaust else q.extend r.nextAnswer

/-- The machine has not yet got the single form it is to read. -/
def State.Lacking (single : Bool) (s : State) : Prop :=
  (single && !s.forms.isEmpty) = false

/-- One step of a call: the next character is read or, at the end of the text, more is asked for. -/
inductive Step (single : Bool) : State × Reader → State × Reader → Prop
  | char {s t u : State} {r : Reader} {c : Char} {cs : List Char} (hs : s.Lacking single)
      (hafter : r.after = c :: cs) (hsettle : s.settle (some c) = .ok t) (ht : t.Lacking single)
      (htake : t.take r.pos c = .ok u) : Step single (s, r) (u, (r.advance c cs).counting s u)
  | ask {s t : State} {r : Reader} (hs : s.Lacking single) (hafter : r.after = [])
      (hsettle : s.settle none = .ok t) (hopen : t.unfinished.isNone = false)
      (hmore : r.exhausted = false) : Step single (s, r) (t, (r.counting s t).answered)

inductive Ends (single : Bool) : State × Reader → Except Error (List Form) × Reader → Prop
  /-- The form is complete. -/
  | complete {s : State} {r : Reader} (hdone : ¬ s.Lacking single) :
      Ends single (s, r) (.ok s.forms.reverse, r)
  /-- The next character completes the form, and is not read. -/
  | next {s t : State} {r : Reader} {c : Char} {cs : List Char} (hafter : r.after = c :: cs)
      (hsettle : s.settle (some c) = .ok t) (hdone : ¬ t.Lacking single) :
      Ends single (s, r) (.ok t.forms.reverse, r.counting s t)
  /-- The text ends, and nothing is open. -/
  | finished {s t : State} {r : Reader} (hafter : r.after = []) (hsettle : s.settle none = .ok t)
      (hnone : faultAtEnd single t r.pos = none) :
      Ends single (s, r) (.ok t.forms.reverse, r.counting s t)
  /-- The next character, or the end of the text, cannot be where it is. -/
  | misplaced {s : State} {r : Reader} {f : Fault} (hsettle : s.settle r.after.head? = .error f) :
      Ends single (s, r) (.error (r.malformed f), r.counting s {})
  /-- The next character is read, and is a fault. -/
  | refused {s t : State} {r : Reader} {c : Char} {cs : List Char} {f : Fault}
      (hafter : r.after = c :: cs) (hsettle : s.settle (some c) = .ok t)
      (htake : t.take r.pos c = .error f) :
      Ends single (s, r) (.error ((r.advance c cs).malformed f), (r.advance c cs).counting s {})
  /-- The text ends for good in an open form, or there is no form. -/
  | missing {s t : State} {r : Reader} {f : Fault} (hafter : r.after = [])
      (hsettle : s.settle none = .ok t) (hfault : faultAtEnd single t r.pos = some f)
      (hlast : t.unfinished = none ∨ r.exhausted = true) :
      Ends single (s, r) (.error (r.malformed f), r.counting s {})

abbrev Steps (single : Bool) : State × Reader → State × Reader → Prop :=
  Relation.ReflTransGen (Step single)

variable {single : Bool} {s t u : State} {r : Reader}

/-! ## The counter -/

/-- What counts in the end is what is open in the end. -/
theorem counting_counting (r : Reader) (s t u : State) :
    (r.counting s t).counting t u = r.counting s u := by
  unfold counting
  dsimp only
  rw [Nat.add_sub_cancel]

/-! ## A leg -/

theorem leg_nil (hafter : r.after = []) :
    leg single s r =
      match s.settle none with
      | .error f => (.error (r.malformed f), r.counting s {})
      | .ok t => (.ok t, r.counting s t) := by
  obtain ⟨before, pos, after, answers, exhausted, asked, depth⟩ := r
  cases hafter
  cases hsettle : s.settle none <;> simp only [leg, run, hsettle]

/-- A leg that goes on from `u` counts from where it began. -/
theorem leg_counting (single : Bool) (s u : State) (r : Reader) :
    leg single u (r.counting s u) =
      let run := run single u r.before r.pos r.after
      let q := { r with before := run.before, pos := run.pos, after := run.after }
      match run.outcome with
      | .error f => (.error (q.malformed f), q.counting s {})
      | .ok t => (.ok t, q.counting s t) := by
  unfold leg counting
  dsimp only
  rw [Nat.add_sub_cancel]
  cases (run single u r.before r.pos r.after).outcome <;> rfl

/-- What becomes of a leg by the next character. -/
theorem leg_cons {c : Char} {cs : List Char} (hafter : r.after = c :: cs) :
    leg single s r =
      match s.settle (some c) with
      | .error f => (.error (r.malformed f), r.counting s {})
      | .ok t =>
        if single && !t.forms.isEmpty then (.ok t, r.counting s t)
        else
          match t.take r.pos c with
          | .error f => (.error ((r.advance c cs).malformed f), (r.advance c cs).counting s {})
          | .ok u =>
            if single && !u.forms.isEmpty then (.ok u, (r.advance c cs).counting s u)
            else leg single u ((r.advance c cs).counting s u) := by
  obtain ⟨before, pos, after, answers, exhausted, asked, depth⟩ := r
  cases hafter
  unfold leg
  dsimp only
  rw [run]
  cases s.settle (some c) with
  | error f => rfl
  | ok t =>
    dsimp only
    cases single && !t.forms.isEmpty with
    | true => rfl
    | false =>
      cases t.take pos c with
      | error f => rfl
      | ok u =>
        dsimp only
        cases single && !u.forms.isEmpty with
        | true => rfl
        | false =>
          exact (leg_counting single s u
            ⟨c :: before, pos + 1, cs, answers, exhausted, asked, depth⟩).symm

/-- A leg may as well begin with the state that the next character is met in. -/
theorem leg_settle (h : s.settle r.after.head? = .ok t) (ht : t.settle r.after.head? = .ok t) :
    leg single s r = leg single t (r.counting s t) := by
  cases hafter : r.after with
  | nil =>
    rw [hafter] at h ht
    rw [leg_nil hafter, leg_nil (r := r.counting s t) hafter, show s.settle none = .ok t from h,
      show t.settle none = .ok t from ht]
    dsimp only
    rw [counting_counting]
  | cons c cs =>
    rw [hafter] at h ht
    have hadvance : ∀ u, ((r.counting s t).advance c cs).counting t u =
        (r.advance c cs).counting s u := counting_counting (r.advance c cs) s t
    rw [leg_cons hafter, leg_cons (r := r.counting s t) hafter,
      show s.settle (some c) = .ok t from h, show t.settle (some c) = .ok t from ht]
    dsimp only
    simp only [hadvance, counting_counting]
    rfl

-- A form that has just been completed leaves nothing open.
theorem State.Extends.complete (h : s.Extends t) (hs : s.Lacking single) (ht : ¬ t.Lacking single)
    (pos : Nat) : faultAtEnd single t pos = none := by
  unfold State.Lacking at hs ht
  rcases h with hsame | hnone
  · exact absurd (hsame ▸ hs) ht
  · rw [Bool.not_eq_false, Bool.and_eq_true, Bool.not_eq_true'] at ht
    unfold faultAtEnd
    rw [hnone, ht.2, Bool.and_false]
    rfl

theorem State.Extends.lacking (h : s.Extends t) (hs : s.Lacking single)
    (hopen : t.unfinished.isNone = false) : t.Lacking single := by
  unfold State.Lacking at hs ⊢
  rcases h with hsame | hnone
  · rwa [hsame]
  · rw [hnone] at hopen
    cases hopen

theorem isNone_of_faultAtEnd {pos : Nat} (h : faultAtEnd single t pos = none) :
    t.unfinished.isNone = true := by
  unfold faultAtEnd at h
  cases hfault : t.unfinished with
  | none => rfl
  | some f =>
    rw [hfault] at h
    cases h

/-- How a leg that has found no fault has ended: with a form, or at the end of the text. -/
def LegEnds (single : Bool) (x : State × Reader) (t : State) (q : Reader) : Prop :=
  faultAtEnd single t q.pos = none ∧ Ends single x (.ok t.forms.reverse, q) ∨
    x.2.counting x.1 t = q ∧ q.after = [] ∧ x.1.settle none = .ok t ∧ x.1.Lacking single

theorem steps_leg (hs : s.Lacking single) :
    ∃ x, Steps single (s, r) x ∧
      match leg single s r with
      | (.error e, q) => Ends single x (.error e, q)
      | (.ok t, q) => LegEnds single x t q := by
  -- By induction on the text. A form may be complete before a character is read, or by it.
  generalize hafter : r.after = cs
  induction cs generalizing s r with
  | nil =>
    rw [leg_nil hafter]
    cases hsettle : s.settle none with
    | error f => exact ⟨(s, r), .refl, .misplaced (by rw [hafter]; exact hsettle)⟩
    | ok t => exact ⟨(s, r), .refl, .inr ⟨rfl, hafter, hsettle, hs⟩⟩
  | cons c cs ih =>
    rw [leg_cons hafter]
    cases hsettle : s.settle (some c) with
    | error f => exact ⟨(s, r), .refl, .misplaced (by rw [hafter]; exact hsettle)⟩
    | ok t =>
      dsimp only
      by_cases ht : t.Lacking single
      · rw [ht]
        cases htake : t.take r.pos c with
        | error f => exact ⟨(s, r), .refl, .refused hafter hsettle htake⟩
        | ok u =>
          have hstep : Step single (s, r) (u, (r.advance c cs).counting s u) :=
            .char hs hafter hsettle ht htake
          simp only [Bool.false_eq_true, if_false]
          by_cases hu : u.Lacking single
          · rw [hu]
            obtain ⟨x, hsteps, hx⟩ := ih (r := (r.advance c cs).counting s u) hu rfl
            exact ⟨x, .head hstep hsteps, hx⟩
          · rw [eq_true_of_ne_false hu]
            exact ⟨_, .single hstep,
              .inl ⟨(extends_take htake).complete ht hu _, .complete hu⟩⟩
      · rw [eq_true_of_ne_false ht]
        exact ⟨(s, r), .refl, .inl ⟨(extends_settle hsettle).complete hs ht _,
          .next hafter hsettle ht⟩⟩

theorem exhausted_leg : (leg single s r).2.exhausted = r.exhausted := by
  unfold leg
  dsimp only
  split <;> rfl

/-! ## A call -/

/-- A leg after which nothing more is asked for is the last one. -/
theorem LegEnds.conclude {x : State × Reader} {q : Reader} (h : LegEnds single x t q)
    (hlast : t.unfinished = none ∨ q.exhausted = true) :
    Ends single x (conclude single t q) := by
  unfold Reader.conclude
  rcases h with ⟨hnone, hends⟩ | ⟨rfl, hafter, hsettle, -⟩
  · rw [hnone]
    exact hends
  · cases hfault : faultAtEnd single t (x.2.counting x.1 t).pos with
    | none => exact .finished hafter hsettle hfault
    | some f =>
      dsimp only
      rw [counting_counting, malformed_counting]
      exact .missing hafter hsettle hfault hlast

theorem steps_finish (hs : s.Lacking single) (hlast : r.exhausted = true) :
    ∃ x, Steps single (s, r) x ∧ Ends single x (finish single s r) := by
  obtain ⟨x, hsteps, hx⟩ := steps_leg (r := r) hs
  have hexhausted : (leg single s r).2.exhausted = true := exhausted_leg.trans hlast
  refine ⟨x, hsteps, ?_⟩
  unfold finish
  generalize leg single s r = y at hx hexhausted
  obtain ⟨y, q⟩ := y
  cases y with
  | error e => exact hx
  | ok t => exact hx.conclude (.inr hexhausted)

/-- A leg after which more is asked for is followed by a request. -/
theorem LegEnds.ask {x : State × Reader} {q : Reader} (h : LegEnds single x t q)
    (hopen : t.unfinished.isNone = false) (hmore : q.exhausted = false) :
    Step single x (t, q.answered) ∧ t.Lacking single := by
  rcases h with ⟨hnone, -⟩ | ⟨rfl, hafter, hsettle, hx⟩
  · -- A leg that has ended in a form has nothing open.
    rw [isNone_of_faultAtEnd hnone] at hopen
    cases hopen
  · exact ⟨.ask hx hafter hsettle hopen hmore, (extends_settle hsettle).lacking hx hopen⟩

/-- One leg of a call, and what is done about the answer if there is a request after it. -/
theorem resume_leg (s : State) (r : Reader) :
    resume single s r r.answers =
      match leg single s r with
      | (.error e, q) => (.error e, q)
      | (.ok t, q) =>
        if t.unfinished.isNone then conclude single t q
        else if q.nextAnswer.isEmpty then finish single t q.answered
        else resume single t q.answered q.answered.answers := by
  have hanswers : (leg single s r).2.answers = r.answers := answers_leg
  obtain ⟨before, pos, after, answers, exhausted, asked, depth⟩ := r
  cases answers with
  | nil =>
    rw [resume]
    generalize leg single s _ = y at hanswers
    obtain ⟨y, q⟩ := y
    obtain ⟨before, pos, after, answers, exhausted, asked, depth⟩ := q
    cases hanswers
    cases y <;> rfl
  | cons answer rest =>
    rw [resume]
    generalize leg single s _ = y at hanswers
    obtain ⟨y, q⟩ := y
    obtain ⟨before, pos, after, answers, exhausted, asked, depth⟩ := q
    cases hanswers
    cases y with
    | error e => rfl
    | ok t =>
      have htext : nextAnswer ⟨before, pos, after, answer :: rest, exhausted, asked, depth⟩ =
          answer.getD "" := rfl
      unfold answered
      dsimp only
      rw [htext]
      cases (answer.getD "").isEmpty <;> rfl

theorem answers_answered : r.answered.answers = r.answers.tail := by
  unfold answered
  dsimp only
  split <;> rfl

theorem asked_answered : r.answered.asked = r.prompt :: r.asked := by
  unfold answered
  dsimp only
  split <;> rfl

theorem exhausted_answered (h : r.nextAnswer.isEmpty = false) :
    r.answered.exhausted = r.exhausted := by
  unfold answered
  rw [h]
  rfl

theorem exhausted_of_empty (h : r.nextAnswer.isEmpty = true) : r.answered.exhausted = true := by
  unfold answered
  rw [h]
  rfl

theorem length_answered (h : r.nextAnswer.isEmpty = false) :
    r.answered.answers.length < r.answers.length := by
  rw [answers_answered, List.length_tail]
  cases hanswers : r.answers with
  | nil =>
    rw [nextAnswer, hanswers] at h
    cases h
  | cons answer rest => exact Nat.lt_succ_self _

-- By induction on the answers to come: each request that gets a text begins a new leg.
theorem steps_resume (s : State) (r : Reader) (hs : s.Lacking single)
    (hmore : r.exhausted = false) :
    ∃ x, Steps single (s, r) x ∧ Ends single x (resume single s r r.answers) := by
  obtain ⟨x, hsteps, hx⟩ := steps_leg (r := r) hs
  have hexhausted : (leg single s r).2.exhausted = false := exhausted_leg.trans hmore
  have hanswers : (leg single s r).2.answers = r.answers := answers_leg
  rw [resume_leg]
  generalize leg single s r = y at hx hexhausted hanswers
  obtain ⟨y, q⟩ := y
  cases y with
  | error e => exact ⟨x, hsteps, hx⟩
  | ok t =>
    dsimp only at hexhausted hanswers ⊢
    cases hopen : t.unfinished.isNone with
    | true => exact ⟨x, hsteps, hx.conclude (.inl (Option.isNone_iff_eq_none.mp hopen))⟩
    | false =>
      obtain ⟨hask, ht⟩ := hx.ask hopen hexhausted
      -- An empty answer leaves one leg to go; a text begins the call anew with one answer less.
      cases htext : q.nextAnswer.isEmpty with
      | true =>
        obtain ⟨z, hz, hends⟩ := steps_finish ht (exhausted_of_empty htext)
        exact ⟨z, (hsteps.tail hask).trans hz, hends⟩
      | false =>
        have hfewer : q.answered.answers.length < r.answers.length :=
          hanswers ▸ length_answered htext
        obtain ⟨z, hz, hends⟩ :=
          steps_resume t q.answered ht ((exhausted_answered htext).trans hexhausted)
        exact ⟨z, (hsteps.tail hask).trans hz, hends⟩
termination_by r.answers.length
decreasing_by exact hfewer

/-- Every call takes a course of single steps to its end. -/
theorem steps_start (single : Bool) (r : Reader) :
    ∃ x, Steps single ({}, r) x ∧ Ends single x (r.start single) := by
  have hs : State.Lacking single {} := Bool.and_false single
  unfold start
  cases hmore : r.exhausted with
  | true => exact steps_finish hs hmore
  | false => exact steps_resume {} r hs hmore

/-- An error is a fault in what the reader has come to. -/
theorem malformed_of_start {e : Error} (h : (r.start single).1 = .error e) :
    ∃ f, e = (r.start single).2.malformed f := by
  obtain ⟨x, -, hends⟩ := steps_start single r
  generalize r.start single = y at h hends
  obtain ⟨y, q⟩ := y
  cases h
  cases hends with
  | misplaced | refused | missing => exact ⟨_, rfl⟩

end Lisplet.Reader
