import Lisplet.Proofs.Concatenation
import Lisplet.Proofs.Transitions

/-!
# Form by form

A call leaves nothing behind but a place in the text. What has been read plays no part in it, so
every call goes as the first call of a new reader would on the text that is left, and blanks before
a form might as well have been read by the call before. To read all forms is to read the next one
again and again, until there is none or one of them is faulty.

The proofs go along the course of a call, character by character. `Course` is a call that has come
to some state, with what it comes to in the end, and `proceed` is the function that computes this.
-/

namespace Lisplet.Reader

open CharClass

variable {single : Bool} {s t u : State} {r q : Reader} {x y : State × Reader}
  {z : Except Error (List Form) × Reader}

/-! ## What is left of a call -/

/-- Reads on from state `s`, as a call does that has come to this state. -/
def proceed (single : Bool) (s : State) (r : Reader) : Except Error (List Form) × Reader :=
  if r.exhausted then finish single s r else resume single s r r.answers

/-- One leg, and then the end of the call or a request. -/
theorem proceed_leg (single : Bool) (s : State) (r : Reader) :
    proceed single s r =
      match leg single s r with
      | (.error e, q) => (.error e, q)
      | (.ok t, q) =>
        if t.unfinished.isNone || q.exhausted then conclude single t q
        else proceed single t q.answered := by
  -- A leg makes no request, so whether the reader is exhausted is the same on both sides of it.
  have hexhausted : (leg single s r).2.exhausted = r.exhausted := exhausted_leg
  unfold proceed
  cases hmore : r.exhausted with
  | true =>
    rw [if_pos rfl]
    unfold finish
    generalize leg single s r = y at hexhausted
    obtain ⟨y, q⟩ := y
    cases y with
    | error e => rfl
    | ok t =>
      dsimp only at hexhausted ⊢
      rw [hexhausted, hmore, Bool.or_true, if_pos rfl]
  | false =>
    rw [if_neg Bool.false_ne_true, resume_leg]
    generalize leg single s r = y at hexhausted
    obtain ⟨y, q⟩ := y
    cases y with
    | error e => rfl
    | ok t =>
      dsimp only at hexhausted ⊢
      rw [hexhausted, hmore, Bool.or_false]
      -- Whether the answer is empty is whether the reader is exhausted by it.
      cases hempty : q.nextAnswer.isEmpty with
      | true => rw [exhausted_of_empty hempty]
      | false => rw [exhausted_answered hempty, hexhausted, hmore]

theorem proceed_of_step (hstep : Step single x y) (hy : y.1.Lacking single) :
    proceed single x.1 x.2 = proceed single y.1 y.2 := by
  cases hstep with
  | @char s t u r c cs hs hafter hsettle ht htake =>
    dsimp only at hy ⊢
    rw [proceed_leg, proceed_leg single u, leg_cons hafter, hsettle]
    dsimp only
    rw [ht, htake]
    simp only [Bool.false_eq_true, if_false]
    rw [hy]
    simp only [Bool.false_eq_true, if_false]
  | @ask s t r hs hafter hsettle hopen hmore =>
    dsimp only
    rw [proceed_leg, leg_nil hafter, hsettle]
    dsimp only
    rw [hopen, exhausted_counting, hmore]
    rfl

/-- A call that has come to some state, with what it comes to in the end. -/
inductive Course (single : Bool) : State × Reader → Except Error (List Form) × Reader → Prop
  | step {x y : State × Reader} {z : Except Error (List Form) × Reader} (hstep : Step single x y)
      (hy : y.1.Lacking single) (h : Course single y z) : Course single x z
  /-- A step has completed the form. -/
  | complete {x y : State × Reader} (hstep : Step single x y) (hdone : ¬ y.1.Lacking single) :
      Course single x (.ok y.1.forms.reverse, y.2)
  /-- The next character completes the form, and is not read. -/
  | next {s t : State} {r : Reader} {c : Char} {cs : List Char} (hafter : r.after = c :: cs)
      (hsettle : s.settle (some c) = .ok t) (hdone : ¬ t.Lacking single) :
      Course single (s, r) (.ok t.forms.reverse, r.counting s t)
  | misplaced {s : State} {r : Reader} {f : Fault} (hsettle : s.settle r.after.head? = .error f) :
      Course single (s, r) (.error (r.malformed f), r.counting s {})
  | refused {s t : State} {r : Reader} {c : Char} {cs : List Char} {f : Fault}
      (hafter : r.after = c :: cs) (hsettle : s.settle (some c) = .ok t) (ht : t.Lacking single)
      (htake : t.take r.pos c = .error f) :
      Course single (s, r) (.error ((r.advance c cs).malformed f), (r.advance c cs).counting s {})
  /-- The text ends, and nothing more is asked for. -/
  | ended {s t : State} {r : Reader} (hafter : r.after = []) (hsettle : s.settle none = .ok t)
      (hlast : t.unfinished = none ∨ r.exhausted = true) :
      Course single (s, r) (conclude single t (r.counting s t))

/-- With the form complete, nothing is open and there is no fault. -/
theorem conclude_of_done (h : s.Extends t) (hs : s.Lacking single) (hdone : ¬ t.Lacking single)
    (r : Reader) : t.unfinished.isNone = true ∧ conclude single t r = (.ok t.forms.reverse, r) := by
  have hnone : faultAtEnd single t r.pos = none := h.complete hs hdone r.pos
  refine ⟨isNone_of_faultAtEnd hnone, ?_⟩
  unfold conclude
  rw [hnone]

/-- A course is the call itself. -/
theorem Course.eq (h : Course single x z) (hs : x.1.Lacking single) :
    proceed single x.1 x.2 = z := by
  induction h with
  | step hstep hy h ih => exact (proceed_of_step hstep hy).trans (ih hy)
  | complete hstep hdone =>
    cases hstep with
    | @char s t u r c cs _ hafter hsettle ht htake =>
      obtain ⟨hnone, hconclude⟩ :=
        conclude_of_done (extends_take htake) ht hdone ((r.advance c cs).counting s u)
      dsimp only at hdone ⊢
      rw [proceed_leg, leg_cons hafter, hsettle]
      dsimp only
      rw [ht, htake]
      simp only [Bool.false_eq_true, if_false]
      rw [eq_true_of_ne_false hdone]
      simp only [if_true, hnone, Bool.true_or, hconclude]
    | ask _ _ hsettle hopen =>
      -- More is asked for only inside of a form.
      exact absurd ((extends_settle hsettle).lacking hs hopen) hdone
  | @next s t r c cs hafter hsettle hdone =>
    obtain ⟨hnone, hconclude⟩ :=
      conclude_of_done (extends_settle hsettle) hs hdone (r.counting s t)
    dsimp only
    rw [proceed_leg, leg_cons hafter, hsettle]
    dsimp only
    rw [eq_true_of_ne_false hdone]
    simp only [if_true, hnone, Bool.true_or, hconclude]
  | @misplaced s r f hsettle =>
    dsimp only
    rw [proceed_leg]
    cases hafter : r.after with
    | nil =>
      rw [hafter] at hsettle
      rw [leg_nil hafter, show s.settle none = .error f from hsettle]
    | cons c cs =>
      rw [hafter] at hsettle
      rw [leg_cons hafter, show s.settle (some c) = .error f from hsettle]
  | @refused s t r c cs f hafter hsettle ht htake =>
    dsimp only
    rw [proceed_leg, leg_cons hafter, hsettle]
    dsimp only
    rw [ht, htake]
    rfl
  | @ended s t r hafter hsettle hlast =>
    dsimp only
    rw [proceed_leg, leg_nil hafter, hsettle]
    dsimp only
    rw [if_pos]
    rcases hlast with hnone | hlast
    · rw [hnone]
      rfl
    · rw [exhausted_counting, hlast, Bool.or_true]

def requests (r : Reader) : Nat :=
  if r.exhausted then 0 else r.answers.length + 1

theorem requests_answered (hmore : r.exhausted = false) : r.answered.requests < r.requests := by
  unfold requests
  rw [hmore]
  cases hempty : r.nextAnswer.isEmpty with
  | true =>
    rw [exhausted_of_empty hempty]
    exact Nat.succ_pos _
  | false =>
    rw [exhausted_answered hempty, hmore]
    exact Nat.succ_lt_succ (length_answered hempty)

/-- Every call takes a course. -/
theorem course_proceed (s : State) (r : Reader) (hs : s.Lacking single) :
    Course single (s, r) (proceed single s r) := by
  -- A character leaves less text, a request fewer requests.
  cases hafter : r.after with
  | nil =>
    cases hsettle : s.settle none with
    | error f =>
      have hcourse : Course single (s, r) (.error (r.malformed f), r.counting s {}) :=
        .misplaced (by rw [hafter]; exact hsettle)
      rwa [hcourse.eq hs]
    | ok t =>
      by_cases hlast : t.unfinished = none ∨ r.exhausted = true
      · have hcourse : Course single (s, r) (conclude single t (r.counting s t)) :=
          .ended hafter hsettle hlast
        rwa [hcourse.eq hs]
      · obtain ⟨hopen, hmore⟩ := not_or.mp hlast
        have hmore : r.exhausted = false := Bool.eq_false_iff.mpr hmore
        have hopen : t.unfinished.isNone = false := by
          rw [Bool.eq_false_iff]
          exact fun h => hopen (Option.isNone_iff_eq_none.mp h)
        have hstep : Step single (s, r) (t, (r.counting s t).answered) :=
          .ask hs hafter hsettle hopen hmore
        have ht : t.Lacking single := (extends_settle hsettle).lacking hs hopen
        have hfewer : (r.counting s t).answered.requests < r.requests := requests_answered hmore
        rw [proceed_of_step hstep ht]
        exact .step hstep ht (course_proceed t (r.counting s t).answered ht)
  | cons c cs =>
    cases hsettle : s.settle (some c) with
    | error f =>
      have hcourse : Course single (s, r) (.error (r.malformed f), r.counting s {}) :=
        .misplaced (by rw [hafter]; exact hsettle)
      rwa [hcourse.eq hs]
    | ok t =>
      by_cases ht : t.Lacking single
      · cases htake : t.take r.pos c with
        | error f =>
          have hcourse : Course single (s, r) _ := .refused hafter hsettle ht htake
          rwa [hcourse.eq hs]
        | ok u =>
          have hstep : Step single (s, r) (u, (r.advance c cs).counting s u) :=
            .char hs hafter hsettle ht htake
          by_cases hu : u.Lacking single
          · have hshorter : (r.advance c cs).after.length < r.after.length := by
              rw [hafter]
              exact Nat.lt_succ_self _
            rw [proceed_of_step hstep hu]
            exact .step hstep hu (course_proceed u ((r.advance c cs).counting s u) hu)
          · have hcourse := Course.complete hstep hu
            rwa [hcourse.eq hs]
      · have hcourse : Course single (s, r) _ := .next hafter hsettle ht
        rwa [hcourse.eq hs]
termination_by (r.requests, r.after.length)
decreasing_by
  · exact Prod.Lex.left _ _ hfewer
  · exact Prod.Lex.right _ hshorter

/-! ## Behind what has been read -/

/-- The reader counts the characters it has read. -/
def Placed (r : Reader) : Prop :=
  r.pos = r.before.length

theorem Placed.advance (h : r.Placed) (c : Char) (cs : List Char) : (r.advance c cs).Placed :=
  congrArg (· + 1) h

theorem placed_answered : r.answered.Placed ↔ r.Placed := by
  unfold answered
  dsimp only
  split <;> exact Iff.rfl

theorem Placed.step (h : x.2.Placed) (hstep : Step single x y) : y.2.Placed := by
  cases hstep with
  | @char s t u r c cs => exact h.advance c cs
  | ask => exact placed_answered.mpr h

/-- The reader `q` is the reader `r` behind a text. It has been asked the same things only where
that text is empty. -/
structure Behind (text : List Char) (r q : Reader) : Prop where
  alike : q.Alike (r.behind text)
  depth : q.depth = r.depth
  answers : q.answers = r.answers
  exhausted : q.exhausted = r.exhausted
  asked : text = [] → q.asked = r.asked

variable {text : List Char} {earlier : List Form}

theorem Behind.advance (h : Behind text r q) (c : Char) (cs : List Char) :
    Behind text (r.advance c cs) (q.advance c cs) where
  alike := ⟨congrArg (c :: ·) h.alike.before,
    (congrArg (· + 1) h.alike.pos).trans (Nat.add_right_comm _ _ _), rfl⟩
  depth := h.depth
  answers := h.answers
  exhausted := h.exhausted
  asked := h.asked

theorem Behind.counting (h : Behind text r q) {s' t' : State} (hs : s'.nesting = s.nesting)
    (ht : t'.nesting = t.nesting) : Behind text (r.counting s t) (q.counting s' t') where
  alike := ⟨h.alike.before, h.alike.pos, h.alike.after⟩
  depth := by
    unfold Reader.counting
    rw [hs, ht, h.depth]
  answers := h.answers
  exhausted := h.exhausted
  asked := h.asked

theorem Behind.answered (h : Behind text r q) : Behind text r.answered q.answered := by
  have hnext : q.nextAnswer = r.nextAnswer := by
    unfold nextAnswer
    rw [h.answers]
  -- The prompt shows everything, also the text that only `q` has read.
  have hasked : text = [] → q.asking.asked = r.asking.asked := by
    rintro rfl
    have hbuffer : q.buffer = r.buffer := by
      unfold buffer
      rw [h.alike.before, h.alike.after]
      exact congrArg (fun before => List.reverse before ++ r.after) (List.append_nil _)
    unfold asking prompt
    rw [hbuffer, h.asked rfl]
  unfold Reader.answered
  rw [hnext]
  dsimp only
  split
  · exact ⟨⟨h.alike.before, h.alike.pos, congrArg (· ++ [' ']) h.alike.after⟩, h.depth,
      congrArg List.tail h.answers, rfl, hasked⟩
  · exact ⟨⟨h.alike.before, h.alike.pos, congrArg (· ++ _) h.alike.after⟩, h.depth,
      congrArg List.tail h.answers, h.exhausted, hasked⟩

theorem Behind.eq (h : Behind [] r q) : q = r := by
  obtain ⟨before, pos, after, answers, exhausted, asked, depth⟩ := q
  obtain ⟨⟨hbefore, hpos, hafter⟩, hdepth, hanswers, hexhausted, hasked⟩ := h
  cases hpos
  cases hafter
  cases hdepth
  cases hanswers
  cases hexhausted
  cases hasked rfl
  cases hbefore.trans (List.append_nil r.before)
  rfl

theorem Behind.malformed (h : Behind text r q) (hr : r.Placed) (f : Fault) :
    q.malformed (f.shift text.length) = (r.malformed f).within (String.ofList text.reverse) :=
  (h.alike.malformed _).trans (malformed_behind (Nat.le_of_eq hr) f)

/-- Forms may be complete before only where all of them are read. -/
theorem lacking_shift {k : Nat} (hearlier : single = true → earlier = []) :
    (s.shift k earlier).Lacking single ↔ s.Lacking single := by
  cases single with
  | false => exact Iff.rfl
  | true =>
    rw [hearlier rfl]
    unfold State.Lacking State.shift
    rw [List.append_nil]

theorem Step.shift (h : Step single x y) (hq : Behind text x.2 q)
    (hearlier : single = true → earlier = []) :
    ∃ p, Step single (x.1.shift text.length earlier, q) (y.1.shift text.length earlier, p) ∧
      Behind text y.2 p := by
  cases h with
  | @char s t u r c cs hs hafter hsettle ht htake =>
    have ht' : (t.shift text.length earlier).Lacking single := (lacking_shift hearlier).mpr ht
    refine ⟨_, .char ((lacking_shift hearlier).mpr hs) (hq.alike.after.trans hafter) ?_ ht' ?_,
      (hq.advance c cs).counting nesting_shift nesting_shift⟩
    · rw [settle_shift, hsettle]
      rfl
    · rw [hq.alike.pos]
      exact (take_shift r.pos c).trans (by rw [htake]; rfl)
  | @ask s t r hs hafter hsettle hopen hmore =>
    refine ⟨_, .ask ((lacking_shift hearlier).mpr hs) (hq.alike.after.trans hafter) ?_ ?_
      (hq.exhausted.trans hmore), (hq.counting nesting_shift nesting_shift).answered⟩
    · rw [settle_shift, hsettle]
      rfl
    · rw [unfinished_shift, Option.isNone_map, hopen]

theorem conclude_shift (hq : Behind text r q) (hr : r.Placed)
    (hearlier : single = true → earlier = []) :
    ∃ p, conclude single (t.shift text.length earlier) q =
        ((moved text (earlier.reverse ++ ·) (conclude single t r)).1, p) ∧
      Behind text (conclude single t r).2 p := by
  have hend : faultAtEnd single (t.shift text.length earlier) q.pos =
      (faultAtEnd single t r.pos).map (Fault.shift text.length) := by
    unfold faultAtEnd
    rw [unfinished_shift, hq.alike.pos]
    cases t.unfinished with
    | some f => rfl
    | none =>
      cases single with
      | false => rfl
      | true =>
        rw [hearlier rfl]
        simp only [State.shift, List.append_nil, Option.map_none]
        split <;> rfl
  unfold conclude
  rw [hend]
  cases faultAtEnd single t r.pos with
  | some f =>
    exact ⟨_, congrArg (fun e => (Except.error e, _)) (hq.malformed hr f),
      hq.counting nesting_shift rfl⟩
  | none => exact ⟨q, congrArg (fun forms => (Except.ok forms, q)) List.reverse_append, hq⟩

/-- What a call comes to does not depend on where in the text it is. -/
theorem Course.shift (h : Course single x z) (hq : Behind text x.2 q) (hx : x.2.Placed)
    (hearlier : single = true → earlier = []) :
    ∃ p, Course single (x.1.shift text.length earlier, q)
        ((moved text (earlier.reverse ++ ·) z).1, p) ∧
      Behind text z.2 p := by
  have hok : ∀ s : State, (Except.ok (s.shift text.length earlier).forms.reverse :
      Except Error (List Form)) = .ok (earlier.reverse ++ s.forms.reverse) := fun s =>
    congrArg Except.ok List.reverse_append
  have hnesting : ∀ s : State, (s.shift text.length earlier).nesting = s.nesting := fun s =>
    nesting_shift
  -- By induction on the course, with the reader behind the text carried along from step to step.
  induction h generalizing q with
  | step hstep hy h ih =>
    obtain ⟨p, hstep', hp⟩ := hstep.shift hq hearlier
    obtain ⟨p', hcourse, hp'⟩ := ih hp (hx.step hstep)
    exact ⟨p', .step hstep' ((lacking_shift hearlier).mpr hy) hcourse, hp'⟩
  | @complete x y hstep hdone =>
    obtain ⟨p, hstep', hp⟩ := hstep.shift hq hearlier
    refine ⟨p, ?_, hp⟩
    have hcourse := Course.complete hstep' (hdone ∘ (lacking_shift hearlier).mp)
    rwa [hok] at hcourse
  | @next s t r c cs hafter hsettle hdone =>
    refine ⟨_, ?_, hq.counting (hnesting s) (hnesting t)⟩
    have hcourse : Course single (s.shift text.length earlier, q) _ :=
      .next (hq.alike.after.trans hafter) (by rw [settle_shift, hsettle]; rfl)
        (hdone ∘ (lacking_shift hearlier).mp)
    rwa [hok] at hcourse
  | @misplaced s r f hsettle =>
    refine ⟨_, ?_, hq.counting (hnesting s) rfl⟩
    have hsettle' : (s.shift text.length earlier).settle q.after.head? =
        .error (f.shift text.length) := by
      rw [settle_shift, hq.alike.after]
      exact congrArg (shiftOutcome _ _) hsettle
    have hcourse : Course single (s.shift text.length earlier, q) _ := .misplaced hsettle'
    rwa [hq.malformed hx] at hcourse
  | @refused s t r c cs f hafter hsettle ht htake =>
    refine ⟨_, ?_, (hq.advance c cs).counting (hnesting s) rfl⟩
    have htake' : (t.shift text.length earlier).take q.pos c = .error (f.shift text.length) := by
      rw [hq.alike.pos]
      exact (take_shift r.pos c).trans (by rw [htake]; rfl)
    have hcourse : Course single (s.shift text.length earlier, q) _ :=
      .refused (hq.alike.after.trans hafter) (by rw [settle_shift, hsettle]; rfl)
        ((lacking_shift hearlier).mpr ht) htake'
    rwa [(hq.advance c cs).malformed (hx.advance c cs)] at hcourse
  | @ended s t r hafter hsettle hlast =>
    have hlast' : (t.shift text.length earlier).unfinished = none ∨ q.exhausted = true := by
      rwa [unfinished_shift, Option.map_eq_none_iff, hq.exhausted]
    have hcourse : Course single (s.shift text.length earlier, q) _ :=
      .ended (hq.alike.after.trans hafter) (by rw [settle_shift, hsettle]; rfl) hlast'
    obtain ⟨p, hconclude, hp⟩ :=
      conclude_shift (t := t) (hq.counting (hnesting s) (hnesting t)) hx hearlier
    rw [hconclude] at hcourse
    exact ⟨p, hcourse, hp⟩

/-- A reader for which what is left is all there is. -/
def anew (r : Reader) : Reader :=
  { r with before := [], pos := 0 }

theorem lacking_new : State.Lacking single {} :=
  Bool.and_false single

theorem behind_anew (h : r.Placed) : Behind r.before r.anew r where
  alike := ⟨rfl, h.trans (Nat.zero_add _).symm, rfl⟩
  depth := rfl
  answers := rfl
  exhausted := rfl
  asked := fun _ => rfl

/-- What has been read plays no part in a call: it goes as the first call of a new reader would. -/
theorem start_anew (h : r.Placed) (single : Bool) :
    (r.start single).1 = (moved r.before id (r.anew.start single)).1 ∧
      Behind r.before (r.anew.start single).2 (r.start single).2 := by
  have hanew : Course single ({}, r.anew) (r.anew.start single) :=
    course_proceed {} r.anew lacking_new
  obtain ⟨p, hcourse, hp⟩ :=
    hanew.shift (behind_anew h) rfl (fun _ => rfl : single = true → ([] : List Form) = [])
  have hstart : r.start single = _ := hcourse.eq lacking_new
  rw [hstart]
  exact ⟨rfl, hp⟩

/-! ## Blanks before a form -/

def blanks (r : Reader) : List Char :=
  r.after.takeWhile fun c => ofChar c = .blank

def skip (r : Reader) : Reader :=
  { r with
    before := r.blanks.reverse ++ r.before
    pos := r.pos + r.blanks.length
    after := r.after.dropWhile fun c => ofChar c = .blank }

theorem Placed.skip (h : r.Placed) : r.skip.Placed := by
  show r.pos + r.blanks.length = (r.blanks.reverse ++ r.before).length
  rw [List.length_append, List.length_reverse, Nat.add_comm, ← h]

theorem skip_of_nil (hafter : r.after = []) : r.skip = r := by
  unfold Reader.skip blanks
  rw [hafter]
  exact congrArg (fun after => { r with after }) hafter.symm

theorem skip_of_cons {c : Char} {cs : List Char} (hafter : r.after = c :: cs) :
    r.skip = if ofChar c = .blank then (r.advance c cs).skip else r := by
  unfold Reader.skip blanks advance
  rw [hafter, List.takeWhile_cons, List.dropWhile_cons]
  by_cases hc : ofChar c = .blank
  · simp [hc, Nat.add_assoc, Nat.add_comm 1]
  · simp [hc, hafter.symm]

/-- A call may as well begin behind the blanks. -/
theorem start_skip (r : Reader) : r.start single = r.skip.start single := by
  generalize hafter : r.after = cs
  induction cs generalizing r with
  | nil => rw [skip_of_nil hafter]
  | cons c cs ih =>
    rw [skip_of_cons hafter]
    split
    next hc =>
      have hstep : Step single ({}, r) ({}, r.advance c cs) :=
        .char lacking_new hafter (settle_form (by rw [hc]; decide)) lacking_new
          (Grammar.take_blank hc)
      exact (proceed_of_step hstep lacking_new).trans (ih (r.advance c cs) rfl)
    next => rfl

/-! ## All forms, one by one -/

theorem Step.of_single (h : Step true x y) : Step false x y := by
  cases h with
  | char _ hafter hsettle _ htake => exact .char rfl hafter hsettle rfl htake
  | ask _ hafter hsettle hopen hmore => exact .ask rfl hafter hsettle hopen hmore

theorem lacking_true : s.Lacking true ↔ s.forms = [] := by
  unfold State.Lacking
  simp

/-- The first form to be completed is completed alone. -/
theorem State.Follows.completed {new : List Nat} {opening closing : Prop}
    (h : s.Follows new opening closing t) (hs : s.Lacking true) (ht : ¬ t.Lacking true) :
    ∃ f, t = ⟨[f], [], .blank⟩ := by
  rw [lacking_true] at hs ht
  rcases h.forms with hsame | hform
  · exact absurd (hsame.trans hs) ht
  · rwa [hs] at hform

/-- How all forms are read, where a call for a single form comes to `z`: the form and then the
others; or the same error, unless it is that there is no form. -/
inductive ReadsOn : Except Error (List Form) × Reader → Except Error (List Form) × Reader → Prop
  | form (f : Form) (q : Reader) : ReadsOn (.ok [f], q) (proceed false ⟨[f], [], .blank⟩ q)
  | fault (e : Error) (q : Reader) : ReadsOn (.error e, q) (.error e, q)
  | nothing {q : Reader} (hafter : q.after = []) :
      ReadsOn (.error (q.malformed ⟨.unexpectedEnd, q.pos⟩), q) (.ok [], q)

theorem settle_between (forms : List Form) (next : Option Char) :
    (⟨forms, [], .blank⟩ : State).settle next = .ok ⟨forms, [], .blank⟩ := by
  cases next <;> rfl

theorem Course.readsOn (h : Course true x z) (hx : x.1.Lacking true) :
    ReadsOn z (proceed false x.1 x.2) := by
  -- Both calls take the same steps until there is a form; from there only the one for all goes on.
  induction h with
  | step hstep hy h ih =>
    rw [proceed_of_step hstep.of_single rfl]
    exact ih hy
  | @complete x y hstep hdone =>
    rw [proceed_of_step hstep.of_single rfl]
    cases hstep with
    | @char s t u r c cs _ hafter hsettle ht htake =>
      have hyields := yields_take t r.pos c
      rw [htake] at hyields
      obtain ⟨f, rfl⟩ := State.Follows.completed hyields ht hdone
      exact .form f _
    | ask _ _ hsettle hopen => exact absurd ((extends_settle hsettle).lacking hx hopen) hdone
  | @next s t r c cs hafter hsettle hdone =>
    have hyields := yields_settle s (some c)
    rw [hsettle] at hyields
    obtain ⟨f, rfl⟩ := State.Follows.completed hyields hx hdone
    -- The character that ended the form is looked at again, and changes nothing.
    have hleg : leg false s r = leg false ⟨[f], [], .blank⟩ (r.counting s ⟨[f], [], .blank⟩) :=
      leg_settle (by rw [hafter]; exact hsettle) (settle_between [f] _)
    dsimp only
    rw [proceed_leg, hleg, ← proceed_leg]
    exact .form f _
  | misplaced hsettle =>
    have hcourse : Course false _ _ := .misplaced hsettle
    rw [hcourse.eq rfl]
    exact .fault _ _
  | refused hafter hsettle _ htake =>
    have hcourse : Course false _ _ := .refused hafter hsettle rfl htake
    rw [hcourse.eq rfl]
    exact .fault _ _
  | @ended s t r hafter hsettle hlast =>
    have hcourse : Course false (s, r) _ := .ended hafter hsettle hlast
    rw [hcourse.eq rfl]
    have hyields := yields_settle s none
    rw [hsettle] at hyields
    unfold conclude faultAtEnd
    cases hfault : t.unfinished with
    | some f => exact .fault _ _
    | none =>
      by_cases ht : t.Lacking true
      · have hnesting : t.nesting = 0 := nesting_of_unfinished hfault
        have hsame : (r.counting s t).counting t {} = r.counting s t :=
          (counting_counting r s t {}).trans (counting_congr rfl hnesting.symm)
        rw [lacking_true.mp ht, hsame]
        exact .nothing hafter
      · obtain ⟨f, rfl⟩ := State.Follows.completed hyields hx ht
        have hform := ReadsOn.form f (r.counting s ⟨[f], [], .blank⟩)
        have hcourse : Course false (⟨[f], [], .blank⟩, r.counting s ⟨[f], [], .blank⟩) _ :=
          .ended hafter (settle_between [f] none) (.inl rfl)
        rwa [hcourse.eq rfl, counting_counting] at hform

theorem within_empty (e : Error) : e.within (String.ofList [].reverse) = e := by
  unfold Error.within
  simp

/-- With a form complete, all forms are this one and those of the call that is made now. -/
theorem proceed_form (f : Form) (hq : q.Placed) :
    proceed false ⟨[f], [], .blank⟩ q = (q.all.1.map (f :: ·), q.all.2) := by
  have hbehind : Behind [] q q :=
    ⟨⟨(List.append_nil _).symm, rfl, rfl⟩, rfl, rfl, rfl, fun _ => rfl⟩
  have hall : Course false ({}, q) q.all := course_proceed {} q lacking_new
  obtain ⟨p, hcourse, hp⟩ := hall.shift hbehind hq (nofun : false = true → [f] = [])
  have hshift : proceed false ⟨[f], [], .blank⟩ q = _ := hcourse.eq rfl
  rw [hshift, hp.eq]
  show ((moved [] ([f] ++ ·) q.all).1, q.all.2) = _
  generalize q.all = z
  obtain ⟨result, p⟩ := z
  cases result with
  | ok fs => rfl
  | error e => exact congrArg (fun e => (Except.error e, p)) (within_empty e)

theorem Course.placed (h : Course single x z) (hx : x.2.Placed) : z.2.Placed := by
  induction h with
  | step hstep _ _ ih => exact ih (hx.step hstep)
  | complete hstep => exact hx.step hstep
  | next | misplaced => exact hx
  | @refused s t r c cs => exact hx.advance c cs
  | ended =>
    unfold conclude
    split <;> exact hx

theorem Placed.start (h : r.Placed) (single : Bool) : (r.start single).2.Placed :=
  (course_proceed {} r lacking_new).placed h

/-- To read all forms is to read the next one, and then all the others. -/
theorem all_cases (h : r.Placed) :
    (∃ f q, r.next = (.ok f, q) ∧ r.all = (q.all.1.map (f :: ·), q.all.2)) ∨
    (∃ e q, r.next = (.error e, q) ∧ r.all = (.error e, q)) ∨
    ∃ q, q.after = [] ∧ r.next = (.error (q.malformed ⟨.unexpectedEnd, q.pos⟩), q) ∧
      r.all = (.ok [], q) := by
  have hplaced : (r.start true).2.Placed := h.start true
  have hreads : ReadsOn (r.start true) r.all :=
    (course_proceed {} r lacking_new).readsOn lacking_new
  rw [next_eq]
  generalize r.start true = z at hreads hplaced
  generalize r.all = w at hreads
  cases hreads with
  | form f q => exact .inl ⟨f, q, rfl, proceed_form f hplaced⟩
  | fault e q => exact .inr (.inl ⟨e, q, rfl, rfl⟩)
  | @nothing q hafter => exact .inr (.inr ⟨q, hafter, rfl, rfl⟩)

end Lisplet.Reader
