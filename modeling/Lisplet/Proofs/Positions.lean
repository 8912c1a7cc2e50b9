import Lisplet.Proofs.FormByForm

/-!
# Where a reader is

A reader stays inside of what it has been given and never goes back. A call that finds anything but
blanks gets on by a character at least, whatever it comes to, and what can still be given is
bounded, so that to call again and again is to come to the end.

What the machine remembers in a call is in the text of this call. This holds of all positions, so a
fault is about a part of that text, and of all open brackets. The counter of the reader goes up and
down with the brackets, one at a time, and every call leaves it as it was, so how deep the nesting
is does not depend on the calls before.
-/

namespace Lisplet.Reader

open CharClass

variable {single : Bool} {s t u : State} {r q : Reader} {x y : State × Reader}
  {z : Except Error (List Form) × Reader} {start : Nat} {e : Error}

/-! ## At every moment -/

/-- A moment of a call whose text starts at `start`. -/
structure Moment (start : Nat) (x : State × Reader) : Prop where
  placed : x.2.Placed
  started : start ≤ x.2.pos
  starts : ∀ p ∈ x.1.starts, start ≤ p ∧ p ≤ x.2.pos
  room : x.1.nesting ≤ maxNesting
  /-- The open brackets are among those of the text. -/
  opened : x.1.nesting ≤ (x.2.fragment start).countP opensBracket

theorem moment_new (h : r.Placed) : Moment r.pos ({}, r) where
  placed := h
  started := Nat.le_refl _
  starts := nofun
  room := Nat.zero_le _
  opened := Nat.zero_le _

theorem fragment_advance (h : start ≤ r.pos) (c : Char) (cs : List Char) :
    (r.advance c cs).fragment start = r.fragment start ++ [c] := by
  unfold fragment advance
  dsimp only
  rw [Nat.succ_sub h, List.take_succ_cons, List.reverse_cons]

theorem Moment.mem (h : Moment start (s, r)) {p : Nat} (hp : p ∈ [r.pos] ++ s.starts) :
    start ≤ p ∧ p ≤ r.pos := by
  rcases List.mem_cons.mp hp with rfl | hp
  · exact ⟨h.started, Nat.le_refl _⟩
  · exact h.starts p hp

theorem Moment.settle (h : Moment start (s, r)) {next : Option Char}
    (hsettle : s.settle next = .ok t) : Moment start (t, r) := by
  have hyields := yields_settle s next
  rw [hsettle] at hyields
  have hnesting : t.nesting = s.nesting := hyields.nesting_eq
  exact ⟨h.placed, h.started, fun p hp => h.starts p (hyields.starts p hp),
    hnesting ▸ h.room, hnesting ▸ h.opened⟩

theorem Moment.counting (h : Moment start (t, r)) (s : State) : Moment start (t, r.counting s t) :=
  ⟨h.placed, h.started, h.starts, h.room, h.opened⟩

theorem Moment.take (h : Moment start (t, r)) {c : Char} (cs : List Char)
    (htake : t.take r.pos c = .ok u) : Moment start (u, r.advance c cs) := by
  have hyields := yields_take t r.pos c
  rw [htake] at hyields
  have hopened : (r.fragment start).countP opensBracket + (if opensBracket c then 1 else 0) =
      ((r.advance c cs).fragment start).countP opensBracket := by
    rw [fragment_advance h.started, List.countP_append, List.countP_singleton]
  have hroom : t.nesting ≤ maxNesting := h.room
  have hbrackets : t.nesting ≤ (r.fragment start).countP opensBracket := h.opened
  constructor
  case placed => exact h.placed.advance c cs
  case started => exact Nat.le_succ_of_le h.started
  case starts =>
    intro p hp
    obtain ⟨hstart, hpos⟩ := h.mem (hyields.starts p hp)
    exact ⟨hstart, Nat.le_succ_of_le hpos⟩
  case room =>
    rcases hyields.nesting with hsame | ⟨-, hlt, heq⟩ | ⟨-, heq⟩
    · exact hsame ▸ hroom
    · exact heq ▸ hlt
    · exact Nat.le_trans (Nat.le_of_lt (heq ▸ Nat.lt_succ_self _)) hroom
  case opened =>
    have hle : u.nesting ≤ t.nesting →
        u.nesting ≤ ((r.advance c cs).fragment start).countP opensBracket := fun hle =>
      hopened ▸ Nat.le_add_right_of_le (Nat.le_trans hle hbrackets)
    rcases hyields.nesting with hsame | ⟨hc, -, heq⟩ | ⟨-, heq⟩
    · exact hle (Nat.le_of_eq hsame)
    · rw [hc] at hopened
      exact hopened ▸ heq ▸ Nat.succ_le_succ hbrackets
    · exact hle (Nat.le_of_lt (heq ▸ Nat.lt_succ_self _))

theorem pos_answered : r.answered.pos = r.pos := by
  unfold answered
  dsimp only
  split <;> rfl

theorem before_answered : r.answered.before = r.before := by
  unfold answered
  dsimp only
  split <;> rfl

theorem Moment.answered (h : Moment start (t, r)) : Moment start (t, r.answered) where
  placed := placed_answered.mpr h.placed
  started := pos_answered.symm ▸ h.started
  starts := pos_answered.symm ▸ h.starts
  room := h.room
  opened := by
    unfold fragment
    rw [before_answered, pos_answered]
    exact h.opened

theorem Moment.step (h : Moment start x) (hstep : Step single x y) : Moment start y := by
  cases hstep with
  | char _ _ hsettle _ htake => exact ((h.settle hsettle).take _ htake).counting _
  | ask _ _ hsettle => exact ((h.settle hsettle).counting _).answered

theorem Moment.steps (h : Moment start x) (hsteps : Steps single x y) : Moment start y := by
  induction hsteps with
  | refl => exact h
  | tail _ hstep ih => exact ih.step hstep

theorem Step.pos_le (h : Step single x y) : x.2.pos ≤ y.2.pos := by
  cases h with
  | char => exact Nat.le_succ _
  | @ask s t r => exact Nat.le_of_eq (pos_answered (r := r.counting s t)).symm

/-! ## The counter -/

/-- Nothing that happens between `q` and `q'` opens or closes more than one bracket, and none is
opened beyond the limit. -/
def Recounts (q q' : Reader) : Prop :=
  q'.depth = q.depth ∨ ∃ c, q.after.head? = some c ∧
    (opensBracket c = true ∧ q.depth < maxNesting ∧ q'.depth = q.depth + 1 ∨
      closesBracket c = true ∧ q'.depth + 1 = q.depth)

variable {d : Nat}

theorem depth_counting (h : r.depth = d + s.nesting) (t : State) :
    (r.counting s t).depth = d + t.nesting := by
  unfold counting
  dsimp only
  rw [h, Nat.add_sub_cancel]

theorem depth_answered : r.answered.depth = r.depth := by
  unfold answered
  dsimp only
  split <;> rfl

theorem Step.depth (h : Step single x y) (hx : x.2.depth = d + x.1.nesting) :
    y.2.depth = d + y.1.nesting := by
  cases h with
  | char => exact depth_counting hx _
  | ask => exact depth_answered.trans (depth_counting hx _)

theorem depth_of_steps (h : Steps single x y) (hx : x.2.depth = d + x.1.nesting) :
    y.2.depth = d + y.1.nesting := by
  induction h with
  | refl => exact hx
  | tail _ hstep ih => exact hstep.depth ih

theorem nesting_of_settle {next : Option Char} (h : s.settle next = .ok t) :
    t.nesting = s.nesting := by
  have hyields := yields_settle s next
  rw [h] at hyields
  exact hyields.nesting_eq

theorem Step.recounts (h : Step single x y) (hx : x.2.depth = x.1.nesting) :
    Recounts x.2 y.2 := by
  have hy : y.2.depth = y.1.nesting :=
    (h.depth (d := 0) (hx.trans (Nat.zero_add _).symm)).trans (Nat.zero_add _)
  cases h with
  | @char s t u r c cs _ hafter hsettle _ htake =>
    have hsame : t.nesting = r.depth := (nesting_of_settle hsettle).trans hx.symm
    have hyields := yields_take t r.pos c
    rw [htake] at hyields
    have hnesting := hyields.nesting
    rw [hsame, ← hy] at hnesting
    exact hnesting.imp_right fun h => ⟨c, congrArg List.head? hafter, h⟩
  | ask _ _ hsettle => exact .inl (hy.trans ((nesting_of_settle hsettle).trans hx.symm))

/-- A bracket is nested too deep only where the counter is at the limit. -/
theorem Moment.full (h : Moment start (s, r)) (hdepth : r.depth = s.nesting) {c : Char} {f : Fault}
    (hsettle : s.settle (some c) = .ok t) (htake : t.take r.pos c = .error f)
    (hdeep : f.what = .nestingTooDeep) : opensBracket c = true ∧ r.depth = maxNesting := by
  have hsame : t.nesting = r.depth := (nesting_of_settle hsettle).trans hdepth.symm
  have hyields := yields_take t r.pos c
  rw [htake] at hyields
  obtain ⟨hopens, hfull⟩ := hyields.2 hdeep
  exact ⟨hopens, Nat.le_antisymm (hdepth ▸ h.room) (hsame ▸ hfull)⟩

theorem nesting_of_done (h : s.Extends t) (hs : s.Lacking single) (hdone : ¬ t.Lacking single) :
    t.nesting = 0 :=
  nesting_of_unfinished
    (Option.isNone_iff_eq_none.mp (isNone_of_faultAtEnd (h.complete hs hdone 0)))

/-- What a call opens is closed by it, or given up. -/
theorem Course.depth (h : Course single x z) (hs : x.1.Lacking single)
    (hx : x.2.depth = d + x.1.nesting) : z.2.depth = d := by
  induction h with
  | step hstep hy _ ih => exact ih hy (hstep.depth hx)
  | @complete x y hstep hdone =>
    have hnesting : y.1.nesting = 0 := by
      cases hstep with
      | char _ _ _ ht htake => exact nesting_of_done (extends_take htake) ht hdone
      | ask _ _ hsettle hopen => exact absurd ((extends_settle hsettle).lacking hs hopen) hdone
    exact (hstep.depth hx).trans (congrArg (d + ·) hnesting)
  | @next s t r c cs _ hsettle hdone =>
    have hnesting : t.nesting = 0 := nesting_of_done (extends_settle hsettle) hs hdone
    exact (depth_counting hx t).trans (congrArg (d + ·) hnesting)
  | misplaced | refused => exact depth_counting hx {}
  | @ended s t r _ hsettle hlast =>
    have ht : (r.counting s t).depth = d + t.nesting := depth_counting hx t
    unfold conclude
    cases hfault : faultAtEnd single t (r.counting s t).pos with
    | some f => exact depth_counting ht {}
    | none =>
      have hnone : t.unfinished = none := Option.isNone_iff_eq_none.mp (isNone_of_faultAtEnd hfault)
      exact ht.trans (congrArg (d + ·) (nesting_of_unfinished hnone))

theorem depth_start (r : Reader) (single : Bool) : (r.start single).2.depth = r.depth :=
  (course_proceed {} r lacking_new).depth lacking_new rfl

/-! ## Errors -/

/-- The error is a complaint about the text from a position that is not before `start` to where the
reader is, in the context of everything that the reader has been given. -/
def Reports (start : Nat) (q : Reader) (e : Error) : Prop :=
  ∃ (what : Complaint) (p : Nat), start ≤ p ∧ p ≤ q.pos ∧
    e.message = what.text ++ " ### " ++ String.ofList ((q.buffer.take q.pos).drop p) ∧
    e.context = " ### " ++ String.ofList q.buffer

theorem fragment_eq (h : q.Placed) (p : Nat) :
    q.fragment p = (q.buffer.take q.pos).drop p := by
  have hbefore : q.buffer.take q.pos = q.before.reverse := by
    unfold buffer
    rw [h, ← List.length_reverse, List.take_left]
  rw [hbefore, List.drop_reverse, ← h]
  rfl

theorem reports_malformed (h : q.Placed) {f : Fault} (hf : start ≤ f.start ∧ f.start ≤ q.pos) :
    Reports start q (q.malformed f) := by
  refine ⟨f.what, f.start, hf.1, hf.2, ?_, context_malformed q f⟩
  rw [← fragment_eq h]
  rfl

theorem Moment.settle_error (h : Moment start (s, r)) {next : Option Char} {f : Fault}
    (hsettle : s.settle next = .error f) : start ≤ f.start ∧ f.start ≤ r.pos := by
  have hyields := yields_settle s next
  rw [hsettle] at hyields
  exact h.starts _ hyields.1

theorem Moment.take_error (h : Moment start (t, r)) {c : Char} {f : Fault}
    (htake : t.take r.pos c = .error f) : start ≤ f.start ∧ f.start ≤ r.pos := by
  have hyields := yields_take t r.pos c
  rw [htake] at hyields
  exact h.mem hyields.1

theorem Moment.faultAtEnd (h : Moment start (t, r)) {f : Fault}
    (hfault : faultAtEnd single t r.pos = some f) : start ≤ f.start ∧ f.start ≤ r.pos := by
  unfold Reader.faultAtEnd at hfault
  cases hopen : t.unfinished with
  | some g =>
    rw [hopen] at hfault
    cases hfault
    exact h.starts _ (mem_starts_of_unfinished hopen)
  | none =>
    rw [hopen] at hfault
    dsimp only at hfault
    split at hfault
    · cases hfault
      exact ⟨h.started, Nat.le_refl _⟩
    · cases hfault

theorem Moment.ends {result : Except Error (List Form)} (h : Moment start x)
    (hends : Ends single x (result, q)) :
    x.2.pos ≤ q.pos ∧ q.Placed ∧ ∀ e, result = .error e → Reports start q e := by
  cases hends with
  | complete | next | finished => exact ⟨Nat.le_refl _, h.placed, nofun⟩
  | misplaced hsettle =>
    refine ⟨Nat.le_refl _, h.placed, ?_⟩
    rintro e ⟨⟩
    exact reports_malformed h.placed (h.settle_error hsettle)
  | @refused s t r c cs f hafter hsettle htake =>
    obtain ⟨hstart, hpos⟩ := (h.settle hsettle).take_error htake
    refine ⟨Nat.le_succ _, h.placed.advance c cs, ?_⟩
    rintro e ⟨⟩
    exact reports_malformed (h.placed.advance c cs) ⟨hstart, Nat.le_succ_of_le hpos⟩
  | missing _ hsettle hfault =>
    refine ⟨Nat.le_refl _, h.placed, ?_⟩
    rintro e ⟨⟩
    exact reports_malformed h.placed ((h.settle hsettle).faultAtEnd hfault)

theorem reports_of_start (h : r.Placed) (he : (r.start single).1 = .error e) :
    Reports r.pos (r.start single).2 e := by
  obtain ⟨x, hsteps, hends⟩ := steps_start single r
  exact (((moment_new h).steps hsteps).ends hends).2.2 e he

theorem next_skip (r : Reader) : r.next = r.skip.next := by
  rw [next_eq, next_eq, start_skip]

theorem eq_error_of_map {α β : Type} {f : α → β} {result : Except Error α}
    (h : result.map f = .error e) : result = .error e := by
  cases result with
  | ok a => cases h
  | error e =>
    cases h
    rfl

/-- An error is about the form of this call, which starts behind the blanks. -/
theorem reports_of_next (h : r.Placed) (he : r.next.1 = .error e) :
    Reports r.skip.pos r.next.2 e := by
  rw [next_skip, next_eq] at he ⊢
  exact reports_of_start h.skip (eq_error_of_map he)

/-! ## Progress -/

theorem Course.pos_le (h : Course single x z) : x.2.pos ≤ z.2.pos := by
  induction h with
  | step hstep _ _ ih => exact Nat.le_trans hstep.pos_le ih
  | complete hstep => exact hstep.pos_le
  | next | misplaced => exact Nat.le_refl _
  | refused => exact Nat.le_succ _
  | ended =>
    unfold conclude
    split <;> exact Nat.le_refl _

theorem Step.pos_lt (h : Step single x y) (hafter : x.2.after ≠ []) : x.2.pos < y.2.pos := by
  cases h with
  | char => exact Nat.lt_succ_self _
  | ask _ hnil => exact absurd hnil hafter

/-- Where anything is left, a call reads it in part at least. -/
theorem pos_lt_start (hafter : r.after ≠ []) (single : Bool) : r.pos < (r.start single).2.pos := by
  have hcourse : Course single ({}, r) (r.start single) := course_proceed {} r lacking_new
  generalize r.start single = z at hcourse
  cases hcourse with
  | step hstep _ h => exact Nat.lt_of_lt_of_le (hstep.pos_lt hafter) h.pos_le
  | complete hstep => exact hstep.pos_lt hafter
  | next _ hsettle hdone =>
    -- The machine that has begun nothing has nothing to complete.
    cases (settle_between [] _).symm.trans hsettle
    exact absurd lacking_new hdone
  | misplaced hsettle => cases (settle_between [] _).symm.trans hsettle
  | refused => exact Nat.lt_succ_self _
  | ended hnil => exact absurd hnil hafter

theorem pos_lt_next (h : r.skip.after ≠ []) : r.skip.pos < r.next.2.pos := by
  rw [next_skip, next_eq]
  exact pos_lt_start h true

/-- At the end there is no form, and nothing changes. -/
theorem next_of_end (h : r.skip.after = []) :
    r.next = (.error (r.skip.malformed ⟨.unexpectedEnd, r.skip.pos⟩), r.skip) := by
  have hcourse : Course true ({}, r.skip) (conclude true {} r.skip) :=
    .ended h (settle_between [] none) (.inl rfl)
  have hstart : r.skip.start true = conclude true {} r.skip := hcourse.eq lacking_new
  rw [next_skip, next_eq, hstart]
  rfl

/-! ## Call after call -/

/-- How much a reader can have been given in the end: what it has, and the answers to come. -/
def capacity (r : Reader) : Nat :=
  r.buffer.length +
    if r.exhausted then 0
    else (r.answers.map fun answer => (answer.getD "").toList.length + 1).sum + 1

theorem pos_le_buffer (h : r.Placed) : r.pos ≤ r.buffer.length := by
  unfold buffer
  rw [h, List.length_append, List.length_reverse]
  exact Nat.le_add_right _ _

theorem pos_le_capacity (h : r.Placed) : r.pos ≤ r.capacity :=
  Nat.le_trans (pos_le_buffer h) (Nat.le_add_right _ _)

/-- What is given was there to be given. -/
theorem capacity_answered (hmore : r.exhausted = false) : r.answered.capacity ≤ r.capacity := by
  unfold capacity
  rw [buffer_answered, answers_answered, hmore, List.length_append]
  cases hempty : r.nextAnswer.isEmpty with
  | true =>
    -- The blank is the one character beyond the answers that the bound allows for.
    rw [exhausted_of_empty hempty]
    simp only [if_true, List.length_singleton, Bool.false_eq_true, if_false]
    omega
  | false =>
    rw [exhausted_answered hempty, hmore]
    unfold nextAnswer at hempty ⊢
    cases hanswers : r.answers with
    | nil =>
      rw [hanswers] at hempty
      cases hempty
    | cons answer rest =>
      simp only [Bool.false_eq_true, if_false, List.head?_cons, Option.join_some, List.tail_cons,
        List.length_cons, List.map_cons, List.sum_cons]
      omega

/-- To read a character is not to be given any. -/
theorem capacity_advance {c : Char} {cs : List Char} (hafter : r.after = c :: cs) (s t : State) :
    ((r.advance c cs).counting s t).capacity = r.capacity :=
  congrArg (fun buffer => List.length buffer + _) (buffer_advance hafter)

theorem Step.capacity_le (h : Step single x y) : y.2.capacity ≤ x.2.capacity := by
  cases h with
  | char _ hafter => exact Nat.le_of_eq (capacity_advance hafter _ _)
  | @ask s t r _ _ _ _ hmore => exact capacity_answered (r := r.counting s t) hmore

theorem Course.capacity_le (h : Course single x z) : z.2.capacity ≤ x.2.capacity := by
  induction h with
  | step hstep _ _ ih => exact Nat.le_trans ih hstep.capacity_le
  | complete hstep => exact hstep.capacity_le
  | next | misplaced => exact Nat.le_refl _
  | refused hafter => exact Nat.le_of_eq (capacity_advance hafter _ _)
  | ended =>
    unfold conclude
    split <;> exact Nat.le_refl _

theorem Placed.next (h : r.Placed) : r.next.2.Placed := by
  rw [next_eq]
  exact h.start true

/-- A call that finds more than blanks leaves less to come. -/
theorem next_lt (h : r.Placed) (hmore : r.skip.after ≠ []) :
    r.next.2.capacity - r.next.2.pos < r.capacity - r.pos := by
  have hcapacity : r.next.2.capacity ≤ r.capacity := by
    rw [next_eq]
    have hcourse : Course true ({}, r) (r.start true) := course_proceed {} r lacking_new
    exact hcourse.capacity_le
  have hpos : r.pos ≤ r.skip.pos := Nat.le_add_right _ _
  have hlt : r.skip.pos < r.next.2.pos := pos_lt_next hmore
  have hle : r.next.2.pos ≤ r.next.2.capacity := pos_le_capacity h.next
  omega

def repeated : Nat → Reader → Reader
  | 0, r => r
  | n + 1, r => repeated n r.next.2

theorem placed_repeated (h : r.Placed) (n : Nat) : (repeated n r).Placed := by
  induction n generalizing r with
  | zero => exact h
  | succ n ih => exact ih h.next

theorem repeated_of_end (hafter : r.after = []) (n : Nat) : repeated n r = r := by
  have hskip : r.skip = r := skip_of_nil hafter
  have hnext : r.next.2 = r := by
    rw [next_of_end (by rw [hskip, hafter]), hskip]
  induction n with
  | zero => rfl
  | succ n ih => rw [repeated, hnext, ih]

/-- To call again and again is to come to the end. -/
theorem repeated_reaches_end (r : Reader) (h : r.Placed) :
    ∃ n, ∀ m, n ≤ m → (repeated m r).after = [] := by
  -- By induction on what may still come, which is less after every call that finds a form.
  by_cases hend : r.skip.after = []
  · refine ⟨1, fun m hm => ?_⟩
    obtain ⟨m, rfl⟩ := Nat.exists_eq_add_of_le' hm
    rw [repeated, next_of_end hend, repeated_of_end hend]
    exact hend
  · have hlt : r.next.2.capacity - r.next.2.pos < r.capacity - r.pos := next_lt h hend
    obtain ⟨n, hn⟩ := repeated_reaches_end r.next.2 h.next
    refine ⟨n + 1, fun m hm => ?_⟩
    obtain ⟨m, rfl⟩ := Nat.exists_eq_add_of_le' (Nat.le_trans (Nat.le_add_left 1 n) hm)
    exact hn m (Nat.le_of_succ_le_succ hm)
termination_by r.capacity - r.pos

/-- An error in reading all forms is the error of the call for one of them, after calls for the
forms before it. -/
theorem exists_next_of_all (r : Reader) (h : r.Placed) (he : r.all = (.error e, q)) :
    ∃ n, (∀ m < n, ∃ f, (repeated m r).next.1 = .ok f) ∧ (repeated n r).next = (.error e, q) := by
  rcases all_cases h with ⟨f, p, hnext, hall⟩ | ⟨e', p, hnext, hall⟩ | ⟨p, -, -, hall⟩
  · -- A form has been read, so the call has got on and the rest is shorter.
    have hmore : r.skip.after ≠ [] := by
      intro hend
      rw [next_of_end hend] at hnext
      cases hnext
    have hp : r.next.2 = p := congrArg Prod.snd hnext
    have hrest : r.next.2.all = (.error e, q) := by
      obtain ⟨herror, hq⟩ := Prod.mk.inj (hall.symm.trans he)
      rw [hp]
      exact Prod.ext (eq_error_of_map herror) hq
    have hlt : r.next.2.capacity - r.next.2.pos < r.capacity - r.pos := next_lt h hmore
    obtain ⟨n, hforms, herror⟩ := exists_next_of_all r.next.2 h.next hrest
    refine ⟨n + 1, fun m hm => ?_, herror⟩
    cases m with
    | zero => exact ⟨f, congrArg Prod.fst hnext⟩
    | succ m => exact hforms m (Nat.lt_of_succ_lt_succ hm)
  · cases hall.symm.trans he
    exact ⟨0, nofun, hnext⟩
  · cases hall.symm.trans he
termination_by r.capacity - r.pos

inductive Call where
  | next
  | all

def Call.isSingle : Call → Bool
  | .next => true
  | .all => false

def called (r : Reader) : Call → Reader
  | .next => r.next.2
  | .all => r.all.2

def reached (source : String) (answers : List (Option String)) (calls : List Call) : Reader :=
  calls.foldl called (ofSource source answers)

theorem called_eq (r : Reader) (call : Call) : r.called call = (r.start call.isSingle).2 := by
  cases call with
  | next => exact congrArg Prod.snd next_eq
  | all => rfl

theorem placed_calls (calls : List Call) (h : r.Placed) : (calls.foldl called r).Placed := by
  induction calls generalizing r with
  | nil => exact h
  | cons call calls ih =>
    have hcall : (r.called call).Placed := called_eq r call ▸ h.start call.isSingle
    exact ih hcall

theorem depth_calls (calls : List Call) (r : Reader) : (calls.foldl called r).depth = r.depth := by
  induction calls generalizing r with
  | nil => rfl
  | cons call calls ih =>
    have hcall : (r.called call).depth = r.depth := by
      rw [called_eq]
      exact depth_start r call.isSingle
    exact (ih (r.called call)).trans hcall

/-- Whatever the calls on a reader come to, it stays inside of what it has been given and never goes
back, and no call is influenced by what was read, or was open, before. The counter of the brackets
is zero between calls. In a call it is how many brackets are open, and goes up and down with them one
at a time; a bracket is refused as nested too deep only where it is at the limit. A call that finds
more than blanks gets on, so that calls for one form after another come to the end. An error is about
the form that was being read, up to where the reader is, in the context of all it has been given. -/
theorem reading_keeps_place (source : String) (answers : List (Option String))
    (calls : List Call) :
    let r := reached source answers calls
    r.depth = 0 ∧
    (∀ call : Call, ∃ s q result, Steps call.isSingle ({}, r) (s, q) ∧
      Ends call.isSingle (s, q) (result, r.called call)) ∧
    (∀ single s q, Steps single ({}, r) (s, q) →
      Moment r.pos (s, q) ∧ q.pos ≤ q.buffer.length ∧ q.depth = s.nesting ∧
      (∀ s' q', Step single (s, q) (s', q') → q.pos ≤ q'.pos ∧ q.Recounts q') ∧
      (∀ result q', Ends single (s, q) (result, q') →
        q.pos ≤ q'.pos ∧ q'.pos ≤ q'.buffer.length) ∧
      ∀ c t f, s.settle (some c) = .ok t → t.take q.pos c = .error f → f.what = .nestingTooDeep →
        opensBracket c = true ∧ q.depth = maxNesting) ∧
    (∀ single, (r.start single).1 = (moved r.before id (r.anew.start single)).1 ∧
      Behind r.before (r.anew.start single).2 (r.start single).2) ∧
    (r.skip.after ≠ [] → r.skip.pos < r.next.2.pos) ∧
    (∃ n, ∀ m, n ≤ m → (repeated m r).after = []) ∧
    (∀ e, r.next.1 = .error e → Reports r.skip.pos r.next.2 e) ∧
    ∀ e, r.all.1 = .error e → ∃ n, (∀ m < n, ∃ f, (repeated m r).next.1 = .ok f) ∧
      (repeated n r).next = (.error e, r.all.2) ∧ Reports (repeated n r).skip.pos r.all.2 e := by
  intro r
  have h : r.Placed := placed_calls calls rfl
  have hzero : r.depth = 0 := depth_calls calls (ofSource source answers)
  refine ⟨hzero, fun call => ?_, fun single s q hsteps => ?_, fun single => start_anew h single,
    pos_lt_next, repeated_reaches_end r h, fun e he => reports_of_next h he, fun e he => ?_⟩
  · obtain ⟨⟨s, q⟩, hsteps, hends⟩ := steps_start call.isSingle r
    rw [called_eq]
    exact ⟨s, q, _, hsteps, hends⟩
  · have hmoment : Moment r.pos (s, q) := (moment_new h).steps hsteps
    have hdepth : q.depth = s.nesting :=
      (depth_of_steps (d := 0) hsteps hzero).trans (Nat.zero_add _)
    refine ⟨hmoment, pos_le_buffer hmoment.placed, hdepth,
      fun s' q' hstep => ⟨hstep.pos_le, hstep.recounts hdepth⟩, fun result q' hends => ?_,
      fun c t f => hmoment.full hdepth⟩
    obtain ⟨hpos, hplaced, -⟩ := hmoment.ends hends
    exact ⟨hpos, pos_le_buffer hplaced⟩
  · obtain ⟨n, hforms, herror⟩ := exists_next_of_all r h (q := r.all.2) (Prod.ext he rfl)
    have hreports : Reports (repeated n r).skip.pos (repeated n r).next.2 e :=
      reports_of_next (placed_repeated h n) (congrArg Prod.fst herror)
    rw [herror] at hreports
    exact ⟨n, hforms, herror, hreports⟩

-- A fault inside of two brackets, and a call after it that asks for more in vain.
theorem reading_keeps_place_nested :
    (∃ e, (ofSource "((a 1x (b" [some "c", none]).next.1 = .error e ∧
      e.message = "invalid number format ### 1x" ∧ e.context = " ### ((a 1x (b") ∧
    (reached "((a 1x (b" [some "c", none] [.next]).depth = 0 ∧
    (reached "((a 1x (b" [some "c", none] [.next]).skip.pos = 7 ∧
    7 < (reached "((a 1x (b" [some "c", none] [.next]).next.2.pos ∧
    ∃ e, (reached "((a 1x (b" [some "c", none] [.next]).next.1 = .error e ∧
      e.message = "mismatched open parenthesis ### (b\nc " ∧ e.context = " ### ((a 1x (b\nc " ∧
      Reports 7 (reached "((a 1x (b" [some "c", none] [.next]).next.2 e := by
  have hfirst : (ofSource "((a 1x (b" [some "c", none]).next =
      (.error (.malformed "invalid number format" "1x" "((a 1x (b"),
        ⟨['x', '1', ' ', 'a', '(', '('], 6, [' ', '(', 'b'], [some "c", none], false, [], 0⟩) := by
    cbv
  have hreached : reached "((a 1x (b" [some "c", none] [.next] =
      ⟨['x', '1', ' ', 'a', '(', '('], 6, [' ', '(', 'b'], [some "c", none], false, [], 0⟩ :=
    congrArg Prod.snd hfirst
  obtain ⟨hzero, -, -, -, hprogress, -, herrors, -⟩ :=
    reading_keeps_place "((a 1x (b" [some "c", none] [.next]
  rw [hreached] at hzero hprogress herrors ⊢
  have hnext : (next ⟨['x', '1', ' ', 'a', '(', '('], 6, [' ', '(', 'b'], [some "c", none], false,
      [], 0⟩).1 = .error (.malformed "mismatched open parenthesis" "(b\nc " "((a 1x (b\nc ") := by cbv
  exact ⟨⟨_, congrArg Prod.fst hfirst, by decide, by decide⟩, hzero, rfl,
    hprogress (List.cons_ne_nil _ _), _, hnext, by decide, by decide, herrors _ hnext⟩

end Lisplet.Reader
