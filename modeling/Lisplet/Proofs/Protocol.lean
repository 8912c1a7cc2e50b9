import Lisplet.Proofs.Moments

/-!
# The protocol of requests

What a reader has been given is determined by its source, the script of answers and the number of
its requests so far. This holds at every moment of every call, whatever the calls before it came
to, since a character that is read changes none of it and a request changes it in one way only. An
empty answer is the last: the form that was open stays open, so the call fails behind everything
there is to read, and so does every call after it.
-/

namespace Lisplet.Reader

/-! ## What a reader has been given -/

/-- The text that answers a request; empty where the script has none. -/
def answerText (answers : List (Option String)) (i : Nat) : String :=
  answers[i]?.join.getD ""

/-- The texts among the first `k` answers that are not empty. -/
def texts (answers : List (Option String)) (k : Nat) : List String :=
  ((answers.take k).map (·.getD "")).filter (!·.isEmpty)

/-- The source with the texts among the first `k` answers below it, each on a new line. -/
def given (source : String) (answers : List (Option String)) (k : Nat) : List Char :=
  source.toList ++ lines (texts answers k)

/-- What a reader of `source` has been through, by the number of its requests. -/
structure Protocol (source : String) (answers : List (Option String)) (q : Reader) : Prop where
  buffer : q.buffer =
    given source answers q.asked.length ++ if q.exhausted then [' '] else []
  prompts : q.prompts = (List.range q.asked.length).map fun i =>
    String.ofList (Text.oneLine (given source answers i)) ++ " ... "
  /-- Only the last answer may have been empty. -/
  nonempty : ∀ i, i + 1 < q.asked.length → answerText answers i ≠ ""
  exhausted : q.exhausted = true ↔ ∃ i < q.asked.length, answerText answers i = ""
  left : q.answers = answers.drop q.asked.length

variable {single : Bool} {source : String} {answers : List (Option String)} {r q : Reader}
  {x y : State × Reader}

theorem texts_succ (k : Nat) :
    texts answers (k + 1) =
      texts answers k ++ if (answerText answers k).isEmpty then [] else [answerText answers k] := by
  unfold texts answerText
  rw [List.take_add_one, List.map_append, List.filter_append]
  congr 1
  cases answers[k]? with
  | none => rfl
  | some answer =>
    cases hempty : (answer.getD "").isEmpty <;> simp [hempty]

theorem given_succ (k : Nat) :
    given source answers (k + 1) = given source answers k ++
      if (answerText answers k).isEmpty then [] else '\n' :: (answerText answers k).toList := by
  unfold given lines
  rw [texts_succ, List.flatMap_append, List.append_assoc]
  split <;> simp

theorem nextAnswer_eq (h : r.answers = answers.drop r.asked.length) :
    r.nextAnswer = answerText answers r.asked.length := by
  unfold nextAnswer answerText
  rw [h, List.head?_drop]

/-! ## At every moment -/

theorem protocol_ofSource : Protocol source answers (ofSource source answers) where
  buffer := by simp [Reader.buffer, ofSource, given, texts, lines]
  prompts := rfl
  nonempty := fun i hi => absurd hi (Nat.not_lt_zero _)
  exhausted := by simp [ofSource]
  left := rfl

theorem buffer_advance {c : Char} {cs : List Char} (hafter : r.after = c :: cs) :
    (r.advance c cs).buffer = r.buffer := by
  unfold Reader.buffer advance
  rw [hafter, List.reverse_cons, List.append_assoc]
  rfl

theorem Protocol.advance {c : Char} {cs : List Char} (h : Protocol source answers r)
    (hafter : r.after = c :: cs) : Protocol source answers (r.advance c cs) :=
  { h with buffer := (buffer_advance hafter).trans h.buffer }

theorem Protocol.counting (h : Protocol source answers r) (s t : State) :
    Protocol source answers (r.counting s t) :=
  ⟨h.buffer, h.prompts, h.nonempty, h.exhausted, h.left⟩

theorem buffer_answered :
    r.answered.buffer =
      r.buffer ++ if r.nextAnswer.isEmpty then [' '] else '\n' :: r.nextAnswer.toList := by
  unfold answered
  split <;> exact (List.append_assoc ..).symm

/-- A request, and what its answer adds. -/
theorem Protocol.answered (h : Protocol source answers r) (hmore : r.exhausted = false) :
    Protocol source answers r.answered := by
  have hlength : r.answered.asked.length = r.asked.length + 1 := by
    rw [asked_answered, List.length_cons]
  have htext : r.nextAnswer = answerText answers r.asked.length := nextAnswer_eq h.left
  have hbuffer : r.buffer = given source answers r.asked.length := by
    rw [h.buffer, hmore]
    exact List.append_nil _
  -- The reader has not stopped asking, so no answer was empty so far.
  have hnone : ∀ i < r.asked.length, answerText answers i ≠ "" := by
    intro i hi hempty
    have hspent : r.exhausted = true := h.exhausted.mpr ⟨i, hi, hempty⟩
    rw [hmore] at hspent
    cases hspent
  have hexhausted : r.answered.exhausted = (answerText answers r.asked.length).isEmpty := by
    rw [← htext]
    cases hempty : r.nextAnswer.isEmpty with
    | true => exact exhausted_of_empty hempty
    | false => exact (exhausted_answered hempty).trans hmore
  constructor
  case buffer =>
    rw [buffer_answered, hbuffer, hlength, given_succ, hexhausted, htext, List.append_assoc]
    cases (answerText answers r.asked.length).isEmpty <;> simp
  case prompts =>
    have hprompts : r.answered.prompts = r.prompts ++ [r.prompt] := by
      unfold Reader.prompts
      rw [asked_answered, List.reverse_cons]
    rw [hprompts, hlength, List.range_succ, List.map_append, h.prompts, prompt, hbuffer]
    rfl
  case nonempty =>
    intro i hi
    rw [hlength] at hi
    exact hnone i (by omega)
  case exhausted =>
    rw [hexhausted, hlength, String.isEmpty_iff]
    constructor
    · exact fun hempty => ⟨_, Nat.lt_succ_self _, hempty⟩
    · rintro ⟨i, hi, hempty⟩
      rcases Nat.lt_succ_iff_lt_or_eq.mp hi with hlt | rfl
      · exact absurd hempty (hnone i hlt)
      · exact hempty
  case left =>
    rw [answers_answered, h.left, List.tail_drop, hlength]

theorem Protocol.step (h : Protocol source answers x.2) (hstep : Step single x y) :
    Protocol source answers y.2 := by
  cases hstep with
  | char _ hafter => exact (h.advance hafter).counting _ _
  | ask _ _ _ _ hmore => exact (h.counting _ _).answered hmore

theorem Protocol.steps (h : Protocol source answers x.2) (hsteps : Steps single x y) :
    Protocol source answers y.2 := by
  induction hsteps with
  | refl => exact h
  | tail _ hstep ih => exact ih.step hstep

theorem Protocol.ends {result : Except Error (List Form)} (h : Protocol source answers x.2)
    (hends : Ends single x (result, q)) : Protocol source answers q := by
  cases hends with
  | complete => exact h
  | refused hafter => exact (h.advance hafter).counting _ _
  | _ => exact h.counting _ _

theorem Protocol.start (h : Protocol source answers r) :
    Protocol source answers (r.start single).2 := by
  obtain ⟨x, hsteps, hends⟩ := steps_start single r
  exact (h.steps (x := ({}, r)) hsteps).ends hends

/-! ## After an empty answer -/

/-- An empty answer has been given in this call: the machine rests in an open form, with nothing to
read but the blank that came of the answer. -/
structure Spent (single : Bool) (x : State × Reader) : Prop where
  rests : x.1.mode.rests = true
  opened : x.1.unfinished.isNone = false
  lacking : x.1.Lacking single
  after : x.2.after = [' '] ∨ x.2.after = []

theorem Spent.settle (h : Spent single x) : x.1.settle x.2.after.head? = .ok x.1 := by
  rcases h.after with hafter | hafter
  · rw [hafter]
    exact (settle_blank x.1 ofChar_space).trans (settle_of_rests h.rests)
  · rw [hafter]
    exact settle_of_rests h.rests

theorem Spent.cons (h : Spent single x) {c : Char} {cs : List Char} (hafter : x.2.after = c :: cs) :
    c = ' ' ∧ cs = [] := by
  rcases h.after with hspace | hnil
  · rw [hspace] at hafter
    cases hafter
    exact ⟨rfl, rfl⟩
  · rw [hnil] at hafter
    cases hafter

/-- A blank closes nothing, and after it there is nothing more. -/
theorem Spent.step (h : x.2.exhausted = true → Spent single x) (hstep : Step single x y)
    (hy : y.2.exhausted = true) : Spent single y := by
  cases hstep with
  | @char s t u r c cs hs hafter hsettle ht htake =>
    have hx : Spent single (s, r) := h hy
    -- The only character there can be is the blank.
    obtain ⟨rfl, rfl⟩ := hx.cons hafter
    have hsame : s.settle (some ' ') = .ok s := by
      have := hx.settle
      rwa [hafter] at this
    cases hsame.symm.trans hsettle
    rcases take_space r.pos hx.rests with ⟨v, hv, hrests, hopen⟩ | ⟨f, hf, -⟩
    · cases hv.symm.trans htake
      have hopened : u.unfinished.isNone = false := by
        rw [hopen]
        exact hx.opened
      exact ⟨hrests, hopened, (extends_take htake).lacking hs hopened, .inr rfl⟩
    · cases hf.symm.trans htake
  | @ask s t r hs hafter hsettle hopen hmore =>
    cases hempty : (r.counting s t).nextAnswer.isEmpty with
    | false =>
      rw [exhausted_answered hempty] at hy
      cases hmore.symm.trans hy
    | true =>
      refine ⟨rests_of_settle hsettle, hopen, (extends_settle hsettle).lacking hs hopen, .inl ?_⟩
      unfold Reader.answered
      rw [hempty]
      show r.after ++ [' '] = [' ']
      rw [hafter]
      rfl

theorem Spent.steps (h : x.2.exhausted = true → Spent single x) (hsteps : Steps single x y) :
    y.2.exhausted = true → Spent single y := by
  induction hsteps with
  | refl => exact h
  | tail _ hstep ih => exact Spent.step ih hstep

/-- A form that is open when nothing more comes is a fault, found at the end of the text. -/
theorem Spent.ends (h : Spent single x) {result : Except Error (List Form)}
    (hends : Ends single x (result, q)) : (∃ e, result = .error e) ∧ q.after = [] := by
  have hsettle := h.settle
  cases hends with
  | complete hdone => exact absurd h.lacking hdone
  | next hafter hnext hdone =>
    rw [hafter] at hsettle
    cases hsettle.symm.trans hnext
    exact absurd h.lacking hdone
  | finished hafter hnext hnone =>
    rw [hafter] at hsettle
    cases hsettle.symm.trans hnext
    have hopened := h.opened
    rw [isNone_of_faultAtEnd hnone] at hopened
    cases hopened
  | misplaced hfault => cases hsettle.symm.trans hfault
  | refused hafter => exact ⟨⟨_, rfl⟩, (h.cons hafter).2⟩
  | missing hafter => exact ⟨⟨_, rfl⟩, hafter⟩

theorem exhausted_ends {result : Except Error (List Form)} (h : Ends single x (result, q)) :
    q.exhausted = x.2.exhausted := by
  cases h <;> rfl

/-- The call in which an empty answer is given fails, and leaves nothing to read. -/
theorem start_of_empty (hmore : r.exhausted = false) (h : (r.start single).2.exhausted = true) :
    (∃ e, (r.start single).1 = .error e) ∧ (r.start single).2.after = [] := by
  obtain ⟨x, hsteps, hends⟩ := steps_start single r
  have hx : x.2.exhausted = true := (exhausted_ends hends).symm.trans h
  -- Nothing is exhausted before the call, so there is nothing to show of its first moment.
  have hspent : Spent single x := by
    refine Spent.steps (x := ({}, r)) (fun hr => ?_) hsteps hx
    rw [hmore] at hr
    cases hr
  exact hspent.ends hends

/-! ## Call after call -/

def afterCalls (source : String) (answers : List (Option String)) : Nat → Reader
  | 0 => ofSource source answers
  | n + 1 => (afterCalls source answers n).next.2

theorem next_eq : r.next = ((r.start true).1.map (·.headD .nil), (r.start true).2) := by
  unfold next
  generalize r.start true = y
  obtain ⟨y, q⟩ := y
  cases y <;> rfl

theorem protocol_afterCalls (n : Nat) : Protocol source answers (afterCalls source answers n) := by
  induction n with
  | zero => exact protocol_ofSource
  | succ n ih =>
    rw [afterCalls, next_eq]
    exact ih.start

/-- At the end of the text there is no form, and nothing to ask for. -/
theorem next_of_exhausted (hlast : r.exhausted = true) (hafter : r.after = []) :
    r.next = (.error (r.malformed ⟨.unexpectedEnd, r.pos⟩), r) := by
  have hstart : r.start true = (.error (r.malformed ⟨.unexpectedEnd, r.pos⟩), r) := by
    unfold Reader.start finish
    rw [hlast, leg_nil hafter]
    rfl
  rw [next_eq, hstart]
  rfl

-- After an empty answer there is nothing to read between calls either.
theorem after_afterCalls (n : Nat) (h : (afterCalls source answers n).exhausted = true) :
    (afterCalls source answers n).after = [] := by
  induction n with
  | zero => cases h
  | succ n ih =>
    cases hbefore : (afterCalls source answers n).exhausted with
    | true =>
      -- The call fails where it stands and changes nothing.
      rw [afterCalls, next_of_exhausted hbefore (ih hbefore)]
      exact ih hbefore
    | false =>
      rw [afterCalls, next_eq] at h ⊢
      exact (start_of_empty hbefore h).2

theorem message_unexpectedEnd (r : Reader) :
    (r.malformed ⟨.unexpectedEnd, r.pos⟩).message = "unexpected end of input ### " := by
  show "unexpected end of input" ++ " ### " ++ String.ofList (r.fragment r.pos) = _
  unfold fragment
  rw [Nat.sub_self]
  rfl

/-- Whatever the calls on a reader come to, at every moment the source, the script and the number of
requests determine what it has been given and asked. An empty answer is the last one: the call it is
given in fails, and every call after it fails at the end of the text. -/
theorem requests_follow_protocol (source : String) (answers : List (Option String)) (n : Nat) :
    (∀ s q, Steps true ({}, afterCalls source answers n) (s, q) → Protocol source answers q) ∧
    (∃ s q result, Steps true ({}, afterCalls source answers n) (s, q) ∧
      Ends true (s, q) (result, afterCalls source answers (n + 1)) ∧
      (afterCalls source answers n).next.1 = result.map (·.headD .nil)) ∧
    ((afterCalls source answers n).exhausted = false →
      (afterCalls source answers (n + 1)).exhausted = true →
      ∃ e, (afterCalls source answers n).next.1 = .error e) ∧
    ((afterCalls source answers n).exhausted = true →
      ∃ e, (afterCalls source answers n).next = (.error e, afterCalls source answers n) ∧
        e.message = "unexpected end of input ### ") := by
  refine ⟨fun s q hsteps => ?_, ?_, fun hmore hlast => ?_, fun hlast => ?_⟩
  · exact (protocol_afterCalls n).steps (x := ({}, afterCalls source answers n)) hsteps
  · obtain ⟨⟨s, q⟩, hsteps, hends⟩ := steps_start true (afterCalls source answers n)
    rw [afterCalls, next_eq]
    exact ⟨s, q, _, hsteps, hends, rfl⟩
  · rw [afterCalls, next_eq] at hlast
    obtain ⟨e, he⟩ := (start_of_empty hmore hlast).1
    exact ⟨e, by rw [next_eq, he]; rfl⟩
  · exact ⟨_, next_of_exhausted hlast (after_afterCalls n hlast), message_unexpectedEnd _⟩

theorem requests_follow_protocol_open :
    (afterCalls "(a" [some "b", some "", some "c)"] 1).exhausted = true ∧
      (afterCalls "(a" [some "b", some "", some "c)"] 1).prompts = ["(a ... ", "(a b ... "] ∧
      Protocol "(a" [some "b", some "", some "c)"]
        (afterCalls "(a" [some "b", some "", some "c)"] 1) ∧
      (∃ e, (ofSource "(a" [some "b", some "", some "c)"]).next.1 = .error e) ∧
      ∃ e, (afterCalls "(a" [some "b", some "", some "c)"] 1).next =
          (.error e, afterCalls "(a" [some "b", some "", some "c)"] 1) ∧
        e.message = "unexpected end of input ### " := by
  have hlast : (afterCalls "(a" [some "b", some "", some "c)"] 1).exhausted = true := by cbv
  have hfirst := requests_follow_protocol "(a" [some "b", some "", some "c)"] 0
  have hsecond := requests_follow_protocol "(a" [some "b", some "", some "c)"] 1
  exact ⟨hlast, by cbv, hsecond.1 {} _ .refl, hfirst.2.2.1 rfl hlast, hsecond.2.2.2 hlast⟩

end Lisplet.Reader
