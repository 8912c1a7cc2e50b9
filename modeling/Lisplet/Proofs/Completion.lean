import Lisplet.Proofs.Moments
import Lisplet.Proofs.Recognition

/-!
# When more can help

A source asks for more where its text ends in an open form. If the form is an expression, a struct,
a quoted list or a string, the state of the machine shows a text that completes it, so the request
can be answered. After an apostrophe at the end of the text it cannot: an answer begins on a new
line, and a blank is no literal. A source that is faulty without a request stays so, whatever
follows on a new line.
-/

namespace Lisplet.Reader

open CharClass

/-! ## Completing what is open -/

/-- The brackets that close what is open around a form, the innermost first. -/
def closers : List Open → List Char
  | [] => []
  | .field .. :: stack => '\x7d' :: closers stack
  | _ :: stack => ')' :: closers stack

/-- A text that completes what the machine is in the middle of. The value of a field, where one is
wanted, is the empty string. -/
def State.completion (s : State) : List Char :=
  match s.mode with
  | .string .. => '\x22' :: closers s.stack
  | .fields .. => '\x7d' :: closers s.stack
  | .colon .. => ':' :: '\x22' :: '\x22' :: '\x7d' :: closers s.stack
  | _ =>
    match s.stack with
    | .field .. :: _ => '\x22' :: '\x22' :: closers s.stack
    | stack => closers stack

/-- The text is read to its end and leaves nothing open. -/
def State.Completes (s : State) (cs : List Char) : Prop :=
  ∀ pos, ∃ fs, Grammar.Accepts fs s pos cs

theorem completes_cons {s t : State} {c : Char} {cs : List Char}
    (hs : s.settle (some c) = .ok t) (ht : ∀ pos, ∃ u, t.take pos c = .ok u ∧ u.Completes cs) :
    s.Completes (c :: cs) := by
  intro pos
  obtain ⟨u, hu, hrest⟩ := ht pos
  obtain ⟨fs, hfs⟩ := hrest (pos + 1)
  exact ⟨fs, t, u, hs, hu, hfs⟩

/-- Once the form that a stack waits for is there, the closing brackets are all that is missing. -/
def Closes (stack : List Open) : Prop :=
  ∀ forms f, ((⟨forms, stack, .blank⟩ : State).deliver f).Completes (closers stack)

variable {forms : List Form} {stack : List Open}

theorem Closes.paren (h : Closes stack) (quoted : Bool) (p : Nat) (items : List Form) :
    (⟨forms, Grammar.opened quoted p items :: stack, .blank⟩ : State).Completes
      (')' :: closers stack) :=
  completes_cons (settle_form (by decide)) fun _ => ⟨_, Grammar.take_closeParen .., h forms _⟩

theorem Closes.brace (h : Closes stack) (p : Nat) (entries : Record Form) :
    (⟨forms, stack, .fields p entries⟩ : State).Completes ('\x7d' :: closers stack) :=
  completes_cons rfl fun _ => ⟨_, Grammar.take_closeBrace, h forms _⟩

-- By induction on the stack: a closing bracket makes a form, and hands it to the next bracket.
theorem closes (stack : List Open) : Closes stack := by
  induction stack with
  | nil => exact fun forms f pos => ⟨_, _, rfl, rfl, rfl⟩
  | cons top stack ih =>
    intro forms f
    cases top with
    | expr p items => exact ih.paren false p (f :: items)
    | list p items => exact ih.paren true p (f :: items)
    | field p entries key => exact ih.brace p (entries.insert key f)

theorem completes_string (p : Nat) (text : List Char) :
    (⟨forms, stack, .string p text false⟩ : State).Completes ('\x22' :: closers stack) := by
  refine completes_cons rfl fun pos => ⟨_, rfl, ?_⟩
  rw [deliver_mode]
  exact closes stack forms _

theorem completes_value (p : Nat) (entries : Record Form) (key : String) :
    (⟨forms, .field p entries key :: stack, .blank⟩ : State).Completes
      ('\x22' :: '\x22' :: '\x7d' :: closers stack) :=
  completes_cons (settle_form (by decide)) fun pos => ⟨_, rfl, completes_string pos []⟩

/-- Whatever is open, but for an apostrophe, can be completed on a new line. -/
theorem completes_completion {s : State} {f : Fault} (hrests : s.mode.rests = true)
    (hopen : s.unfinished = some f) (hwhat : f.what ≠ .badLiteral) :
    s.completion ≠ [] ∧ s.Completes ('\n' :: s.completion) := by
  have hblank : ∀ {stack : List Open} {cs : List Char},
      (⟨s.forms, stack, .blank⟩ : State).Completes cs →
      (⟨s.forms, stack, .blank⟩ : State).Completes ('\n' :: cs) := fun h =>
    completes_cons (settle_form (by decide)) fun _ => ⟨_, Grammar.take_blank ofChar_newline, h⟩
  obtain ⟨forms, stack, mode⟩ := s
  cases mode with
  | blank =>
    cases stack with
    | nil => cases hopen
    | cons top stack =>
      cases top with
      | expr p items => exact ⟨nofun, hblank ((closes stack).paren false p items)⟩
      | list p items => exact ⟨nofun, hblank ((closes stack).paren true p items)⟩
      | field p entries key => exact ⟨nofun, hblank (completes_value p entries key)⟩
  | string p text escaped =>
    -- The new line is part of the string, and takes up a backslash if there is one before it.
    refine ⟨nofun, completes_cons rfl fun pos => ?_⟩
    cases escaped <;> exact ⟨_, rfl, completes_string p _⟩
  | tick p =>
    cases hopen
    exact absurd rfl hwhat
  | fields p entries =>
    exact ⟨nofun, completes_cons rfl fun _ =>
      ⟨_, Grammar.take_fields_blank ofChar_newline, (closes stack).brace p entries⟩⟩
  | colon p entries key =>
    refine ⟨nofun, completes_cons rfl fun _ => ⟨_, rfl, ?_⟩⟩
    exact completes_cons rfl fun _ => ⟨_, rfl, completes_value p entries key⟩
  | _ => cases hrests

/-! ## After an apostrophe -/

variable {s t : State} {pos p : Nat} {c : Char}

theorem deliver_ne_tick (s : State) (f : Form) (p : Nat) : (s.deliver f).mode ≠ .tick p := by
  unfold State.deliver
  split <;> exact nofun

theorem tick_of_endLexeme {next : CharClass} (h : s.endLexeme next = .ok t)
    (ht : t.mode = .tick p) : s.mode = .tick p := by
  -- What is ended is delivered as a form, or it is a key and waits for its colon.
  unfold State.endLexeme at h
  split at h
  · split at h
    · split at h <;> cases h
      exact absurd ht (deliver_ne_tick _ _ _)
    · cases h
      exact ht
  · split at h
    · cases h
      exact ht
    · split at h <;> cases h
      exact absurd ht (deliver_ne_tick _ _ _)
  · split at h <;> cases h
    · exact absurd ht (deliver_ne_tick _ _ _)
    · exact ht
  · split at h <;> cases h
    · exact ht
    · cases ht
  · cases h
    exact ht

theorem tick_of_settle {next : Option Char} (h : s.settle next = .ok t) (ht : t.mode = .tick p) :
    s.mode = .tick p := by
  unfold State.settle at h
  dsimp only at h
  split at h
  next u hu =>
    cases eq_of_refuse h
    have hminus := tick_of_endLexeme hu ht
    unfold State.decideMinus at hminus
    split at hminus
    · split_ifs at hminus
    · exact hminus
  next => cases h

theorem nest_ne_tick {start : Nat} {opened : State} (h : s.nest start opened = .ok t)
    (hopened : opened.mode ≠ .tick p) : t.mode ≠ .tick p := by
  unfold State.nest at h
  split at h <;> cases h
  exact hopened

theorem beginLiteral_ne_tick {start : Nat} (h : s.beginLiteral start pos c = .ok t) :
    t.mode ≠ .tick p := by
  unfold State.beginLiteral at h
  split at h
  · cases h
    exact nofun
  · cases h
    dsimp only
    split <;> exact nofun
  · cases h
    exact nofun
  · exact nest_ne_tick h nofun
  all_goals cases h
  all_goals exact nofun

theorem beginItem_ne_tick {start : Nat} {items : List Form} (hmode : s.mode = .blank)
    (h : s.beginItem start items stack pos c = .ok t) : t.mode ≠ .tick p := by
  unfold State.beginItem at h
  split at h
  · cases h
    rw [hmode]
    exact nofun
  · cases h
    exact deliver_ne_tick _ _ _
  · cases h
  · exact beginLiteral_ne_tick h

theorem tick_of_beginForm (hmode : s.mode = .blank) (h : s.beginForm pos c = .ok t)
    (ht : t.mode = .tick p) : c = '\x27' ∧ p = pos := by
  unfold State.beginForm at h
  cases hc : ofChar c with
  | apostrophe =>
    rw [hc] at h
    cases h
    cases ht
    exact ⟨Grammar.eq_of_mark (by rw [hc]; rfl), rfl⟩
  | blank =>
    rw [hc] at h
    cases h
    rw [hmode] at ht
    cases ht
  | letter =>
    rw [hc] at h
    cases h
    dsimp only at ht
    split_ifs at ht
  | openParen =>
    rw [hc] at h
    exact absurd ht (nest_ne_tick h (by rw [hmode]; exact nofun))
  | openBrace =>
    rw [hc] at h
    exact absurd ht (nest_ne_tick h nofun)
  | closeParen =>
    rw [hc] at h
    dsimp only at h
    split at h <;> cases h
    exact absurd ht (deliver_ne_tick _ _ _)
  | closeBrace =>
    rw [hc] at h
    dsimp only at h
    split at h <;> cases h
  | digit | quote =>
    rw [hc] at h
    cases h
    cases ht
  | dot | unknown | endOfText =>
    rw [hc] at h
    cases h

/-- Only an apostrophe leads to where a literal is wanted. -/
theorem tick_of_take (h : s.take pos c = .ok t) (ht : t.mode = .tick p) :
    c = '\x27' ∧ p = pos := by
  obtain ⟨forms, stack, mode⟩ := s
  unfold State.take at h
  dsimp only at h
  cases mode with
  | blank =>
    -- In a quoted list an apostrophe begins a word like any other.
    dsimp only at h
    split at h
    · exact absurd ht (beginItem_ne_tick rfl h)
    · exact tick_of_beginForm rfl h ht
  | minus start quoted =>
    cases h
    cases quoted <;> cases ht
  | number start point text =>
    dsimp only at h
    split at h
    · cases h
      cases ht
    · split at h <;> cases h
      cases ht
    · cases h
  | symbol start text =>
    cases h
    cases ht
  | string start text escaped =>
    dsimp only at h
    split_ifs at h <;> cases h
    · cases ht
    · exact absurd ht (deliver_ne_tick _ _ _)
    · cases ht
    · cases ht
  | tick start => exact absurd ht (beginLiteral_ne_tick h)
  | word text =>
    cases h
    cases ht
  | fields start entries =>
    dsimp only at h
    unfold State.beginKey at h
    split at h <;> cases h
    · cases ht
    · exact absurd ht (deliver_ne_tick _ _ _)
    · cases ht
  | key start entries text =>
    cases h
    cases ht
  | colon start entries key =>
    dsimp only at h
    split at h <;> cases h <;> cases ht

/-- Where a literal is wanted at the end of a text, the text ends in the apostrophe. -/
theorem tick_of_run {before cs : List Char} (h : (run false s before pos cs).outcome = .ok t)
    (ht : t.mode = .tick p) :
    cs = [] ∧ s.mode = .tick p ∨ ∃ ds, cs = ds ++ ['\x27'] ∧ p = pos + ds.length := by
  induction cs generalizing s before pos with
  | nil => exact .inl ⟨rfl, tick_of_settle h ht⟩
  | cons c cs ih =>
    obtain ⟨u, v, hu, hv⟩ := take_of_run h
    rw [run_of_take hu hv] at h
    rcases ih h with ⟨rfl, hmode⟩ | ⟨ds, rfl, hp⟩
    · -- This is the last character, so it is the one that led there.
      obtain ⟨rfl, rfl⟩ := tick_of_take hv hmode
      exact .inr ⟨[], rfl, rfl⟩
    · refine .inr ⟨c :: ds, rfl, ?_⟩
      rw [hp, List.length_cons]
      omega

/-! ## Requests -/

/-- What a source asks for at the end of its text: the complaint that is made if nothing more comes,
and where it begins. None if the source is complete or faulty as it is. -/
def requested (source : String) : Option Fault :=
  match (run false {} [] 0 source.toList).outcome with
  | .ok s => s.unfinished
  | .error _ => none

theorem exists_of_requested {source : String} {f : Fault} (h : requested source = some f) :
    ∃ t, (run false {} [] 0 source.toList).outcome = .ok t ∧ t.unfinished = some f := by
  unfold requested at h
  split at h
  next t ht => exact ⟨t, ht, h⟩
  next => cases h

theorem asked_step {single : Bool} {x y : State × Reader} (h : Step single x y) :
    x.2.asked <:+ y.2.asked := by
  cases h with
  | char => exact List.suffix_rfl
  | ask =>
    rw [asked_answered]
    exact List.suffix_cons _ _

theorem asked_steps {single : Bool} {x y : State × Reader} (h : Steps single x y) :
    x.2.asked <:+ y.2.asked := by
  induction h with
  | refl => exact List.suffix_rfl
  | tail _ hstep ih => exact ih.trans (asked_step hstep)

theorem asked_ends {single : Bool} {x : State × Reader} {y : Except Error (List Form) × Reader}
    (h : Ends single x y) : y.2.asked = x.2.asked := by
  cases h <;> rfl

-- A course that has asked keeps that it has.
theorem prompts_of_asked {single : Bool} {x y : State × Reader}
    {z : Except Error (List Form) × Reader} (hx : x.2.asked ≠ []) (hsteps : Steps single x y)
    (hends : Ends single y z) : z.2.prompts ≠ [] := by
  unfold prompts
  rw [asked_ends hends]
  intro hnil
  rw [List.reverse_eq_nil_iff] at hnil
  exact hx (List.suffix_nil.mp (hnil ▸ asked_steps hsteps))

section

variable {source : String} {answers : List (Option String)} {f : Fault}

def atEnd (source : String) (answers : List (Option String)) (t : State) : Reader :=
  let text := source.toList
  counting { before := text.reverse, pos := text.length, after := [], answers } {} t

theorem leg_of_outcome (h : (run false {} [] 0 source.toList).outcome = .ok t) :
    leg false {} (ofSource source answers) = (.ok t, atEnd source answers t) := by
  obtain ⟨hbefore, hpos⟩ := read_run h
  unfold leg atEnd
  dsimp only [ofSource]
  rw [h, hbefore, hpos, after_run h, List.append_nil, Nat.zero_add]

/-- A source with a fault in it fails there, without a request. -/
theorem all_of_fault (h : (run false {} [] 0 source.toList).outcome = .error f) :
    let x := run false {} [] 0 source.toList
    let q : Reader := { before := x.before, pos := x.pos, after := x.after, answers }
    (ofSource source answers).all = (.error (q.malformed f), q) := by
  intro x q
  have hleg : leg false {} (ofSource source answers) = (.error (q.malformed f), q) := by
    unfold leg
    dsimp only [ofSource]
    rw [h]
    rfl
  refine (resume_leg {} (ofSource source answers)).trans ?_
  rw [hleg]

/-- A source with nothing open at its end is read without a request. -/
theorem all_of_complete (h : (run false {} [] 0 source.toList).outcome = .ok t)
    (hnone : t.unfinished = none) :
    (ofSource source answers).all = (.ok t.forms.reverse, atEnd source answers t) := by
  refine (resume_leg {} (ofSource source answers)).trans ?_
  rw [leg_of_outcome h]
  simp only [hnone, Option.isNone_none, if_true, conclude, faultAtEnd, Bool.false_and,
    Bool.false_eq_true, if_false]

/-- A source with something open at its end asks for more, and goes on with the answer. -/
theorem all_of_open (h : (run false {} [] 0 source.toList).outcome = .ok t)
    (hopen : t.unfinished = some f) :
    (ofSource source answers).all =
      if (atEnd source answers t).nextAnswer.isEmpty then
        finish false t (atEnd source answers t).answered
      else
        resume false t (atEnd source answers t).answered
          (atEnd source answers t).answered.answers := by
  refine (resume_leg {} (ofSource source answers)).trans ?_
  rw [leg_of_outcome h]
  simp only [hopen, Option.isNone_some, Bool.false_eq_true, if_false]

theorem prompts_of_open (h : (run false {} [] 0 source.toList).outcome = .ok t)
    (hopen : t.unfinished = some f) : (ofSource source answers).all.2.prompts ≠ [] := by
  have hasked : (atEnd source answers t).answered.asked ≠ [] := by
    rw [asked_answered]
    exact List.cons_ne_nil _ _
  have ht : t.Lacking false := Bool.false_and _
  -- The request is made whatever the answer is, and what follows it takes no prompt back.
  rw [all_of_open h hopen]
  cases hempty : (atEnd source answers t).nextAnswer.isEmpty with
  | true =>
    obtain ⟨x, hsteps, hends⟩ := steps_finish ht (exhausted_of_empty hempty)
    exact prompts_of_asked hasked hsteps hends
  | false =>
    obtain ⟨x, hsteps, hends⟩ := steps_resume t _ ht (exhausted_answered hempty)
    exact prompts_of_asked hasked hsteps hends

theorem prompts_ne_nil_iff :
    (ofSource source answers).all.2.prompts ≠ [] ↔ (requested source).isSome = true := by
  unfold requested
  cases h : (run false {} [] 0 source.toList).outcome with
  | error f => simp [all_of_fault h, prompts]
  | ok t =>
    cases hopen : t.unfinished with
    | none => simp [all_of_complete h hopen, hopen, prompts, atEnd, counting]
    | some f => simp [prompts_of_open h hopen, hopen]

theorem message_of_read {r : Reader} {text : List Char} (hbefore : r.before = text.reverse)
    (hpos : r.pos = text.length) (f : Fault) :
    (r.malformed f).message = f.what.text ++ " ### " ++ String.ofList (text.drop f.start) := by
  have hfragment : r.fragment f.start = text.drop f.start := by
    unfold fragment
    rw [hbefore, hpos, List.take_reverse, List.reverse_reverse]
    rcases Nat.le_total f.start text.length with hle | hle
    · rw [Nat.sub_sub_self hle]
    · rw [Nat.sub_eq_zero_of_le hle, Nat.sub_zero, List.drop_length, List.drop_of_length_le hle]
  rw [← hfragment]
  rfl

/-- What is asked for is what the source is faulty for if nothing comes. -/
theorem read_of_open (h : (run false {} [] 0 source.toList).outcome = .ok t)
    (hopen : t.unfinished = some f) :
    ∃ e, read source = .error e ∧ e.message =
      f.what.text ++ " ### " ++ String.ofList ((source.toList ++ [' ']).drop f.start) := by
  have hfinish : read source = (finish false t (atEnd source [] t).answered).1 :=
    congrArg Prod.fst (all_of_open h hopen)
  refine ⟨_, hfinish.trans (finish_space (rests_of_run h) hopen rfl), message_of_read ?_ ?_ f⟩
  · exact (List.reverse_concat ..).symm
  · rw [List.length_append]
    rfl

/-! ## Answers that help -/

theorem run_line (h : (run false {} [] 0 source.toList).outcome = .ok t) (text : String) :
    run false {} [] 0 (source ++ "\n" ++ text).toList =
      run false t source.toList.reverse source.toList.length ('\n' :: text.toList) := by
  obtain ⟨hbefore, hpos⟩ := read_run h
  have hlist : (source ++ "\n" ++ text).toList = source.toList ++ '\n' :: text.toList :=
    toList_between source text '\n'
  rw [hlist, run_append _ h ofChar_newline, hbefore, hpos, List.append_nil, Nat.zero_add]

theorem read_of_completes (h : (run false {} [] 0 source.toList).outcome = .ok t)
    {text : String} (ht : t.Completes ('\n' :: text.toList)) :
    ∃ fs, read (source ++ "\n" ++ text) = .ok fs := by
  obtain ⟨fs, hfs⟩ := ht source.toList.length
  refine ⟨fs, Grammar.read_eq_ok_iff.mpr ((Grammar.accepts_iff_run []).mpr ?_)⟩
  rw [run_line h]
  exact (Grammar.accepts_iff_run _).mp hfs

/-- To answer with a text is to write it below the source. -/
theorem all_of_answer (h : (run false {} [] 0 source.toList).outcome = .ok t)
    (hopen : t.unfinished = some f) {text : String} (htext : text.isEmpty = false) :
    (ofSource source [some text]).all.1 = read (source ++ "\n" ++ text) := by
  have hnext : (atEnd source [some text] t).nextAnswer = text := rfl
  have hall : (ofSource source [some text]).all =
      resume false t (extend { (atEnd source [some text] t).asking with answers := [] } text)
        [] := by
    rw [all_of_open h hopen]
    unfold answered
    rw [hnext, htext]
    rfl
  rw [hall]
  exact (resume_nil_of_legs (agree_leg_of_run (run_line h text).symm)).1

end

/-! ## Answers that cannot help -/

-- A fault is found before anything behind the next blank is looked at.
theorem outcome_append_of_fault {f : Fault} {before cs : List Char}
    (h : (run false s before pos cs).outcome = .error f) (hc : ofChar c = .blank)
    (ds : List Char) : (run false s before pos (cs ++ c :: ds)).outcome = .error f := by
  induction cs generalizing s before pos with
  | nil =>
    have hsettle : s.settle (some c) = .error f := (settle_blank s hc).trans h
    rw [List.nil_append, run, hsettle]
  | cons d cs ih =>
    rw [List.cons_append, run]
    rw [run] at h
    cases hsettle : s.settle (some d) with
    | error g =>
      rw [hsettle] at h
      exact h
    | ok t =>
      cases htake : t.take pos d with
      | error g =>
        simp only [hsettle, Bool.false_and, Bool.false_eq_true, if_false, htake] at h ⊢
        exact h
      | ok u =>
        simp only [hsettle, Bool.false_and, Bool.false_eq_true, if_false, htake] at h ⊢
        exact ih h

section

variable {source : String}

/-- A source with a fault in it has one whatever comes after a blank. -/
theorem read_of_fault {f : Fault} (h : (run false {} [] 0 source.toList).outcome = .error f)
    (hc : ofChar c = .blank) (text : String) :
    ∃ e, read (source ++ String.singleton c ++ text) = .error e := by
  have hfault : (run false {} [] 0 (source ++ String.singleton c ++ text).toList).outcome =
      .error f := by
    rw [toList_between]
    exact outcome_append_of_fault h hc text.toList
  exact ⟨_, congrArg Prod.fst (all_of_fault hfault)⟩

/-- After an apostrophe a new line is not a literal, whatever is on it. -/
theorem read_of_tick (h : (run false {} [] 0 source.toList).outcome = .ok t)
    (ht : t.mode = .tick p) (text : String) :
    ∃ e, read (source ++ "\n" ++ text) = .error e ∧ e.message =
      "bad literal" ++ " ### " ++ String.ofList ((source.toList ++ ['\n']).drop p) := by
  have hsettle : t.settle (some '\n') = .ok t :=
    (settle_blank t ofChar_newline).trans (settle_of_rests (rests_of_run h))
  have htake : t.take source.toList.length '\n' = .error ⟨.badLiteral, p⟩ := by
    simp only [State.take, ht, State.beginLiteral, ofChar_newline]
  have hrun : run false {} [] 0 (source ++ "\n" ++ text).toList =
      { outcome := .error ⟨.badLiteral, p⟩
        before := '\n' :: source.toList.reverse
        pos := source.toList.length + 1
        after := text.toList } := by
    rw [run_line h, run, hsettle]
    simp only [Bool.false_and, Bool.false_eq_true, if_false, htake]
  refine ⟨_, congrArg Prod.fst (all_of_fault (congrArg Run.outcome hrun)),
    message_of_read ?_ ?_ ⟨.badLiteral, p⟩⟩
  · rw [hrun]
    exact (List.reverse_concat ..).symm
  · rw [hrun, List.length_append]
    rfl

/-- A source with answers is the source alone, or the source with more on a new line. -/
theorem all_eq_read (source : String) (answers : List (Option String)) :
    (ofSource source answers).all.1 = read source ∨
      ∃ text, (ofSource source answers).all.1 = read (source ++ "\n" ++ text) := by
  have hjoined : (ofSource source answers).all.1 = read (joined source answers) :=
    (all_agree source answers).1
  rw [hjoined]
  unfold joined
  cases supplied answers (ofSource source answers).all.2 with
  | nil => exact .inl (by rw [String.intercalate_singleton])
  | cons text texts => exact .inr ⟨_, by rw [String.intercalate_cons_cons]⟩

end

/-! ## When a source asks -/

/-- What can be open at the end of a text. -/
theorem unfinished_cases {f : Fault} (hrests : s.mode.rests = true)
    (hopen : s.unfinished = some f) :
    f.what ∈ [.mismatchedOpenParen, .mismatchedOpenBrace, .unterminatedString] ∨
      f.what = .badLiteral ∧ s.mode = .tick f.start := by
  obtain ⟨forms, stack, mode⟩ := s
  cases mode with
  | blank =>
    cases stack with
    | nil => cases hopen
    | cons top stack =>
      cases top <;> cases hopen <;> exact .inl (by simp)
  | tick p =>
    cases hopen
    exact .inr ⟨rfl, rfl⟩
  | string | fields | colon =>
    cases hopen
    exact .inl (by simp)
  | _ => cases hrests

section

variable {source : String} {f : Fault}

theorem helped_of_open (h : (run false {} [] 0 source.toList).outcome = .ok t)
    (hopen : t.unfinished = some f) (hwhat : f.what ≠ .badLiteral) :
    ∃ text fs, read (source ++ "\n" ++ text) = .ok fs ∧
      (ofSource source [some text]).all.1 = .ok fs := by
  obtain ⟨hne, hcompletes⟩ := completes_completion (rests_of_run h) hopen hwhat
  rw [← String.toList_ofList (l := t.completion)] at hcompletes
  obtain ⟨fs, hfs⟩ := read_of_completes h hcompletes
  exact ⟨_, fs, hfs, (all_of_answer h hopen (by simpa using hne)).trans hfs⟩

theorem hopeless_of_tick (h : (run false {} [] 0 source.toList).outcome = .ok t)
    (hopen : t.unfinished = some f) (hwhat : f.what = .badLiteral) (ht : t.mode = .tick f.start) :
    (∃ cs, source.toList = cs ++ ['\x27'] ∧ f.start = cs.length) ∧
      (∀ answers, ∃ e, (ofSource source answers).all.1 = .error e ∧
        e.message ∈ ["bad literal ### '\n", "bad literal ### ' "]) ∧
      ∀ text, ∃ e, read (source ++ "\n" ++ text) = .error e ∧
        e.message = "bad literal ### '\n" := by
  rcases tick_of_run h ht with ⟨-, hinitial⟩ | ⟨cs, hsource, hstart⟩
  · cases hinitial
  rw [Nat.zero_add] at hstart
  -- The offending text is the apostrophe and the blank after it.
  have hdrop : ∀ c, (source.toList ++ [c]).drop f.start = ['\x27', c] := by
    intro c
    rw [hsource, hstart, List.append_assoc, List.drop_left]
    rfl
  have hline : ∀ text, ∃ e, read (source ++ "\n" ++ text) = .error e ∧
      e.message = "bad literal ### '\n" := by
    intro text
    obtain ⟨e, he, hmessage⟩ := read_of_tick h ht text
    rw [hdrop] at hmessage
    exact ⟨e, he, hmessage.trans (by decide)⟩
  refine ⟨⟨cs, hsource, hstart⟩, fun answers => ?_, hline⟩
  rcases all_eq_read source answers with hall | ⟨text, hall⟩
  · obtain ⟨e, he, hmessage⟩ := read_of_open h hopen
    rw [hdrop, hwhat] at hmessage
    refine ⟨e, hall.trans he, ?_⟩
    rw [hmessage]
    decide
  · obtain ⟨e, he, hmessage⟩ := hline text
    refine ⟨e, hall.trans he, ?_⟩
    rw [hmessage]
    decide

theorem read_of_unasked {answers : List (Option String)} {e : Error}
    (herror : (ofSource source answers).all.1 = .error e)
    (hprompts : (ofSource source answers).all.2.prompts = []) (hc : ofChar c = .blank)
    (text : String) : ∃ e, read (source ++ String.singleton c ++ text) = .error e := by
  cases h : (run false {} [] 0 source.toList).outcome with
  | error f => exact read_of_fault h hc text
  | ok t =>
    cases hopen : t.unfinished with
    | some f => exact absurd hprompts (prompts_of_open h hopen)
    | none =>
      rw [all_of_complete h hopen] at herror
      cases herror

end

/-- A source asks for more exactly where something is open at the end of its text, which is what it
is faulty for if nothing comes. If that is an expression, a struct, a quoted list or a string, then
there is a text with which all of it is read. If it is an apostrophe, this is the last character,
and no answer helps. A source that fails without a request does so whatever comes after a blank. -/
theorem asks_when_more_can_help (source : String) :
    (∀ answers, (ofSource source answers).all.2.prompts ≠ [] ↔ (requested source).isSome = true) ∧
    (∀ f, requested source = some f →
      (∃ e, read source = .error e ∧ e.message =
        f.what.text ++ " ### " ++ String.ofList ((source.toList ++ [' ']).drop f.start)) ∧
      (f.what ∈ [.mismatchedOpenParen, .mismatchedOpenBrace, .unterminatedString] ∧
          (∃ text fs, read (source ++ "\n" ++ text) = .ok fs ∧
            (ofSource source [some text]).all.1 = .ok fs) ∨
        f.what = .badLiteral ∧
          (∃ cs, source.toList = cs ++ ['\x27'] ∧ f.start = cs.length) ∧
          (∀ answers, ∃ e, (ofSource source answers).all.1 = .error e ∧
            e.message ∈ ["bad literal ### '\n", "bad literal ### ' "]) ∧
          ∀ text, ∃ e, read (source ++ "\n" ++ text) = .error e ∧
            e.message = "bad literal ### '\n")) ∧
    ∀ answers e, (ofSource source answers).all.1 = .error e →
      (ofSource source answers).all.2.prompts = [] →
      ∀ c, Text.isBlank c = true → ∀ text,
        ∃ e', read (source ++ String.singleton c ++ text) = .error e' := by
  refine ⟨fun answers => prompts_ne_nil_iff, fun f hf => ?_, ?_⟩
  · obtain ⟨t, h, hopen⟩ := exists_of_requested hf
    refine ⟨read_of_open h hopen, ?_⟩
    rcases unfinished_cases (rests_of_run h) hopen with hwhat | ⟨hwhat, ht⟩
    · refine .inl ⟨hwhat, helped_of_open h hopen ?_⟩
      intro hbad
      rw [hbad] at hwhat
      exact absurd hwhat (by decide)
    · exact .inr ⟨hwhat, hopeless_of_tick h hopen hwhat ht⟩
  · intro answers e herror hprompts c hc text
    exact read_of_unasked herror hprompts (ofChar_eq_blank hc) text

theorem asks_when_more_can_help_cut :
    (requested "(\x7ba" = some ⟨.mismatchedOpenBrace, 1⟩ ∧
      ∃ text fs, read ("(\x7ba" ++ "\n" ++ text) = .ok fs) ∧
    (requested "(f '" = some ⟨.badLiteral, 3⟩ ∧
      ∀ text, ∃ e, read ("(f '" ++ "\n" ++ text) = .error e ∧ e.message = "bad literal ### '\n") ∧
    (ofSource "(\x7d" []).all.2.prompts = [] ∧
      ∀ text, ∃ e, read ("(\x7d" ++ String.singleton '\n' ++ text) = .error e := by
  have hstruct : requested "(\x7ba" = some ⟨.mismatchedOpenBrace, 1⟩ := by cbv
  have htick : requested "(f '" = some ⟨.badLiteral, 3⟩ := by cbv
  have hfault : (ofSource "(\x7d" []).all.1 =
      .error (.malformed "mismatched close brace" "(\x7d" "(\x7d") := by cbv
  have hprompts : (ofSource "(\x7d" []).all.2.prompts = [] := by cbv
  refine ⟨⟨hstruct, ?_⟩, ⟨htick, ?_⟩, hprompts, ?_⟩
  · rcases ((asks_when_more_can_help "(\x7ba").2.1 _ hstruct).2 with
      ⟨-, text, fs, hfs, -⟩ | ⟨hwhat, -⟩
    · exact ⟨text, fs, hfs⟩
    · cases hwhat
  · rcases ((asks_when_more_can_help "(f '").2.1 _ htick).2 with ⟨hwhat, -⟩ | ⟨-, -, -, hline⟩
    · exact absurd hwhat (by decide)
    · exact hline
  · exact (asks_when_more_can_help "(\x7d").2.2 [] _ hfault hprompts '\n' (by decide)

end Lisplet.Reader
