import Lisplet.Proofs.Protocol
import Lisplet.Proofs.Recognition

/-!
# Sources side by side

Two sources with a blank between them are read as the first and then the second. The first leaves
the machine between forms, and what is read from there differs from what is read at the start of a
text in two ways only: the forms of the first source are there already, and every position is
larger by the length of what came before. `State.shift` makes both differences, and every step of
the machine commutes with it.
-/

namespace Lisplet

/-- The error, but with a text before the source it is about. -/
def Error.within (text : String) (e : Error) : Error :=
  { e with trail := e.trail.map (text ++ ·) }

namespace Reader

open CharClass

/-! ## Shifted machines -/

def Open.shift (k : Nat) : Open → Open
  | .expr start items => .expr (start + k) items
  | .list start items => .list (start + k) items
  | .field start fields key => .field (start + k) fields key

def Mode.shift (k : Nat) : Mode → Mode
  | .blank => .blank
  | .minus start quoted => .minus (start + k) quoted
  | .number start point text => .number (start + k) point text
  | .symbol start text => .symbol (start + k) text
  | .string start text escaped => .string (start + k) text escaped
  | .tick start => .tick (start + k)
  | .word text => .word text
  | .fields start entries => .fields (start + k) entries
  | .key start entries text => .key (start + k) entries text
  | .colon start entries name => .colon (start + k) entries name

/-- The machine `k` characters further on, with the forms `earlier` complete before it began. -/
def State.shift (k : Nat) (earlier : List Form) (s : State) : State :=
  ⟨s.forms ++ earlier, s.stack.map (Open.shift k), s.mode.shift k⟩

def Fault.shift (k : Nat) (f : Fault) : Fault :=
  ⟨f.what, f.start + k⟩

def shiftOutcome (k : Nat) (earlier : List Form) : Except Fault State → Except Fault State
  | .ok s => .ok (s.shift k earlier)
  | .error f => .error (f.shift k)

section

variable {k : Nat} {earlier : List Form} {s : State}

theorem deliver_shift (f : Form) :
    (s.shift k earlier).deliver f = (s.deliver f).shift k earlier := by
  obtain ⟨forms, stack, mode⟩ := s
  cases stack with
  | nil => rfl
  | cons top stack => cases top <;> rfl

theorem nest_shift (start : Nat) (opened : State) :
    (s.shift k earlier).nest (start + k) (opened.shift k earlier) =
      shiftOutcome k earlier (s.nest start opened) := by
  unfold State.nest
  rw [show (s.shift k earlier).stack.length = s.stack.length from List.length_map _]
  split <;> rfl

theorem decideMinus_shift (next : CharClass) :
    (s.shift k earlier).decideMinus next = (s.decideMinus next).shift k earlier := by
  obtain ⟨forms, stack, mode⟩ := s
  cases mode with
  | minus start quoted =>
    simp only [State.shift, Mode.shift, State.decideMinus]
    split
    · rfl
    · cases quoted <;> rfl
  | _ => rfl

theorem endLexeme_shift (next : CharClass) :
    (s.shift k earlier).endLexeme next = shiftOutcome k earlier (s.endLexeme next) := by
  have hdeliver : ∀ f, (s.shift k earlier).deliver f = (s.deliver f).shift k earlier :=
    fun f => deliver_shift f
  obtain ⟨forms, stack, mode⟩ := s
  cases mode with
  | number start point text =>
    simp only [State.shift, Mode.shift] at hdeliver
    simp only [State.shift, Mode.shift, State.endLexeme]
    split
    · cases numberForm? point text.reverse with
      | none => rfl
      | some f => exact congrArg Except.ok (hdeliver f)
    · rfl
  | symbol start text =>
    simp only [State.shift, Mode.shift] at hdeliver
    simp only [State.shift, Mode.shift, State.endLexeme]
    split
    · rfl
    · cases symbolForm? text.reverse with
      | none => rfl
      | some f => exact congrArg Except.ok (hdeliver f)
  | word text =>
    simp only [State.shift, Mode.shift] at hdeliver
    simp only [State.shift, Mode.shift, State.endLexeme]
    split
    · exact congrArg Except.ok (hdeliver _)
    · rfl
  | key start entries text =>
    simp only [State.shift, Mode.shift, State.endLexeme]
    split <;> rfl
  | _ => rfl

theorem refuse_shift (next : Option Char) :
    (s.shift k earlier).refuse next = shiftOutcome k earlier (s.refuse next) := by
  obtain ⟨forms, stack, mode⟩ := s
  cases next with
  | none => rw [refuse_none, refuse_none]; rfl
  | some c =>
    cases mode with
    | colon start entries key =>
      simp only [State.shift, Mode.shift, State.refuse]
      split <;> rfl
    | blank =>
      cases stack with
      | nil => rfl
      | cons top stack =>
        cases top with
        | field start entries key =>
          simp only [State.shift, Mode.shift, State.refuse, List.map_cons, Open.shift]
          split <;> rfl
        | _ => rfl
    | _ => rfl

theorem settle_shift (next : Option Char) :
    (s.shift k earlier).settle next = shiftOutcome k earlier (s.settle next) := by
  unfold State.settle
  dsimp only
  rw [decideMinus_shift, endLexeme_shift]
  cases (s.decideMinus (next.elim .endOfText ofChar)).endLexeme (next.elim .endOfText ofChar) with
  | error f => rfl
  | ok t => exact refuse_shift next

theorem beginForm_shift (pos : Nat) (c : Char) :
    (s.shift k earlier).beginForm (pos + k) c = shiftOutcome k earlier (s.beginForm pos c) := by
  unfold State.beginForm
  cases ofChar c with
  | letter =>
    dsimp only
    split <;> rfl
  | openParen => exact nest_shift pos { s with stack := .expr pos [] :: s.stack }
  | openBrace => exact nest_shift pos { s with mode := .fields pos [] }
  | closeParen =>
    obtain ⟨forms, stack, mode⟩ := s
    cases stack with
    | nil => rfl
    | cons top stack =>
      cases top with
      | expr start items =>
        exact congrArg Except.ok (deliver_shift (s := ⟨forms, stack, mode⟩) _)
      | _ => rfl
  | closeBrace =>
    obtain ⟨forms, stack, mode⟩ := s
    cases stack with
    | nil => rfl
    | cons top stack => cases top <;> rfl
  | _ => rfl

theorem beginLiteral_shift (start pos : Nat) (c : Char) :
    (s.shift k earlier).beginLiteral (start + k) (pos + k) c =
      shiftOutcome k earlier (s.beginLiteral start pos c) := by
  unfold State.beginLiteral
  cases ofChar c with
  | letter =>
    dsimp only
    split <;> rfl
  | openParen =>
    exact nest_shift start { s with stack := .list pos [] :: s.stack, mode := .blank }
  | _ => rfl

theorem beginItem_shift (start : Nat) (items : List Form) (stack : List Open) (pos : Nat)
    (c : Char) :
    (s.shift k earlier).beginItem (start + k) items (stack.map (Open.shift k)) (pos + k) c =
      shiftOutcome k earlier (s.beginItem start items stack pos c) := by
  have hliteral : (s.shift k earlier).beginLiteral (pos + k) (pos + k) c =
      shiftOutcome k earlier (s.beginLiteral pos pos c) := beginLiteral_shift pos pos c
  unfold State.beginItem
  cases ofChar c with
  | closeParen =>
    exact congrArg Except.ok (deliver_shift (s := { s with stack }) (listForm items.reverse))
  | blank | closeBrace => rfl
  | _ => exact hliteral

theorem beginKey_shift (start : Nat) (entries : Record Form) (c : Char) :
    (s.shift k earlier).beginKey (start + k) entries c =
      shiftOutcome k earlier (s.beginKey start entries c) := by
  unfold State.beginKey
  cases ofChar c with
  | closeBrace => exact congrArg Except.ok (deliver_shift (.struct entries))
  | _ => rfl

/-- The machine reads a character in the same way wherever it is. -/
theorem take_shift (pos : Nat) (c : Char) :
    (s.shift k earlier).take (pos + k) c = shiftOutcome k earlier (s.take pos c) := by
  have hdeliver : ∀ f, (s.shift k earlier).deliver f = (s.deliver f).shift k earlier :=
    fun f => deliver_shift f
  obtain ⟨forms, stack, mode⟩ := s
  cases mode with
  | blank =>
    cases stack with
    | nil => exact beginForm_shift (s := ⟨forms, [], .blank⟩) pos c
    | cons top stack =>
      cases top with
      | list start items =>
        exact beginItem_shift (s := ⟨forms, .list start items :: stack, .blank⟩) start items stack
          pos c
      | expr start items =>
        exact beginForm_shift (s := ⟨forms, .expr start items :: stack, .blank⟩) pos c
      | field start entries key =>
        exact beginForm_shift (s := ⟨forms, .field start entries key :: stack, .blank⟩) pos c
  | minus start quoted => cases quoted <;> rfl
  | number start point text =>
    simp only [State.shift, Mode.shift, State.take]
    cases ofChar c with
    | dot => cases point <;> rfl
    | _ => rfl
  | string start text escaped =>
    simp only [State.shift, Mode.shift] at hdeliver
    simp only [State.shift, Mode.shift, State.take]
    split
    · rfl
    · split
      · exact congrArg Except.ok (hdeliver _)
      · split <;> rfl
  | tick start =>
    exact beginLiteral_shift (s := ⟨forms, stack, .tick start⟩) start pos c
  | fields start entries =>
    exact beginKey_shift (s := ⟨forms, stack, .fields start entries⟩) start entries c
  | colon start entries key =>
    simp only [State.shift, Mode.shift, State.take]
    split <;> rfl
  | symbol | word | key => rfl

theorem unfinished_shift :
    (s.shift k earlier).unfinished = s.unfinished.map (Fault.shift k) := by
  obtain ⟨forms, stack, mode⟩ := s
  cases stack with
  | nil => cases mode <;> rfl
  | cons top stack => cases mode <;> cases top <;> rfl

theorem nesting_shift : (s.shift k earlier).nesting = s.nesting := by
  obtain ⟨forms, stack, mode⟩ := s
  unfold State.nesting State.shift
  rw [List.length_map]
  cases mode <;> rfl

end

/-! ## Readers behind a text -/

/-- The reader, but with a text read before it began. Texts that have been read are held
backwards. -/
def behind (r : Reader) (text : List Char) : Reader :=
  { r with before := r.before ++ text, pos := r.pos + text.length }

/-- What comes of reading behind a text: a result that is changed by `f`, or an error about the
source with the text before it. -/
def moved {α β : Type} (text : List Char) (f : α → β) :
    Except Error α × Reader → Except Error β × Reader
  | (.ok a, r) => (.ok (f a), r.behind text)
  | (.error e, r) => (.error (e.within (String.ofList text.reverse)), r.behind text)

variable {text : List Char} {earlier : List Form} {s t : State} {r : Reader}

theorem run_shift (before : List Char) (pos : Nat) (cs : List Char) :
    run false (s.shift text.length earlier) (before ++ text) (pos + text.length) cs =
      { outcome := shiftOutcome text.length earlier (run false s before pos cs).outcome
        before := (run false s before pos cs).before ++ text
        pos := (run false s before pos cs).pos + text.length
        after := (run false s before pos cs).after } := by
  induction cs generalizing s before pos with
  | nil =>
    simp only [run, settle_shift]
  | cons c cs ih =>
    unfold run
    rw [settle_shift]
    cases s.settle (some c) with
    | error f => rfl
    | ok t =>
      -- With one character read, the text before is still the text before the shifted run.
      simp only [shiftOutcome, Bool.false_and, Bool.false_eq_true, if_false]
      rw [take_shift]
      cases t.take pos c with
      | error f => simp only [shiftOutcome, List.cons_append, Nat.add_right_comm]
      | ok u =>
        simp only [shiftOutcome]
        rw [Nat.add_right_comm, ← List.cons_append]
        exact ih (c :: before) (pos + 1)

/-- A run never counts more characters than it has read. -/
theorem pos_run_le {single : Bool} {before : List Char} {pos : Nat} (h : pos ≤ before.length)
    (cs : List Char) :
    (run single s before pos cs).pos ≤ (run single s before pos cs).before.length := by
  induction cs generalizing s before pos with
  | nil => exact h
  | cons c cs ih =>
    have hnext : pos + 1 ≤ (c :: before).length := Nat.succ_le_succ h
    unfold run
    split
    · exact h
    · split
      · exact h
      · split
        · exact hnext
        · split
          · exact hnext
          · exact ih hnext

theorem fragment_behind (h : r.pos ≤ r.before.length) (start : Nat) :
    (r.behind text).fragment (start + text.length) = r.fragment start := by
  unfold fragment behind
  dsimp only
  rw [Nat.add_sub_add_right, List.take_append_of_le_length (by omega)]

theorem buffer_behind : (r.behind text).buffer = text.reverse ++ r.buffer := by
  unfold buffer behind
  rw [List.reverse_append, List.append_assoc]

theorem malformed_behind (h : r.pos ≤ r.before.length) (f : Fault) :
    (r.behind text).malformed (f.shift text.length) =
      (r.malformed f).within (String.ofList text.reverse) := by
  unfold Reader.malformed Fault.shift
  rw [fragment_behind h, buffer_behind, String.ofList_append]
  rfl

theorem leg_behind (h : r.pos ≤ r.before.length) :
    leg false (s.shift text.length earlier) (r.behind text) =
      moved text (State.shift text.length earlier) (leg false s r) := by
  have hpos : (run false s r.before r.pos r.after).pos ≤
      (run false s r.before r.pos r.after).before.length := pos_run_le h r.after
  unfold leg
  dsimp only [behind]
  rw [run_shift]
  generalize run false s r.before r.pos r.after = x at hpos
  obtain ⟨outcome, before, pos, after⟩ := x
  cases outcome with
  | error f =>
    let q : Reader := { r with before, pos, after }
    have herror : (q.behind text).malformed (f.shift text.length) =
        (q.malformed f).within (String.ofList text.reverse) := malformed_behind hpos f
    exact Prod.ext (congrArg Except.error herror) (counting_congr nesting_shift rfl)
  | ok t => exact congrArg (Prod.mk _) (counting_congr nesting_shift nesting_shift)

theorem pos_leg_le (h : r.pos ≤ r.before.length) :
    (leg false s r).2.pos ≤ (leg false s r).2.before.length := by
  rw [pos_leg, before_leg]
  exact pos_run_le h r.after

theorem conclude_behind (h : r.pos ≤ r.before.length) :
    conclude false (s.shift text.length earlier) (r.behind text) =
      moved text (earlier.reverse ++ ·) (conclude false s r) := by
  unfold conclude faultAtEnd
  rw [unfinished_shift]
  cases s.unfinished with
  | some f =>
    exact Prod.ext (congrArg Except.error (malformed_behind h f)) (counting_congr nesting_shift rfl)
  | none =>
    show (Except.ok (s.forms ++ earlier).reverse, r.behind text) = _
    rw [List.reverse_append]
    rfl

theorem finish_behind (h : r.pos ≤ r.before.length) :
    finish false (s.shift text.length earlier) (r.behind text) =
      moved text (earlier.reverse ++ ·) (finish false s r) := by
  have hpos : (leg false s r).2.pos ≤ (leg false s r).2.before.length := pos_leg_le h
  unfold finish
  rw [leg_behind h]
  generalize leg false s r = x at hpos
  obtain ⟨x, q⟩ := x
  cases x with
  | error e => rfl
  | ok t => exact conclude_behind hpos

/-- To read behind a text, with forms complete before, is to read as at the start. -/
theorem resume_behind (h : r.pos ≤ r.before.length) :
    Agree (resume false (s.shift text.length earlier) (r.behind text) [])
      (moved text (earlier.reverse ++ ·) (resume false s r [])) := by
  have hpos : (leg false s r).2.pos ≤ (leg false s r).2.before.length := pos_leg_le h
  unfold resume
  rw [leg_answers [], leg_answers [], leg_behind h]
  generalize leg false s r = x at hpos
  obtain ⟨x, q⟩ := x
  cases x with
  | error e => exact ⟨rfl, rfl, rfl, rfl⟩
  | ok t =>
    have hmoved : moved text (State.shift text.length earlier) (.ok t, q) =
        (.ok (t.shift text.length earlier), q.behind text) := rfl
    rw [hmoved]
    dsimp only
    rw [unfinished_shift, Option.isNone_map]
    -- Where something is open, both are given the same blank.
    split
    · rw [← conclude_behind (r := { q with answers := [] }) hpos]
      exact ⟨rfl, rfl, rfl, rfl⟩
    · rw [← finish_behind (r := exhaust (asking { q with answers := [] })) hpos]
      exact Alike.finish ⟨rfl, rfl, rfl⟩

/-! ## Between two sources -/

/-- Where nothing is open the machine is between forms at the outermost level. -/
theorem eq_of_unfinished (hrests : s.mode.rests = true) (hnone : s.unfinished = none) :
    s = ⟨s.forms, [], .blank⟩ := by
  obtain ⟨forms, stack, mode⟩ := s
  cases mode with
  | blank =>
    cases stack with
    | nil => rfl
    | cons top stack => cases top <;> cases hnone
  | string | tick | fields | colon => cases hnone
  | _ => cases hrests

/-- A source that is read leaves the machine between forms, with the forms in it. -/
theorem outcome_of_read {source : String} {fs : List Form} (h : read source = .ok fs) :
    (run false {} [] 0 source.toList).outcome = .ok ⟨fs.reverse, [], .blank⟩ := by
  obtain ⟨t, hrun, hnone, rfl⟩ := (Grammar.accepts_iff_run []).mp (Grammar.read_eq_ok_iff.mp h)
  rw [List.reverse_reverse, ← eq_of_unfinished (rests_of_run hrun) hnone]
  exact hrun

-- What is read of the two is what is read of the first, then the blank, then the second.
theorem run_between {source : String} {fs : List Form} {c : Char} (h : read source = .ok fs)
    (hc : ofChar c = .blank) (cs : List Char) :
    run false {} [] 0 (source.toList ++ c :: cs) =
      run false ⟨fs.reverse, [], .blank⟩ (c :: source.toList.reverse) (source.toList.length + 1)
        cs := by
  obtain ⟨hbefore, hpos⟩ := read_run (outcome_of_read h)
  rw [run_append cs (outcome_of_read h) hc, hbefore, hpos, run,
    settle_form (by rw [hc]; decide), List.append_nil, Nat.zero_add]
  simp only [Bool.false_and, Bool.false_eq_true, if_false, Grammar.take_blank hc]

/-- To read two sources with a blank between them is to read the second behind the first. -/
theorem all_between {source : String} {fs : List Form} {c : Char} (h : read source = .ok fs)
    (hc : ofChar c = .blank) (other : String) :
    Agree (ofSource (source ++ String.singleton c ++ other) []).all
      (moved (c :: source.toList.reverse) (fs ++ ·) (ofSource other []).all) := by
  have hbehind : Agree
      (resume false (State.shift (c :: source.toList.reverse).length fs.reverse {})
        ((ofSource other []).behind (c :: source.toList.reverse)) [])
      (moved (c :: source.toList.reverse) (fs.reverse.reverse ++ ·)
        (resume false {} (ofSource other []) [])) :=
    resume_behind (Nat.le_refl 0)
  rw [List.reverse_reverse] at hbehind
  refine Agree.trans (resume_nil_of_legs (agree_leg_of_run ?_)) hbehind
  show run false {} [] 0 (source ++ String.singleton c ++ other).toList =
    run false ⟨fs.reverse, [], .blank⟩ (c :: source.toList.reverse)
      (0 + (c :: source.toList.reverse).length) other.toList
  rw [toList_between, run_between h hc, List.length_cons, List.length_reverse, Nat.zero_add]

theorem context_malformed (r : Reader) (f : Fault) :
    (r.malformed f).context = " ### " ++ String.ofList r.buffer := by
  simp [Reader.malformed, Error.malformed, Error.context, String.join]

/-- What a reader without answers has been given: its source, and a blank if it has asked. -/
theorem buffer_of_no_answers (source : String) :
    (ofSource source []).all.2.buffer =
      source.toList ++ if (ofSource source []).all.2.exhausted then [' '] else [] := by
  have hprotocol : Protocol source [] (ofSource source []).all.2 := protocol_ofSource.start
  rw [hprotocol.buffer, given]
  simp [texts, lines]

/-- Reading keeps concatenation. If a source is read, then with a blank and a second source after it
the forms are those of the first and then those of the second; and if the second is faulty, so are
both, by the same message and with everything as its context. -/
theorem reading_keeps_concatenation {source : String} {fs : List Form} {c : Char}
    (h : read source = .ok fs) (hc : Text.isBlank c = true) (other : String) :
    let both := source ++ String.singleton c ++ other
    (∀ gs, read other = .ok gs → read both = .ok (fs ++ gs)) ∧
    ∀ e, read other = .error e → ∃ e', read both = .error e' ∧ e'.message = e.message ∧
      e'.context = " ### " ++ String.ofList (ofSource both []).all.2.buffer ∧
      (ofSource both []).all.2.buffer =
        both.toList ++ if (ofSource both []).all.2.exhausted then [' '] else [] := by
  intro both
  have hboth : read both =
      (moved (c :: source.toList.reverse) (fs ++ ·) (ofSource other []).all).1 :=
    (all_between h (ofChar_eq_blank hc) other).1
  unfold read at hboth ⊢
  generalize (ofSource other []).all = x at hboth
  obtain ⟨x, q⟩ := x
  refine ⟨?_, ?_⟩
  · rintro gs rfl
    exact hboth
  · rintro e rfl
    obtain ⟨f, hf⟩ := malformed_of_start hboth
    refine ⟨_, hboth, rfl, ?_, buffer_of_no_answers both⟩
    rw [hf]
    exact context_malformed _ f

theorem reading_keeps_concatenation_lines :
    read "(a)" = .ok [.expr [.symbol "a"]] ∧ Text.isBlank '\n' = true ∧
      read ("(a)" ++ String.singleton '\n' ++ "'b") = .ok [.expr [.symbol "a"], .str "b"] ∧
      ∃ e, read ("(a)" ++ String.singleton '\n' ++ "(b") = .error e ∧
        e.message = "mismatched open parenthesis ### (b " ∧ e.context = " ### (a)\n(b " := by
  have hread : read "(a)" = .ok [.expr [.symbol "a"]] := by cbv
  have hblank : Text.isBlank '\n' = true := by decide
  have hother : read "'b" = .ok [.str "b"] := by cbv
  have hfaulty : read "(b" =
      .error (.malformed "mismatched open parenthesis" "(b " "(b ") := by cbv
  refine ⟨hread, hblank, (reading_keeps_concatenation hread hblank "'b").1 _ hother, ?_⟩
  obtain ⟨e, he, hmessage, hcontext, -⟩ :=
    (reading_keeps_concatenation hread hblank "(b").2 _ hfaulty
  refine ⟨e, he, hmessage.trans (by decide), ?_⟩
  rw [hcontext]
  cbv

end Reader

end Lisplet
