import Lisplet.CommandLine.Program
import Lisplet.Proofs.Crash
import Lisplet.Proofs.Dialogue
import Lisplet.Proofs.Requests

/-!
# The lines of a session

Three readers share the input of a session: the session itself takes the lines of the commands, the
source of a command goes on in the lines that it asks for, and its evaluation reads lines. This
module says which line goes to which of them. `Takes` describes one turn by what becomes of the
lines, and `Plays` a whole session. Each session plays in exactly one way, and the turns of
`Session.ofText` are the turns of that.
-/

namespace Lisplet

open Console (Exchange)

namespace Session

/-! ## Cutting the input into lines -/

/-- The lines of a text: none is empty, a line feed stands nowhere but at the end of a line, and only
the last line may be without. -/
structure Splits (input : String) (lines : List String) : Prop where
  join : String.join lines = input
  inner : ∀ line ∈ lines, line ≠ "" ∧ '\n' ∉ line.toList.dropLast
  ended : ∀ line ∈ lines.dropLast, line.toList.getLast? = some '\n'

-- A line with its line feed, in front of the lines of another text.
theorem Splits.cons {cs : List Char} (hcs : '\n' ∉ cs) {rest : String} {lines : List String}
    (h : Splits rest lines) :
    Splits (String.ofList (cs ++ ['\n']) ++ rest) (String.ofList (cs ++ ['\n']) :: lines) := by
  refine ⟨?_, ?_, ?_⟩
  · rw [String.join_cons, h.join]
  · intro line hline
    rcases List.mem_cons.mp hline with rfl | hline
    · rw [String.toList_ofList, List.dropLast_concat]
      exact ⟨by simp, hcs⟩
    · exact h.inner line hline
  · intro line hline
    by_cases hlast : lines = []
    · subst hlast
      cases hline
    · rw [List.dropLast_cons_of_ne_nil hlast] at hline
      rcases List.mem_cons.mp hline with rfl | hline
      · rw [String.toList_ofList, List.getLast?_concat]
      · exact h.ended line hline

theorem splits_linesFrom {line : List Char} (hline : '\n' ∉ line) (cs : List Char) :
    Splits (String.ofList (line.reverse ++ cs)) (linesFrom line cs) := by
  have hreverse : '\n' ∉ line.reverse := fun hmem => hline (List.mem_reverse.mp hmem)
  induction cs generalizing line with
  | nil =>
    unfold linesFrom
    by_cases hempty : line = []
    · subst hempty
      exact ⟨rfl, by simp, by simp⟩
    · rw [if_neg (by simpa using hempty), List.append_nil]
      refine ⟨by simp, ?_, by simp⟩
      intro l hl
      rw [List.mem_singleton.mp hl, String.toList_ofList]
      exact ⟨by simpa using hempty, fun hmem => hreverse (List.mem_of_mem_dropLast hmem)⟩
  | cons c cs ih =>
    unfold linesFrom
    by_cases hc : c = '\n'
    · subst hc
      have hrest : Splits (String.ofList cs) (linesFrom [] cs) := ih List.not_mem_nil List.not_mem_nil
      have hsplits := hrest.cons hreverse
      rw [← String.ofList_append, List.append_assoc] at hsplits
      rw [if_pos rfl, List.reverse_cons]
      exact hsplits
    · have hmore : '\n' ∉ c :: line := by
        simp [hline, Ne.symm hc]
      have hsplits := ih hmore fun hmem => hmore (List.mem_reverse.mp hmem)
      rw [List.reverse_cons, List.append_assoc] at hsplits
      rw [if_neg hc]
      exact hsplits

theorem splits_linesOf (input : String) : Splits input (linesOf input) := by
  have hsplits : Splits (String.ofList input.toList) (linesOf input) :=
    splits_linesFrom List.not_mem_nil input.toList
  rw [String.ofList_toList] at hsplits
  exact hsplits

/-! ## Turns -/

/-- The interpreter with the lines still to come. -/
def awaiting (i : Interpreter) (input : List String) : Interpreter :=
  { i with console := { i.console with input } }

/-- The interpreter as the evaluation of a command finds it: with lines to read, and nothing written
yet. -/
def facing (i : Interpreter) (input : List String) : Interpreter :=
  { i with console := { i.console with input, written := [] } }

/-- A turn by what becomes of the lines. -/
inductive Takes (fuel : Nat) : Interpreter → Turn → Interpreter → Prop
  /-- A blank line goes to nobody. -/
  | skipped {i : Interpreter} {line text : String} {rest : List String} :
      i.console.input = line :: rest → typedLine? line = some text →
      (Text.trim text.toList).isEmpty = true →
      Takes fuel i (.skipped line) (awaiting i rest)
  /-- Any other line is a command. Its source goes on in the lines it asks for, and the dialogue of
  its evaluation is about the lines after those. -/
  | command {i j : Interpreter} {line text : String} {continuation texts rest : List String}
      {xs : List Exchange} {outcome : Interpreter.Outcome} :
      i.console.input = line :: continuation ++ rest → typedLine? line = some text →
      (Text.trim text.toList).isEmpty = false →
      continuation.map typedLine? = texts.map some →
      Reader.Continues text texts (rest = []) →
      (facing i rest).run (evalForms fuel (Reader.ofSource text (texts.map some)).all.1) =
        (outcome, j) →
      (facing i rest).console.Converses xs j.console →
      Takes fuel i
        (.command line continuation (xs.flatMap Exchange.taken) (xs.flatMap Exchange.output)
          (outcome.map j.heap.text)) j

def Turn.crash? : Turn → Option Crash
  | .command _ _ _ _ (.error (.crash c)) => some c
  | _ => none

/-- A session by its turns: one after the other on the same interpreter, whatever they end in, until
no line is left. Only a crash ends it before that. -/
inductive Plays (fuel : Nat) : Interpreter → List Turn → Interpreter → Prop
  | done {i : Interpreter} : i.console.input = [] → Plays fuel i [] i
  | next {i j k : Interpreter} {turn : Turn} {turns : List Turn} : Takes fuel i turn j →
      turn.crash? = none → Plays fuel j turns k → Plays fuel i (turn :: turns) k
  | crashed {i j : Interpreter} {turn : Turn} {c : Crash} : Takes fuel i turn j →
      turn.crash? = some c → Plays fuel i [turn] j

variable {fuel : Nat} {i j j' k k' : Interpreter} {turn turn' : Turn} {turns turns' : List Turn}

/-! ## What a turn does to the lines and to the interpreter -/

/-- A turn takes its lines off the front. -/
theorem Takes.input_eq (h : Takes fuel i turn j) :
    i.console.input = turn.lines ++ j.console.input := by
  cases h with
  | skipped hinput _ _ => exact hinput
  | command hinput _ _ _ _ _ hxs =>
    have hrest := hxs.input_eq
    rw [hinput, List.cons_append, Turn.lines, List.cons_append, List.cons_append, List.append_assoc]
    exact congrArg (fun rest => _ :: (_ ++ rest)) hrest

theorem Turn.lines_ne_nil (turn : Turn) : turn.lines ≠ [] := by
  cases turn <;> exact List.cons_ne_nil _ _

-- The lines in which a source goes on cannot be told apart in two ways.
theorem continuation_unique {text : String}
    {continuation texts rest continuation' texts' rest' : List String}
    (hlines : continuation ++ rest = continuation' ++ rest')
    (htyped : continuation.map typedLine? = texts.map some)
    (htyped' : continuation'.map typedLine? = texts'.map some)
    (h : Reader.Continues text texts (rest = [])) (h' : Reader.Continues text texts' (rest' = [])) :
    continuation = continuation' ∧ texts = texts' ∧ rest = rest' := by
  rw [← List.map_eq_nil_iff (f := typedLine?)] at h h'
  have hanswers : texts.map some ++ rest.map typedLine? = texts'.map some ++ rest'.map typedLine? := by
    rw [← htyped, ← htyped', ← List.map_append, ← List.map_append, hlines]
  have hrest : rest.map typedLine? = rest'.map typedLine? := by
    rw [← h.answers_append, ← h'.answers_append, hanswers]
  have hlength : rest.length = rest'.length := by
    simpa using congrArg List.length hrest
  obtain ⟨rfl, rfl⟩ := List.append_inj' hlines hlength
  have htexts : texts.map some = texts'.map some := htyped.symm.trans htyped'
  exact ⟨rfl, List.map_injective_iff.mpr (Option.some_injective _) htexts, rfl⟩

/-- A turn is determined by the interpreter at its start. -/
theorem Takes.unique (h : Takes fuel i turn j) (h' : Takes fuel i turn' j') :
    turn' = turn ∧ j' = j := by
  cases h with
  | skipped hinput htext hblank =>
    cases h' with
    | skipped hinput' _ _ =>
      rw [hinput] at hinput'
      cases hinput'
      exact ⟨rfl, rfl⟩
    | command hinput' htext' hfull _ _ _ _ =>
      rw [hinput] at hinput'
      cases hinput'
      rw [htext] at htext'
      cases htext'
      rw [hblank] at hfull
      cases hfull
  | command hinput htext hfull htyped hcontinues hrun hxs =>
    cases h' with
    | skipped hinput' htext' hblank =>
      rw [hinput] at hinput'
      cases hinput'
      rw [htext] at htext'
      cases htext'
      rw [hblank] at hfull
      cases hfull
    | command hinput' htext' _ htyped' hcontinues' hrun' hxs' =>
      rw [hinput] at hinput'
      obtain ⟨rfl, hlines⟩ := List.cons_eq_cons.mp hinput'
      rw [htext] at htext'
      cases htext'
      obtain ⟨rfl, rfl, rfl⟩ :=
        continuation_unique hlines htyped htyped' hcontinues hcontinues'
      rw [hrun] at hrun'
      cases hrun'
      -- The dialogues may be told apart, but not by the lines they take or by what they write.
      have htaken := List.append_cancel_right (hxs'.input_eq.symm.trans hxs.input_eq)
      have houtput := List.append_cancel_left (hxs'.written_eq.symm.trans hxs.written_eq)
      rw [htaken, houtput]
      exact ⟨rfl, rfl⟩

/-- Operations keep getting the arguments they take for granted, so a turn can only crash because a
cell is in use. -/
theorem Takes.fitting (h : Takes fuel i turn j) (hi : Policy.fitting.Admits i) :
    Policy.fitting.Admits j ∧ ∀ c, turn.crash? = some c → c = .cellInUse := by
  cases h with
  | skipped _ _ _ => exact ⟨⟨hi.globals, hi.frames, hi.heap, hi.idle⟩, nofun⟩
  | @command _ _ text _ texts rest xs outcome _ _ _ _ _ hrun _ =>
    have hfacing : Policy.fitting.Admits (facing i rest) :=
      ⟨hi.globals, hi.frames, hi.heap, hi.idle⟩
    have hsound := Policy.sound_evalForms (P := .fitting) trivial fuel text (texts.map some)
    refine ⟨?_, ?_⟩
    · have hreaches := hsound.reaches hfacing
      rw [hrun] at hreaches
      exact hreaches.admits hfacing
    · intro c hc
      refine hsound.crash hfacing ?_
      rw [hrun]
      cases outcome with
      | ok v => cases hc
      | error h =>
        cases h with
        | crash d =>
          cases hc
          rfl
        | error e => cases hc
        | outOfFuel => cases hc

/-! ## Whole sessions -/

/-- The turns take the lines in order, and none is taken twice. -/
theorem Plays.input_eq (h : Plays fuel i turns j) :
    i.console.input = turns.flatMap Turn.lines ++ j.console.input := by
  induction h with
  | done _ => rfl
  | next hturn _ _ ih => rw [hturn.input_eq, ih, List.flatMap_cons, List.append_assoc]
  | crashed hturn _ => rw [hturn.input_eq, List.flatMap_singleton]

/-- A session without a crash takes every line. -/
theorem Plays.input_nil (h : Plays fuel i turns j) (hcrash : ∀ turn ∈ turns, turn.crash? = none) :
    j.console.input = [] := by
  induction h with
  | done hinput => exact hinput
  | next _ _ _ ih => exact ih fun turn hturn => hcrash turn (List.mem_cons_of_mem _ hturn)
  | crashed _ hc =>
    rw [hcrash _ (List.mem_singleton_self _)] at hc
    cases hc

theorem Takes.input_ne_nil (h : Takes fuel i turn j) : i.console.input ≠ [] := by
  rw [h.input_eq]
  exact fun hnil => turn.lines_ne_nil (List.append_eq_nil_iff.mp hnil).1

/-- There is one way to play a session. -/
theorem Plays.unique (h : Plays fuel i turns k) (h' : Plays fuel i turns' k') :
    turns' = turns ∧ k' = k := by
  induction h generalizing turns' with
  | done hinput =>
    cases h' with
    | done _ => exact ⟨rfl, rfl⟩
    | next hturn _ _ => exact absurd hinput hturn.input_ne_nil
    | crashed hturn _ => exact absurd hinput hturn.input_ne_nil
  | next hturn hnone hrest ih =>
    cases h' with
    | done hinput => exact absurd hinput hturn.input_ne_nil
    | next hturn' _ hrest' =>
      obtain ⟨rfl, rfl⟩ := hturn.unique hturn'
      obtain ⟨rfl, rfl⟩ := ih hrest'
      exact ⟨rfl, rfl⟩
    | crashed hturn' hsome =>
      obtain ⟨rfl, rfl⟩ := hturn.unique hturn'
      rw [hnone] at hsome
      cases hsome
  | crashed hturn hsome =>
    cases h' with
    | done hinput => exact absurd hinput hturn.input_ne_nil
    | next hturn' hnone _ =>
      obtain ⟨rfl, rfl⟩ := hturn.unique hturn'
      rw [hnone] at hsome
      cases hsome
    | crashed hturn' _ => exact ⟨by rw [(hturn.unique hturn').1], (hturn.unique hturn').2⟩

/-- Only the last turn can crash, and only because a cell is in use. -/
theorem Plays.crash_eq (h : Plays fuel i turns j) (hi : Policy.fitting.Admits i) {c : Crash}
    (hturn : turn ∈ turns) (hc : turn.crash? = some c) :
    c = .cellInUse ∧ turns.getLast? = some turn := by
  induction h with
  | done _ => cases hturn
  | next hfirst hnone hrest ih =>
    rcases List.mem_cons.mp hturn with rfl | hturn
    · rw [hnone] at hc
      cases hc
    · obtain ⟨hinUse, hlast⟩ := ih (hfirst.fitting hi).1 hturn
      refine ⟨hinUse, ?_⟩
      rw [List.getLast?_cons, hlast]
      rfl
  | crashed hlast _ =>
    cases List.mem_singleton.mp hturn
    exact ⟨(hlast.fitting hi).2 c hc, rfl⟩

/-! ## The turns of a session -/

theorem command_eq {line source : String} {following : List (Option String)}
    {forms : Except Error (List Form)} {reader : Reader} {continuation rest : List String}
    {outcome : Interpreter.Outcome} (hread : (Reader.ofSource source following).all = (forms, reader))
    (hinput : i.console.input = continuation ++ rest)
    (hcount : following.length - reader.answers.length = continuation.length)
    (htyped : (following.take continuation.length).contains none = false)
    (hrun : (facing i rest).run (evalForms fuel forms) = (outcome, j)) :
    command fuel i line source following =
      (.command line continuation (rest.take (rest.length - j.console.input.length))
        j.console.written.reverse (outcome.map j.heap.text), j) := by
  unfold facing at hrun
  unfold command
  rw [hread]
  dsimp only
  rw [hinput, hcount, htyped, if_neg Bool.false_ne_true, List.take_left, List.drop_left, hrun]

/-- The step: a command takes its line, then the lines it asks for, then those it reads. -/
theorem takes_command {line text : String} {rest texts : List String}
    (hinput : i.console.input = line :: rest) (htext : typedLine? line = some text)
    (hfull : (Text.trim text.toList).isEmpty = false)
    (htyped : rest.map typedLine? = texts.map some) :
    ∃ turn j, Takes fuel i turn j ∧
      command fuel (awaiting i rest) line text (texts.map some) = (turn, j) := by
  obtain ⟨taken, left, rfl, hcontinues, hforms, hanswers⟩ := Reader.exists_continues text texts
  rw [List.map_append] at htyped
  obtain ⟨continuation, rest, rfl, hcontinuation, hleft⟩ := List.map_eq_append_iff.mp htyped
  -- The typed lines are cut where the lines are.
  have htaken : taken.length = continuation.length := by
    simpa using congrArg List.length hcontinuation.symm
  have hcount : ((taken ++ left).map some).length - (left.map some).length =
      continuation.length := by
    simp only [List.length_map, List.length_append]
    omega
  have hsome : (((taken ++ left).map some).take continuation.length).contains none = false := by
    simp [← htaken]
  have hended : (left = []) = (rest = []) := by
    rw [← List.map_eq_nil_iff (f := typedLine?) (l := rest), hleft, List.map_eq_nil_iff]
  rw [hended] at hcontinues
  obtain ⟨xs, hxs⟩ := exists_converses_evalForms fuel text (taken.map some) (facing i rest)
  generalize hrun :
    (facing i rest).run (evalForms fuel (Reader.ofSource text (taken.map some)).all.1) = result
      at hxs
  obtain ⟨outcome, j⟩ := result
  refine ⟨_, j, .command hinput htext hfull hcontinuation hcontinues hrun hxs, ?_⟩
  generalize hread : (Reader.ofSource text ((taken ++ left).map some)).all = result
    at hforms hanswers
  obtain ⟨forms, reader⟩ := result
  dsimp only at hforms hanswers hxs
  rw [← hforms] at hrun
  rw [← hanswers] at hcount
  rw [command_eq (i := awaiting i (continuation ++ rest)) hread rfl hcount hsome hrun]
  -- What is missing from the lines afterwards is what the dialogue took.
  have hreads : rest = xs.flatMap Exchange.taken ++ j.console.input := hxs.input_eq
  have hwritten : j.console.written.reverse = xs.flatMap Exchange.output := hxs.written_eq
  have hlength : rest.length - j.console.input.length = (xs.flatMap Exchange.taken).length := by
    rw [hreads, List.length_append]
    omega
  rw [hlength, hwritten]
  nth_rewrite 1 [hreads]
  rw [List.take_left]

theorem run_skipped {line text : String} {rest : List String} (following : List (Option String))
    (turns : Nat) (hinput : i.console.input = line :: rest)
    (hblank : (Text.trim text.toList).isEmpty = true) :
    run fuel (turns + 1) (some text :: following) i =
      .skipped line :: run fuel turns following (awaiting i rest) := by
  conv_lhs => unfold run
  rw [hinput]
  exact if_pos hblank

theorem run_command {line text : String} {rest : List String} {following : List (Option String)}
    (turns : Nat) (hinput : i.console.input = line :: rest)
    (hfull : (Text.trim text.toList).isEmpty = false)
    (hcommand : command fuel (awaiting i rest) line text following = (turn, j)) :
    run fuel (turns + 1) (some text :: following) i =
      if turn.crash?.isSome then [turn]
      else turn :: run fuel turns (following.drop (turn.lines.length - 1)) j := by
  unfold awaiting at hcommand
  conv_lhs => unfold run
  rw [hinput]
  dsimp only
  rw [hfull, if_neg Bool.false_ne_true, hcommand]
  cases turn with
  | skipped _ => rfl
  | command _ _ _ _ outcome =>
    cases outcome with
    | ok _ => rfl
    | error h => cases h <;> rfl

-- The lines after those of a turn, which are its first line and some of the lines after it.
theorem drop_lines {line : String} {rest left : List String}
    (h : line :: rest = turn.lines ++ left) : left = rest.drop (turn.lines.length - 1) := by
  obtain ⟨first, others, hlines⟩ := List.exists_cons_of_ne_nil turn.lines_ne_nil
  rw [hlines, List.cons_append] at h
  rw [hlines, List.length_cons, Nat.add_sub_cancel, (List.cons_eq_cons.mp h).2, List.drop_left]

/-- A session over typed lines plays its turns. -/
theorem plays_run (turns : Nat) {texts : List String}
    (htyped : i.console.input.map typedLine? = texts.map some) (hturns : texts.length ≤ turns) :
    ∃ j, Plays fuel i (run fuel turns (texts.map some) i) j := by
  -- The induction is on the number of turns, which no turn can make smaller than that of lines.
  induction turns generalizing i texts with
  | zero =>
    have htexts : texts = [] := List.length_eq_zero_iff.mp (Nat.le_zero.mp hturns)
    subst htexts
    exact ⟨i, .done (List.map_eq_nil_iff.mp htyped)⟩
  | succ turns ih =>
    cases texts with
    | nil =>
      have hinput : i.console.input = [] := List.map_eq_nil_iff.mp htyped
      have hrun : run fuel (turns + 1) [] i = [] := by
        unfold run
        rw [hinput]
      rw [List.map_nil, hrun]
      exact ⟨i, .done hinput⟩
    | cons text texts =>
      obtain ⟨line, rest, hinput, htext, hrest⟩ := List.map_eq_cons_iff.mp htyped
      rw [List.length_cons] at hturns
      by_cases hblank : (Text.trim text.toList).isEmpty = true
      · obtain ⟨j, hj⟩ := ih (i := awaiting i rest) hrest (by omega)
        refine ⟨j, ?_⟩
        rw [List.map_cons, run_skipped _ _ hinput hblank]
        exact .next (.skipped hinput htext hblank) rfl hj
      · have hfull := eq_false_of_ne_true hblank
        obtain ⟨turn, j, htakes, hcommand⟩ := takes_command hinput htext hfull hrest
        rw [List.map_cons, run_command turns hinput hfull hcommand]
        cases hcrash : turn.crash? with
        | some c => exact ⟨j, .crashed htakes hcrash⟩
        | none =>
          have hleft : j.console.input.map typedLine? =
              (texts.drop (turn.lines.length - 1)).map some := by
            have hdrop : j.console.input = rest.drop (turn.lines.length - 1) :=
              drop_lines (hinput.symm.trans htakes.input_eq)
            rw [hdrop, List.map_drop, List.map_drop, hrest]
          obtain ⟨k, hk⟩ := ih hleft (by rw [List.length_drop]; omega)
          refine ⟨k, ?_⟩
          rw [List.map_drop] at hk
          exact .next htakes hcrash hk

def atStart (maxDepth : Nat) (input : String) : Interpreter :=
  .fresh maxDepth { input := linesOf input, terminated := true }

theorem console_fresh (maxDepth : Nat) (console : Console) :
    (Interpreter.fresh maxDepth console).console = console := by
  refine Interpreter.fresh_induction (motive := fun i => i.console = console) rfl
    (fun _ _ _ hi => hi) ?_
  intro i name target hi
  unfold Interpreter.defineAlias
  split
  · exact hi
  · exact hi

theorem input_atStart (maxDepth : Nat) (input : String) :
    (atStart maxDepth input).console.input = linesOf input := by
  unfold atStart
  rw [console_fresh]

/-- A session over a text plays its turns if every line can be typed. -/
theorem plays_ofText (fuel maxDepth : Nat) {input : String}
    (htyped : ∀ line ∈ linesOf input, (typedLine? line).isSome = true) :
    ∃ j, Plays fuel (atStart maxDepth input) (ofText fuel maxDepth input) j := by
  have htexts : (linesOf input).map typedLine? =
      ((linesOf input).map fun line => (typedLine? line).getD "").map some := by
    rw [List.map_map]
    refine List.map_congr_left fun line hline => ?_
    exact (Option.some_get (htyped line hline)).symm.trans
      (congrArg some (Option.get_eq_getD ..))
  have hinput : (atStart maxDepth input).console.input.map typedLine? =
      ((linesOf input).map fun line => (typedLine? line).getD "").map some := by
    rw [input_atStart]
    exact htexts
  unfold ofText
  dsimp only
  rw [htexts]
  exact plays_run (linesOf input).length hinput (by simp)

def Turn.isGivenUp : Turn → Bool
  | .command _ _ _ _ (.error .outOfFuel) => true
  | _ => false

end Session

/-! ## What a session puts out -/

namespace CommandLine

open Session (Turn Plays Splits atStart)

/-- What a turn adds to the output: a command adds what it wrote and then the text of its value or,
instead, one error. -/
inductive Contributes (color : Bool) : Turn → Report → Prop
  | skipped (line : String) : Contributes color (.skipped line) {}
  | value (line : String) (continuation reads : List String) (written : List Emission)
      (text : String) :
      Contributes color (.command line continuation reads written (.ok text))
        { stdout := Console.textOf written ++ text ++ "\n" }
  | error (line : String) (continuation reads : List String) (written : List Emission)
      (e : Error) :
      Contributes color (.command line continuation reads written (.error (.error e)))
        { stdout := Console.textOf written, stderr := errorLine color e.report }
  | crash (line : String) (continuation reads : List String) (written : List Emission)
      (c : Crash) (message : String) :
      Contributes color (.command line continuation reads written (.error (.crash c)))
        { code := 101, stdout := Console.textOf written, stderr := message }

variable {s : Surroundings} {settings : Settings}

theorem contributes_turnReport (hhistory : settings.history = none) {turn : Turn}
    (hends : turn.isGivenUp = false) :
    Contributes settings.colorEnabled turn (turnReport s settings turn) := by
  cases turn with
  | skipped line => exact .skipped line
  | command line continuation reads written outcome =>
    unfold turnReport
    rw [hhistory]
    cases outcome with
    | ok text => exact .value line continuation reads written text
    | error h =>
      cases h with
      | error e =>
        dsimp only [Option.bind_none]
        rw [String.append_empty]
        exact .error line continuation reads written e
      | crash c => exact .crash line continuation reads written c _
      | outOfFuel => cases hends

-- Either stream of the whole is the streams of the parts, one after the other.
theorem text_foldl {text : Report → String}
    (happend : ∀ r r', text (r.append r') = text r ++ text r') (reports : List Report) (r : Report) :
    text (reports.foldl Report.append r) = text r ++ String.join (reports.map text) := by
  induction reports generalizing r with
  | nil => simp
  | cons report reports ih =>
    rw [List.foldl_cons, ih, happend, List.map_cons, String.join_cons, String.append_assoc]

theorem code_foldl (reports : List Report) (r : Report) :
    (reports.foldl Report.append r).code = (reports.getLast?.getD r).code := by
  induction reports generalizing r with
  | nil => rfl
  | cons report reports ih =>
    rw [List.foldl_cons, ih, List.getLast?_cons]
    cases reports.getLast? <;> rfl

theorem runSession_eq (s : Surroundings) (settings : Settings) (input : String) :
    runSession s settings input =
      ((Session.ofText s.fuel settings.maxDepth input).map (turnReport s settings)).foldl
        Report.append {} :=
  List.foldl_map.symm

/-! ## The account of a session -/

/-- An account of a session over `input`: its turns, the interpreter it leaves, and what each turn
adds to the report of the whole. -/
structure Account (fuel maxDepth : Nat) (color : Bool) (input : String) (turns : List Turn)
    (j : Interpreter) (reports : List Report) (whole : Report) : Prop where
  /-- The turns take the lines as they should. -/
  plays : Plays fuel (atStart maxDepth input) turns j
  /-- There are no other turns that do. -/
  unique : ∀ {turns' j'}, Plays fuel (atStart maxDepth input) turns' j' → turns' = turns ∧ j' = j
  /-- Every line of the input belongs to one turn, in order, or is left over. -/
  lines : Splits input (turns.flatMap Turn.lines ++ j.console.input)
  contributions : List.Forall₂ (Contributes color) turns reports
  stdout : whole.stdout = String.join (reports.map Report.stdout)
  stderr : whole.stderr = String.join (reports.map Report.stderr)
  /-- Unless a turn crashes, no line is left over and the exit is normal. -/
  complete : (∀ turn ∈ turns, turn.crash? = none) → j.console.input = [] ∧ whole.code = 0
  /-- Only a cell in use makes a turn crash, and nothing comes after it. -/
  crash : ∀ turn ∈ turns, ∀ c, turn.crash? = some c →
    c = .cellInUse ∧ turns.getLast? = some turn ∧ whole.code = 101

theorem code_turnReport (turn : Turn) :
    (turnReport s settings turn).code = if turn.crash?.isSome then 101 else 0 := by
  cases turn with
  | skipped _ => rfl
  | command _ _ _ _ outcome =>
    cases outcome with
    | ok _ => rfl
    | error h => cases h <;> rfl

theorem code_of_getLast {turns : List Turn} {turn : Turn} (h : turns.getLast? = some turn) :
    ((turns.map (turnReport s settings)).foldl Report.append {}).code =
      if turn.crash?.isSome then 101 else 0 := by
  rw [code_foldl, List.getLast?_map, h]
  exact code_turnReport turn

theorem code_of_no_crash {turns : List Turn} (h : ∀ turn ∈ turns, turn.crash? = none) :
    ((turns.map (turnReport s settings)).foldl Report.append {}).code = 0 := by
  cases hlast : turns.getLast? with
  | none =>
    rw [List.getLast?_eq_none_iff.mp hlast]
    rfl
  | some turn =>
    rw [code_of_getLast hlast, h turn (List.mem_of_getLast? hlast)]
    rfl

/-- A session without a history accounts for every line of its input, if its lines can be typed and
every evaluation comes to an end. -/
theorem session_accounts_for_every_line (s : Surroundings) {args : List String} {options : Options}
    (hparse : parse args = .ok options) (hsource : options.source = none)
    (hcomplete : options.complete = none) (hhistory : options.noHistory = true) (input : String)
    (htyped : ∀ line ∈ Session.linesOf input, (Session.typedLine? line).isSome = true)
    (hends : ∀ turn ∈ Session.ofText s.fuel options.maxDepth input, turn.isGivenUp = false) :
    ∃ j reports, Account s.fuel options.maxDepth (options.settings s.terminal).colorEnabled input
      (Session.ofText s.fuel options.maxDepth input) j reports (run s args input) := by
  have hwhole : run s args input = runSession s (options.settings s.terminal) input := by
    unfold run
    rw [hparse]
    dsimp only
    rw [hcomplete, hsource]
  have hnone : (options.settings s.terminal).history = none := by
    unfold Options.settings
    rw [hhistory]
    rfl
  obtain ⟨j, hplays⟩ := Session.plays_ofText s.fuel options.maxDepth htyped
  rw [hwhole, runSession_eq]
  show ∃ j reports, Account _ _ _ _ (Session.ofText s.fuel options.maxDepth input) _ _
    (((Session.ofText s.fuel options.maxDepth input).map _).foldl Report.append {})
  -- From here on it does not matter where the turns are from.
  generalize Session.ofText s.fuel options.maxDepth input = turns at hends hplays ⊢
  have hlines : Session.linesOf input = turns.flatMap Turn.lines ++ j.console.input :=
    (Session.input_atStart options.maxDepth input).symm.trans hplays.input_eq
  have hadmits : Policy.fitting.Admits (atStart options.maxDepth input) :=
    (Interpreter.Reachable.fresh _ _).fitting_admits
  refine ⟨j, turns.map (turnReport s (options.settings s.terminal)), ?_⟩
  refine ⟨hplays, hplays.unique, ?_, ?_, ?_, ?_, ?_, ?_⟩
  · rw [← hlines]
    exact Session.splits_linesOf input
  · rw [List.forall₂_map_right_iff, List.forall₂_same]
    exact fun turn hturn => contributes_turnReport hnone (hends turn hturn)
  · exact (text_foldl (fun _ _ => rfl) _ _).trans String.empty_append
  · exact (text_foldl (fun _ _ => rfl) _ _).trans String.empty_append
  · exact fun hcrash => ⟨hplays.input_nil hcrash, code_of_no_crash hcrash⟩
  · intro turn hturn c hc
    obtain ⟨hinUse, hlast⟩ := hplays.crash_eq hadmits hturn hc
    refine ⟨hinUse, hlast, ?_⟩
    rw [code_of_getLast hlast, hc]
    rfl

-- A command of two lines that reads a third, then a blank line, then an error.
theorem session_accounts_for_every_line_mixed :
    (Session.ofText 6 400 "(list\n(read))\nx\n \n(first)\n").map Turn.lines =
      [["(list\n", "(read))\n", "x\n"], [" \n"], ["(first)\n"]] ∧
    ∃ j reports, Account 6 400 false "(list\n(read))\nx\n \n(first)\n"
      (Session.ofText 6 400 "(list\n(read))\nx\n \n(first)\n") j reports
      (run { entry := fun _ => none, fuel := 6 } ["--no-history"]
        "(list\n(read))\nx\n \n(first)\n") := by
  have hparse : parse ["--no-history"] = .ok { noHistory := true } := by cbv
  refine ⟨by decide +kernel, ?_⟩
  exact session_accounts_for_every_line { entry := fun _ => none, fuel := 6 } hparse rfl rfl rfl _
    (by decide +kernel) (by decide +kernel)

/-- A list written at an index that is the list itself ends the session: the line after it goes to
nobody. -/
theorem own_index_ends_session :
    let input := "(setq l (list 1))\n(set@ l l 0)\n(add 1 2)\n"
    let turns := Session.ofText 6 400 input
    let report := run { entry := fun _ => none, fuel := 6 } ["--no-history"] input
    (∀ line ∈ Session.linesOf input, (Session.typedLine? line).isSome = true) ∧
    (∀ turn ∈ turns, turn.isGivenUp = false) ∧
    Session.linesOf input = ["(setq l (list 1))\n", "(set@ l l 0)\n", "(add 1 2)\n"] ∧
    turns.flatMap Turn.lines = ["(setq l (list 1))\n", "(set@ l l 0)\n"] ∧
    report.code = 101 ∧ report.stdout = "'(1)\n" := by
  decide +kernel

end CommandLine

end Lisplet
