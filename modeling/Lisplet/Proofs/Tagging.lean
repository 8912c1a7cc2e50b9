import Lisplet.Proofs.BareHalts
import Lisplet.Proofs.Evaluation
import Lisplet.Proofs.Lockstep

/-!
# Halts that are handed on

A computation that asks an engine for evaluations gets halts for answers, too. To see what it makes of
them, the engine is tagged: for each halt it answers with, something else is put in its place, which
depends on the request, on the state in which it was made and on the halt. What a computation does
with any tags at all says where each of its results is from.

A transparent computation has three ways to end. It comes to a value or halts of its own accord,
whatever the tags are, so there was no halt in any answer. Or one of the requests was answered by
a halt, and the computation ends with the tag of that halt, as it is. Nothing is added to an
error, nothing is taken away from it, and no value comes of it. Everything the language has is
transparent, with the exception of `try`.
-/

namespace Lisplet

open Eval Policy

/-! ## Requests and tags -/

inductive Request where
  /-- To evaluate a value as program text. -/
  | evaluate (v : Value)
  /-- To call a function with values. -/
  | apply (f : Value) (values : List Value)

/-- What to halt with in place of a halt, by the request it answers and the state in which that was
made. -/
abbrev Tags := Request → Interpreter → Halt → Halt

def retag {α : Type} (tag : Halt → Halt) :
    EStateM.Result Halt Interpreter α → EStateM.Result Halt Interpreter α
  | .error h j => .error (tag h) j
  | r => r

namespace Engine

def ask (e : Engine) : Request → Eval Value
  | .evaluate v => e.evaluate v
  | .apply f values => e.apply f values

/-- The engine with tags in place of the halts that it answers with. -/
def tagged (e : Engine) (φ : Tags) : Engine where
  fuel := e.fuel
  evaluate v i := retag (φ (.evaluate v) i) (e.evaluate v i)
  apply f values i := retag (φ (.apply f values) i) (e.apply f values i)

/-- Whatever is asked, the answer leaves depth and frames as they were, and no cell in use. -/
def Steady (e : Engine) : Prop :=
  ∀ (q : Request) (i : Interpreter), i.Keeps (i.run (e.ask q)).2

theorem steady_ofFuel (fuel : Nat) : (ofFuel fuel).Steady := by
  have hsound : (ofFuel fuel).Sound lax := sound_engine trivial fuel
  intro q i
  cases q with
  | evaluate v => exact (hsound.evaluate (lax_permissive.allows v)).keeps i
  | apply f vs =>
    exact (hsound.apply (lax_permissive.allows f) (lax_permissive.allowsAll vs)).keeps i

theorem Steady.keeps {e : Engine} (he : e.Steady) {q : Request} {i k : Interpreter} {h : Halt}
    (hend : e.ask q i = .error h k) : i.Keeps k := by
  have hkeeps := he q i
  rw [Interpreter.run, hend] at hkeeps
  exact hkeeps

theorem ask_tagged (e : Engine) (φ : Tags) (q : Request) (i : Interpreter) :
    (e.tagged φ).ask q i = retag (φ q i) (e.ask q i) := by
  cases q <;> rfl

theorem retag_id {α : Type} (r : EStateM.Result Halt Interpreter α) : retag id r = r := by
  cases r <;> rfl

/-- An engine is as it was, if its halts stand for themselves. -/
theorem tagged_id (e : Engine) : e.tagged (fun _ _ => id) = e := by
  cases e with
  | mk fuel evaluate apply =>
    simp only [tagged, retag_id]

theorem eq_of_tagged {α : Type} {e : Engine} {p : Engine → Eval α} {i : Interpreter}
    {r : EStateM.Result Halt Interpreter α} (h : ∀ φ, p (e.tagged φ) i = r) : p e i = r := by
  rw [← h fun _ _ => id, e.tagged_id]

end Engine

/-! ## Transparent computations -/

/-- How a transparent computation ends in state `i`, with `B` for the halts of its own that are not
bare. -/
inductive Engine.Traces {α : Type} (e : Engine) (B : Halt → Prop) (p : Engine → Eval α)
    (i : Interpreter) : Prop
  /-- With a value, and there was no halt. -/
  | value {a : α} {j : Interpreter} (idle : j.uses = [])
    (ends : ∀ φ, p (e.tagged φ) i = .ok a j) : Traces e B p i
  /-- With a halt of its own. -/
  | own {h : Halt} {j : Interpreter} (idle : j.uses = []) (bare : h.IsBare ∨ B h)
    (ends : ∀ φ, p (e.tagged φ) i = .error h j) : Traces e B p i
  /-- With the halt that has answered a request. -/
  | handed {q : Request} {h : Halt} {j k l : Interpreter} (start : k.uses = [])
    (asked : e.ask q k = .error h l) (idle : j.uses = []) (heap : j.heap = l.heap)
    (ends : ∀ φ, p (e.tagged φ) i = .error (φ q k h) j) : Traces e B p i

/-- A computation that hands on the halts of the requests it makes. -/
def Transparent {α : Type} (B : Halt → Prop) (p : Engine → Eval α) : Prop :=
  ∀ e : Engine, e.Steady → ∀ i : Interpreter, i.uses = [] → e.Traces B p i

theorem Transparent.mono {α : Type} {B B' : Halt → Prop} {p : Engine → Eval α}
    (hp : Transparent B p) (hB : ∀ h, B h → B' h) : Transparent B' p := by
  intro e he i hidle
  cases hp e he i hidle with
  | value idle ends => exact .value idle ends
  | own idle bare ends => exact .own idle (bare.imp_right (hB _)) ends
  | handed start asked idle heap ends => exact .handed start asked idle heap ends

section Rules

variable {α β : Type} {e : Engine} {B : Halt → Prop} {p q : Engine → Eval α}
  {f : α → Engine → Eval β} {i : Interpreter}

theorem Engine.Traces.congr (h : ∀ φ, p (e.tagged φ) i = q (e.tagged φ) i) (hq : e.Traces B q i) :
    e.Traces B p i := by
  cases hq with
  | value idle ends => exact .value idle fun φ => (h φ).trans (ends φ)
  | own idle bare ends => exact .own idle bare fun φ => (h φ).trans (ends φ)
  | handed start asked idle heap ends =>
    exact .handed start asked idle heap fun φ => (h φ).trans (ends φ)

theorem Engine.Traces.bind (hp : e.Traces B p i)
    (hf : ∀ a j, j.uses = [] → p e i = .ok a j → e.Traces B (f a) j) :
    e.Traces B (fun e => p e >>= fun a => f a e) i := by
  cases hp with
  | @value a j idle ends =>
    -- With any tags the first part comes to `a`, so they matter only to what follows.
    cases hf a j idle (Engine.eq_of_tagged ends) with
    | value idle next => exact .value idle fun φ => (bind_of_ok (ends φ)).trans (next φ)
    | own idle bare next => exact .own idle bare fun φ => (bind_of_ok (ends φ)).trans (next φ)
    | handed start asked idle heap next =>
      exact .handed start asked idle heap fun φ => (bind_of_ok (ends φ)).trans (next φ)
  | own idle bare ends => exact .own idle bare fun φ => bind_of_error (ends φ)
  | handed start asked idle heap ends =>
    exact .handed start asked idle heap fun φ => bind_of_error (ends φ)

-- A bracket changes nothing but the frames and the depth of the state that it is left in.
theorem Engine.Traces.closing {j : Interpreter} {back : Interpreter → Interpreter}
    (hp : e.Traces B p j) (hq : ∀ φ, q (e.tagged φ) i = Lockstep.closing back (p (e.tagged φ) j))
    (huses : ∀ k, (back k).uses = k.uses) (hheap : ∀ k, (back k).heap = k.heap) :
    e.Traces B q i := by
  cases hp with
  | @value a k idle ends =>
    refine .value (a := a) ((huses k).trans idle) fun φ => ?_
    rw [hq φ, ends φ]
    rfl
  | own idle bare ends =>
    refine .own ((huses _).trans idle) bare fun φ => ?_
    rw [hq φ, ends φ]
    rfl
  | handed start asked idle heap ends =>
    refine .handed start asked ((huses _).trans idle) ((hheap _).trans heap) fun φ => ?_
    rw [hq φ, ends φ]
    rfl

theorem Engine.Traces.descend (hp : e.Traces B p { i with depth := i.depth + 1 })
    (hidle : i.uses = []) : e.Traces B (fun e => Eval.descend (p e)) i := by
  by_cases hdepth : i.depth < i.maxDepth
  · have hclosing := fun φ => Lockstep.descend_eq_closing (p (e.tagged φ)) hdepth
    exact hp.closing hclosing (fun _ => rfl) fun _ => rfl
  · have hrefuse : ∀ e, Eval.descend (p e) i = .error (.error { cause := .depthExceeded }) i :=
      fun e => if_neg hdepth
    exact .own (h := .error { cause := .depthExceeded }) hidle (.inl rfl) fun φ => hrefuse _

/-- A computation that makes no request. -/
theorem transparent_of_halts {x : Eval α} (hx : x.Halts fun h => h.IsBare ∨ B h) :
    Transparent B fun _ => x := by
  intro e he i hidle
  have hend := hx i hidle
  cases hr : x i with
  | ok a j =>
    rw [hr] at hend
    exact .value hend fun φ => hr
  | error h j =>
    rw [hr] at hend
    exact .own hend.1 hend.2 fun φ => hr

theorem transparent_of_bare {x : Eval α} (hx : x.Bare) : Transparent B fun _ => x :=
  transparent_of_halts (hx.mono fun _ => .inl)

theorem transparent_pure (a : α) : Transparent B fun _ => (pure a : Eval α) :=
  transparent_of_bare (bare_pure a)

theorem transparent_fail (cause : Cause) : Transparent B fun _ => (fail cause : Eval α) :=
  transparent_of_bare (bare_fail cause)

theorem transparent_failWith (cause : String → Cause) (v : Value) :
    Transparent B fun _ => (failWith cause v : Eval α) :=
  transparent_of_bare (bare_failWith cause v)

theorem transparent_outOfFuel : Transparent B fun _ => (outOfFuel : Eval α) :=
  transparent_of_bare bare_outOfFuel

theorem transparent_missingArgument : Transparent B fun _ => (missingArgument : Eval α) :=
  transparent_of_bare bare_missingArgument

theorem transparent_bind (hp : Transparent B p) (hf : ∀ a, Transparent B (f a)) :
    Transparent B fun e => p e >>= fun a => f a e :=
  fun e he i hidle => (hp e he i hidle).bind fun a j hj _ => hf a e he j hj

theorem transparent_ite {c : Prop} [Decidable c] (hp : Transparent B p) (hq : Transparent B q) :
    Transparent B fun e => if c then p e else q e := by
  by_cases hc : c
  · simpa only [if_pos hc] using hp
  · simpa only [if_neg hc] using hq

theorem transparent_inFrame (r : Record Value) (hp : Transparent B p) :
    Transparent B fun e => inFrame r (p e) := by
  intro e he i hidle
  have htraces := hp e he { i with env := (i.env.scope r).1 } hidle
  have hclosing := fun φ => Lockstep.inFrame_eq_closing r (p (e.tagged φ)) i
  exact htraces.closing hclosing (fun _ => rfl) fun _ => rfl

theorem transparent_descend (hp : Transparent B p) : Transparent B fun e => descend (p e) :=
  fun e he i hidle => (hp e he { i with depth := i.depth + 1 } hidle).descend hidle

theorem transparent_ask (q : Request) : Transparent B fun e => e.ask q := by
  intro e he i hidle
  have huses := (he q i).uses.trans hidle
  have htagged := fun φ => e.ask_tagged φ q i
  unfold Interpreter.run at huses
  cases hr : e.ask q i with
  | ok a j =>
    rw [hr] at htagged huses
    exact .value huses htagged
  | error h j =>
    rw [hr] at htagged huses
    exact .handed hidle hr huses rfl htagged

end Rules

/-! ## Forms and bodies -/

section Constructs

variable {B : Halt → Prop}

theorem transparent_evaluate (v : Value) : Transparent B fun e => e.evaluate v :=
  transparent_ask (.evaluate v)

theorem transparent_apply (f : Value) (values : List Value) :
    Transparent B fun e => e.apply f values :=
  transparent_ask (.apply f values)

theorem transparent_value (form : Value) {next : Engine → Value → Eval Value}
    (hnext : ∀ v, Transparent B fun e => next e v) :
    Transparent B fun e => e.value form (next e) := by
  apply transparent_bind (transparent_evaluate form)
  intro v
  apply transparent_ite
  · exact transparent_of_bare (bare_escalate v)
  · exact hnext v

theorem transparent_sequence (forms : List Value) (result : Value) :
    Transparent B fun e => e.sequence forms result := by
  induction forms generalizing result with
  | nil => exact transparent_pure result
  | cons form rest ih => exact transparent_value form ih

theorem transparent_runLeg (labels : Record Nat) (pos : Nat) (result : Value)
    (forms : List Value) : Transparent B fun e => e.runLeg labels pos result forms := by
  induction forms generalizing labels pos result with
  | nil => exact transparent_pure _
  | cons form rest ih =>
    apply transparent_bind (transparent_evaluate form)
    intro v
    cases v with
    | leaving w => exact transparent_pure _
    | breaking w => exact transparent_pure _
    | goto target =>
      cases hget : labels.get? target with
      | some label => simpa only [hget] using transparent_pure _
      | none => simpa only [hget] using transparent_pure _
    | label name => exact ih _ _ _
    | _ => exact ih _ _ _

theorem transparent_runLegs (forms : List Value) (legs : Nat) (labels : Record Nat) (pos : Nat)
    (result : Value) : Transparent B fun e => e.runLegs forms legs labels pos result := by
  induction legs generalizing labels pos result with
  | zero => exact transparent_outOfFuel
  | succ legs ih =>
    apply transparent_bind (transparent_runLeg labels pos result (forms.drop pos))
    intro leg
    cases leg with
    | ended flow => exact transparent_pure flow
    | jump label labels result => exact ih labels (label + 1) result

-- An engine has as much fuel as before when it is tagged.
theorem transparent_fuel {α : Type} {p : Nat → Engine → Eval α} (hp : ∀ n, Transparent B (p n)) :
    Transparent B fun e => p e.fuel e :=
  fun e he i hidle => (hp e.fuel e he i hidle).congr fun _ => rfl

theorem transparent_runBody (forms : List Value) : Transparent B fun e => e.runBody forms :=
  transparent_fuel fun n => transparent_runLegs forms n _ _ _

theorem transparent_runIteration (frame : Record Value) (forms : List Value) :
    Transparent B fun e => e.runIteration frame forms :=
  transparent_inFrame frame (transparent_runBody forms)

/-! ## Conditionals, blocks and loops -/

open Builtin

theorem transparent_conditional (args : List Value) :
    Transparent B fun e => conditional e args := by
  match args with
  | [] | [_] => exact transparent_fail _
  | [condition, consequent] =>
    apply transparent_value condition
    intro v
    exact transparent_ite (transparent_evaluate consequent) (transparent_pure _)
  | [condition, consequent, alternative] =>
    apply transparent_value condition
    intro v
    exact transparent_ite (transparent_evaluate consequent) (transparent_evaluate alternative)
  | _ :: _ :: _ :: extra :: _ => exact transparent_failWith _ extra

theorem transparent_block (args : List Value) : Transparent B fun e => block e args := by
  cases args with
  | nil => exact transparent_missingArgument
  | cons locals forms =>
    apply transparent_bind (transparent_of_bare (bare_blockFrame locals))
    intro frame
    apply transparent_bind (transparent_inFrame frame (transparent_runBody forms))
    intro flow
    exact transparent_pure flow.toValue

theorem transparent_signalWith (signal : Value → Value) (args : List Value) :
    Transparent B fun e => signalWith signal e args := by
  match args with
  | [] => exact transparent_pure _
  | [form] => exact transparent_value form fun v => transparent_pure (signal v)
  | _ :: extra :: _ => exact transparent_failWith _ extra

theorem transparent_afterPass (flow : Flow) {next : Engine → Value → Eval Value}
    (hnext : ∀ v, Transparent B fun e => next e v) :
    Transparent B fun e => afterPass flow (next e) := by
  cases flow with
  | next v => exact hnext v
  | leave v => exact transparent_pure _
  | exit v => exact transparent_pure _
  | goto target => exact transparent_pure _

theorem transparent_repeatWhile (expected : Bool) (condition : Value) (body : List Value)
    (rounds : Nat) (result : Value) :
    Transparent B fun e => repeatWhile e expected condition body rounds result := by
  induction rounds generalizing result with
  | zero => exact transparent_outOfFuel
  | succ rounds ih =>
    apply transparent_value condition
    intro test
    apply transparent_ite (transparent_pure result)
    apply transparent_bind (transparent_runIteration [] body)
    intro flow
    exact transparent_afterPass flow ih

theorem transparent_conditionLoop (expected : Bool) (args : List Value) :
    Transparent B fun e => conditionLoop expected e args := by
  cases args with
  | nil => exact transparent_missingArgument
  | cons condition body =>
    exact transparent_fuel fun n => transparent_repeatWhile expected condition body n .nil

theorem transparent_repeatDo (condition : Value) (body : List Value) (rounds : Nat) :
    Transparent B fun e => repeatDo e condition body rounds := by
  induction rounds with
  | zero => exact transparent_outOfFuel
  | succ rounds ih =>
    apply transparent_bind (transparent_runIteration [] body)
    intro flow
    apply transparent_afterPass flow
    intro result
    apply transparent_value condition
    intro test
    exact transparent_ite ih (transparent_pure result)

theorem transparent_doLoop (args : List Value) : Transparent B fun e => doLoop e args := by
  cases args with
  | nil => exact transparent_missingArgument
  | cons condition body => exact transparent_fuel fun n => transparent_repeatDo condition body n

theorem transparent_repeatEndlessly (body : List Value) (rounds : Nat) :
    Transparent B fun e => repeatEndlessly e body rounds := by
  induction rounds with
  | zero => exact transparent_outOfFuel
  | succ rounds ih =>
    apply transparent_bind (transparent_runIteration [] body)
    intro flow
    exact transparent_afterPass flow fun _ => ih

theorem transparent_endlessLoop (args : List Value) :
    Transparent B fun e => endlessLoop e args := by
  cases args with
  | nil => exact transparent_fail _
  | cons form rest => exact transparent_fuel fun n => transparent_repeatEndlessly (form :: rest) n

theorem transparent_countPasses (name : String) (body : List Value) (passes : Nat) (k : Int)
    (result : Value) : Transparent B fun e => countPasses e name body passes k result := by
  induction passes generalizing k result with
  | zero => exact transparent_pure result
  | succ passes ih =>
    apply transparent_bind (transparent_runIteration [(name, .int (Int64.ofInt k))] body)
    intro flow
    exact transparent_afterPass flow (ih (k + 1))

theorem transparent_forLoop (args : List Value) : Transparent B fun e => forLoop e args := by
  match args with
  | [] | [_] | [_, _] => exact transparent_missingArgument
  | var :: first :: bound :: body =>
    apply transparent_bind (transparent_of_bare (bare_loopVariable var))
    intro name
    -- Bounds that are no integers are an error about the first one, whichever of them it is.
    by_cases hints : ∃ m n, first = .int m ∧ bound = .int n
    · obtain ⟨m, n, rfl, rfl⟩ := hints
      exact transparent_countPasses name body _ _ _
    · have hfail := transparent_failWith (α := Value) (B := B) (.typeMismatch .integer) first
      cases first <;> cases bound <;> first | exact hfail | exact absurd ⟨_, _, rfl, rfl⟩ hints

/-! ## Logic, assignment, `eval` and `apply` -/

theorem transparent_conjunction (forms : List Value) (result : Value) :
    Transparent B fun e => conjunction e forms result := by
  induction forms generalizing result with
  | nil => exact transparent_pure result
  | cons form rest ih =>
    apply transparent_value form
    intro v
    exact transparent_ite (transparent_pure Value.nil) (ih v)

theorem transparent_or (forms : List Value) : Transparent B fun e => Builtin.or e forms := by
  induction forms with
  | nil => exact transparent_pure Value.nil
  | cons form rest ih =>
    apply transparent_value form
    intro v
    exact transparent_ite (transparent_pure v) ih

theorem transparent_assignPath (path : String) (v : Value) :
    Transparent B fun _ => Eval.assign path v :=
  transparent_of_bare (bare_assign path v)

theorem transparent_assignTo (v target : Value) : Transparent B fun _ => assignTo v target := by
  cases target with
  | str path => exact transparent_assignPath path v
  | symbol path => exact transparent_assignPath path v
  | _ => exact transparent_failWith _ _

theorem transparent_assign (args : List Value) :
    Transparent B fun e => Builtin.assign e args := by
  match args with
  | [] => exact transparent_missingArgument
  | [target] => cases target <;> exact transparent_missingArgument
  | target :: v :: _ =>
    cases target with
    | symbol path => exact transparent_assignPath path v
    | _ => exact transparent_value _ (transparent_assignTo v)

theorem transparent_load (forms : List Form) : Transparent B fun _ => load forms :=
  transparent_of_bare (bare_load forms)

theorem transparent_eval (args : List Value) :
    Transparent (Operation.eval.Brings args) fun e => Builtin.eval e args := by
  cases args with
  | nil => exact transparent_missingArgument
  | cons v rest =>
    cases v with
    | str source =>
      -- An error of the reader is raised here, and it comes with a trail.
      have hread : Transparent (Operation.eval.Brings (.str source :: rest))
          fun _ => ofExcept (Lisplet.read source) := by
        apply transparent_of_halts
        intro i hidle
        cases hsource : Lisplet.read source with
        | ok forms => exact hidle
        | error err => exact ⟨hidle, .inr (.eval hsource)⟩
      apply transparent_bind hread
      intro forms
      apply transparent_bind (transparent_load forms)
      intro vs
      exact transparent_sequence vs .nil
    | _ => exact transparent_evaluate _

theorem transparent_applyList (args : List Value) :
    Transparent B fun e => Builtin.apply e args := by
  match args with
  | [] => exact transparent_missingArgument
  | [f] => exact transparent_missingArgument
  | f :: v :: _ =>
    cases v with
    | nil => exact transparent_apply f []
    | list cell =>
      apply transparent_bind (transparent_of_bare (bare_items cell))
      intro items
      exact transparent_apply f items
    | _ => exact transparent_failWith _ _

/-! ## Contracts, calls and literals -/

theorem transparent_bindArgs {evaluate : Engine → Value → Eval Value}
    (heval : ∀ v, Transparent B fun e => evaluate e v) (further : Kind) (kinds : List Kind)
    (args : List Value) : Transparent B fun e => bindArgs (evaluate e) further kinds args := by
  induction args generalizing kinds with
  | nil => exact transparent_pure _
  | cons arg more ih =>
    have hmore : ∀ v, Transparent B fun e =>
        bindArgs (evaluate e) further kinds.tail more >>= fun bound => pure (bound.cons v) :=
      fun v => transparent_bind (ih kinds.tail) fun bound => transparent_pure (bound.cons v)
    have hescalate : ∀ v, Transparent B fun _ => escalate v :=
      fun v => transparent_of_bare (bare_escalate v)
    have haccept : ∀ v, Transparent B fun _ => accept (kinds.headD further) v :=
      fun v => transparent_of_bare (bare_accept _ v)
    simp only [bindArgs_cons]
    apply transparent_ite (hmore arg)
    apply transparent_bind (heval arg)
    intro v
    apply transparent_ite
    · exact transparent_bind (hescalate v) fun s => transparent_pure (Bound.signal s)
    · exact transparent_bind (haccept v) hmore

theorem transparent_bindContract {evaluate : Engine → Value → Eval Value}
    (heval : ∀ v, Transparent B fun e => evaluate e v) (name : String) (contract : List Kind)
    (args : List Value) :
    Transparent B fun e => bindContract (evaluate e) name contract args := by
  unfold bindContract
  dsimp only
  apply transparent_ite (transparent_fail _)
  cases restKind? contract with
  | some kind => exact transparent_bindArgs heval _ _ args
  | none =>
    cases args.drop (fixedKinds contract).length with
    | nil => exact transparent_bindArgs heval _ _ args
    | cons extra more => exact transparent_failWith _ extra

theorem transparent_invoke (captured : Record Value) (params : List String) (body : Value)
    (args : List Value) : Transparent B fun e => e.invoke captured params body args := by
  apply transparent_inFrame
  apply transparent_bind (transparent_evaluate body)
  intro v
  exact transparent_of_bare (bare_closureResult v)

theorem transparent_arguments {next : Engine → List Value → Eval Value}
    (hnext : ∀ vs, Transparent B fun e => next e vs) (forms values : List Value) :
    Transparent B fun e => e.arguments (next e) forms values := by
  induction forms generalizing values with
  | nil => exact hnext values.reverse
  | cons form rest ih => exact transparent_value form fun v => ih (v :: values)

theorem transparent_newStruct (fields : Record Value) : Transparent B fun _ => newStruct fields :=
  transparent_of_bare (bare_newStruct fields)

theorem transparent_newStructOf (fields values : Record Value) :
    Transparent B fun e => e.newStructOf fields values := by
  induction fields generalizing values with
  | nil => exact transparent_newStruct values
  | cons field rest ih => exact transparent_value field.2 fun v => ih (values.insert field.1 v)

theorem transparent_literal (cell : Nat) : Transparent B fun e => e.step (.struct cell) := by
  apply transparent_descend
  apply transparent_bind (transparent_of_bare (bare_fields cell))
  intro r
  exact transparent_newStructOf r []

end Constructs

theorem run_eq_of_plain {op : Operation} (hplain : op.evaluates = false) (e e' : Engine)
    (args : List Value) : op.run e args = op.run e' args := by
  cases op <;> first | rfl | cases hplain

theorem transparent_run_of_plain {op : Operation} (hplain : op.evaluates = false)
    (args : List Value) : Transparent (op.Brings args) fun e => op.run e args := by
  intro e he i hidle
  apply (transparent_of_halts (halts_run (e := e) hplain args) e he i hidle).congr
  intro φ
  rw [run_eq_of_plain hplain (e.tagged φ) e]

/-- Every operation is transparent, with the exception of `try`. -/
theorem transparent_run {op : Operation} (hop : op ≠ .attempt) (args : List Value) :
    Transparent (op.Brings args) fun e => op.run e args := by
  cases op with
  | conditional => exact transparent_conditional args
  | block => exact transparent_block args
  | leave => exact transparent_signalWith _ args
  | exitLoop => exact transparent_signalWith _ args
  | whileLoop => exact transparent_conditionLoop true args
  | untilLoop => exact transparent_conditionLoop false args
  | doLoop => exact transparent_doLoop args
  | endlessLoop => exact transparent_endlessLoop args
  | forLoop => exact transparent_forLoop args
  | and => exact transparent_conjunction args .true
  | or => exact transparent_or args
  | assign => exact transparent_assign args
  | eval => exact transparent_eval args
  | apply => exact transparent_applyList args
  | attempt => exact absurd rfl hop
  | _ => exact transparent_run_of_plain rfl args

end Lisplet
