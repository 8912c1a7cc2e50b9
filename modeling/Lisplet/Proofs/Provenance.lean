import Lisplet.Proofs.Concatenation
import Lisplet.Proofs.Expressions
import Lisplet.Proofs.Trace

/-!
# Where errors come from

An error is raised by one request, which may have been made to answer another one, and so on. On its
way out it takes along the text of each expression that it leaves, and nothing else happens to it:
`Raised` follows the requests from where the error was raised to where it arrives, with the
expressions between the two, and the error that arrives is the one that was raised, with one
breadcrumb for each of the expressions, the innermost one first.

`try` stops an error and hands it to its handler, and the error that leaves it is one of the handler.
-/

namespace Lisplet

open Eval Policy

variable {fuel : Nat} {i j : Interpreter} {q : Request} {err raw : Error} {es : List Value}

/-! ## The way of an error -/

/-- The request `q`, made in state `i`, ends in state `j` with an error that was raised as `raw`,
while the expressions `es` were under evaluation for it, the innermost one first. -/
inductive Raised : Nat → Request → Interpreter → List Value → Error → Interpreter → Prop
  /-- The request raises the error itself. It has no trail, or one that the request has found. -/
  | own {fuel : Nat} {q : Request} {i j : Interpreter} {raw : Error} :
    (Engine.ofFuel fuel).Raises q.program i (.error raw) j →
      raw.trail = [] ∨ q.Brings (Engine.ofFuel fuel) i (.error raw) →
        Raised (fuel + 1) q i q.left raw j
  /-- A request that was made to answer `q` has raised the error, and it is handed on. -/
  | handed {fuel : Nat} {q q' : Request} {i j k l : Interpreter} {es : List Value} {raw : Error} :
    k.uses = [] → Raised fuel q' k es raw l →
      (Engine.ofFuel fuel).HandsOn q.program i q' k j → Raised (fuel + 1) q i (es ++ q.left) raw j

-- By induction on the requests that the error comes through, from the one that has raised it.
theorem Raised.ask_eq (h : Raised fuel q i es raw j) (hidle : i.uses = []) :
    (Engine.ofFuel fuel).ask q i = .error (.error (raw.after (es.map j.heap.text))) j := by
  induction h with
  | @own fuel q i j raw hraise _ =>
    have hprogram : q.program (Engine.ofFuel fuel) i = .error (.error raw) j :=
      Engine.eq_of_tagged hraise
    rw [ask_succ hidle, hprogram]
    rfl
  | @handed fuel q q' i j k l es raw hk _ hhand ih =>
    -- The error handed on is the one that the inner request ends with, in the same state.
    have hprogram := hhand.eq_of_ask (ih hk)
    obtain ⟨err, m, hask, hheap, -⟩ := hhand
    cases hask.symm.trans (ih hk)
    rw [ask_succ hidle, hprogram]
    simp only [leaving, hheap, List.map_append, Error.after_append]

-- By induction on the fuel: what the request does not raise, it hands on from one with less fuel.
theorem exists_raised (hidle : i.uses = [])
    (h : (Engine.ofFuel fuel).ask q i = .error (.error err) j) :
    ∃ es raw, Raised fuel q i es raw j ∧ err = raw.after (es.map j.heap.text) := by
  induction fuel generalizing q i err j with
  | zero => cases q <;> cases h
  | succ fuel ih =>
    rw [ask_succ hidle] at h
    cases hr : q.program (Engine.ofFuel fuel) i with
    | ok a k =>
      rw [hr] at h
      cases h
    | error halt k =>
      rw [hr] at h
      cases halt with
      | crash c => cases h
      | outOfFuel => cases h
      | error own =>
        cases h
        -- Its own errors are the start of a trail, the others go on with the trail they have.
        have hfaithful := Request.faithful_program (Engine.steady_ofFuel fuel) hidle q _ j hr
        rcases hfaithful with ⟨hraise, hbare⟩ | ⟨q', k, hk, hhand⟩
        · exact ⟨q.left, own, .own hraise hbare, rfl⟩
        · obtain ⟨h, l, hask, hheap, hends⟩ := id hhand
          cases hr.symm.trans (Engine.eq_of_single hends)
          obtain ⟨es, origin, hraised, rfl⟩ := ih hk hask
          refine ⟨es ++ q.left, origin, .handed hk hraised hhand, ?_⟩
          rw [List.map_append, Error.after_append, hheap]

/-! ## Where errors arrive -/

/-- `try` catches an error, and its handler finds it under the name, as it has arrived. -/
theorem Raised.attempt_eq {form name handler : Value} {n : String}
    (h : Raised fuel (.evaluate form) i es raw j) (hidle : i.uses = [])
    (hname : name.labelName? = some n) (hsimple : Path.isSimple n = true) :
    Builtin.attempt (Engine.ofFuel fuel) [form, name, handler] i =
      inFrame [(n, .error (raw.after (es.map j.heap.text)))] (evaluate fuel handler) j := by
  have hhandler : Builtin.handlerName name i = .ok n i := by
    cases name with
    | symbol s =>
      cases hname
      exact congrFun (if_pos hsimple) i
    | str s =>
      cases hname
      exact congrFun (if_pos hsimple) i
    | _ => cases hname
  exact (bind_of_ok hhandler).trans (rescue_of_error (h.ask_eq hidle))

/-- Whether a function is `try`, under whatever name. -/
def Value.catches : Value → Bool
  | .primitive _ _ op => op == .attempt
  | .checked _ _ _ op => op == .attempt
  | _ => false

theorem transparent_runBound {op : Operation} (hop : op ≠ .attempt) (b : Bound) :
    Transparent (fun _ => True) fun e => e.runBound op b := by
  cases b with
  | args values => exact (transparent_run hop values).mono fun _ _ => trivial
  | signal v => exact transparent_pure v

theorem transparent_call {callee : Value} (h : callee.catches = false) (args : List Value) :
    Transparent (fun _ => True) fun e => e.call callee args := by
  cases callee with
  | primitive id name op =>
    exact (transparent_run (by simpa [Value.catches] using h) args).mono fun _ _ => trivial
  | checked id name contract op =>
    apply transparent_bind (transparent_bindContract transparent_evaluate name contract args)
    exact transparent_runBound (by simpa [Value.catches] using h)
  | closure id captured params body =>
    exact transparent_arguments (transparent_invoke captured params body) args []
  | _ => exact transparent_failWith _ _

theorem transparent_applyTo {callee : Value} (h : callee.catches = false) (values : List Value) :
    Transparent (fun _ => True) fun e => e.applyTo callee values := by
  cases callee with
  | primitive id name op =>
    exact (transparent_run (by simpa [Value.catches] using h) values).mono fun _ _ => trivial
  | checked id name contract op =>
    apply transparent_bind (transparent_bindContract transparent_pure name contract values)
    exact transparent_runBound (by simpa [Value.catches] using h)
  | closure id captured params body => exact transparent_invoke captured params body values
  | _ => exact transparent_failWith _ _

def Value.strayCause? : Value → Option Cause
  | .leaving _ => some .strayReturn
  | .breaking _ => some .strayBreak
  | .goto target => some (.gotoTargetNotFound target)
  | .label _ => some .improperLabels
  | _ => none

/-- The error with which the forms of a source end when they are evaluated one after the other. -/
inductive Surfaces (fuel : Nat) : List Value → Interpreter → Error → Interpreter → Prop
  /-- An error that has left the form. -/
  | raised {form : Value} {rest es : List Value} {i j : Interpreter} {raw : Error} :
    Raised fuel (.evaluate form) i es raw j →
      Surfaces fuel (form :: rest) i (raw.after (es.map j.heap.text)) j
  /-- A signal that has left the form: the error about it has the form for its only breadcrumb. -/
  | stray {form v : Value} {rest : List Value} {i j : Interpreter} {cause : Cause} :
    evaluate fuel form i = .ok v j → v.strayCause? = some cause →
      Surfaces fuel (form :: rest) i (Error.after { cause } [j.heap.text form]) j
  /-- The form has come to a value, and one of the others ends with the error. -/
  | later {form v : Value} {rest : List Value} {i j k : Interpreter} {err : Error} :
    evaluate fuel form i = .ok v j → v.strayCause? = none → Surfaces fuel rest j err k →
      Surfaces fuel (form :: rest) i err k

theorem settled_of_stray {form v : Value} {cause : Cause} (hidle : j.uses = [])
    (h : v.strayCause? = some cause) :
    settled form v j = .error (.error (Error.after { cause } [j.heap.text form])) j := by
  have hstray : stray cause form j =
      .error (.error (Error.after { cause } [j.heap.text form])) j :=
    leavingCrumb_of_error hidle rfl form
  cases v with
  | leaving v =>
    cases h
    exact hstray
  | breaking v =>
    cases h
    exact hstray
  | goto target =>
    cases h
    exact hstray
  | label name =>
    cases h
    exact hstray
  | _ => cases h

theorem settled_of_not_stray {form v : Value} (h : v.strayCause? = none) (j : Interpreter) :
    settled form v j = .ok v j := by
  cases v with
  | leaving v => cases h
  | breaking v => cases h
  | goto target => cases h
  | label name => cases h
  | _ => rfl

/-- The forms of a source end with an error in the ways that `Surfaces` has. -/
theorem evalTop_eq_error_iff {forms : List Value} {result : Value} (hidle : i.uses = []) :
    evalTop fuel forms result i = .error (.error err) j ↔ Surfaces fuel forms i err j := by
  constructor
  · intro h
    induction forms generalizing i result with
    | nil => cases h
    | cons form rest ih =>
      cases hform : evaluate fuel form i with
      | error halt k =>
        rw [evalTop, bind_of_error hform] at h
        cases h
        obtain ⟨es, raw, hraised, rfl⟩ := exists_raised (q := .evaluate form) hidle hform
        exact .raised hraised
      | ok v k =>
        -- A signal has nowhere to go from here, and its error has left no expression.
        have hk := uses_of_ok hidle hform
        rw [evalTop, bind_of_ok hform] at h
        cases hstray : v.strayCause? with
        | some cause =>
          rw [bind_of_error (settled_of_stray hk hstray)] at h
          cases h
          exact .stray hform hstray
        | none =>
          rw [bind_of_ok (settled_of_not_stray hstray k)] at h
          exact .later hform hstray (ih hk h)
  · intro h
    induction h generalizing result with
    | @raised form rest es i j raw hraised =>
      rw [evalTop]
      exact bind_of_error (hraised.ask_eq hidle)
    | @stray form v rest i j cause hform hstray =>
      rw [evalTop, bind_of_ok hform]
      exact bind_of_error (settled_of_stray (uses_of_ok hidle hform) hstray)
    | @later form v rest i j k err hform hstray _ ih =>
      rw [evalTop, bind_of_ok hform, bind_of_ok (settled_of_not_stray hstray j)]
      exact ih (uses_of_ok hidle hform)

/-- The context of an error of the reader is all the text that the reader has. -/
theorem context_of_read {source : String} (h : read source = .error err) :
    err.context = " ### " ++ String.ofList (Reader.ofSource source []).all.2.buffer := by
  obtain ⟨f, hf⟩ := Reader.malformed_of_start h
  rw [hf]
  exact Reader.context_malformed _ f

/-- Errors arrive as they were raised, with one breadcrumb for each expression that they have left.
An error that answers a request was raised somewhere on the way, bare or with the trail it had as
a value or from the reader, and the texts of the expressions between come after its own context, the
innermost one first. This is the error that a `try` hands to its handler, and the one with which
a source ends. On the way, calls and struct literals neither change an error nor make a value of it,
with the exception of `try`. -/
theorem errors_arrive_as_raised (fuel : Nat) :
    -- What arrives is what was raised, with the texts of the expressions between.
    (∀ (q : Request) (i j : Interpreter) (err : Error), i.uses = [] →
      ((Engine.ofFuel fuel).ask q i = .error (.error err) j ↔
        ∃ es raw, Raised fuel q i es raw j ∧ err = raw.after (es.map j.heap.text))) ∧
    -- The texts go to the end of the context, each after a separator.
    (∀ (raw : Error) (crumbs : List String), (raw.after crumbs).message = raw.message ∧
      (raw.after crumbs).context = raw.context ++ String.join (crumbs.map (" ### " ++ ·))) ∧
    -- An error of the reader is raised with the whole text for its context.
    (∀ (source : String) (err : Error), read source = .error err →
      err.context = " ### " ++ String.ofList (Reader.ofSource source []).all.2.buffer) ∧
    -- The handler of a `try`, called or applied, finds the error under its name, as it has arrived.
    (∀ (id : Nat) (word n : String) (form name handler : Value) (es : List Value)
        (i j : Interpreter) (raw : Error), i.uses = [] → name.labelName? = some n →
      Path.isSimple n = true → Raised fuel (.evaluate form) i es raw j →
        (Engine.ofFuel fuel).call
            (.checked id word [.unevaluated, .unevaluated, .unevaluated] .attempt)
            [form, name, handler] i =
          inFrame [(n, .error (raw.after (es.map j.heap.text)))] (evaluate fuel handler) j ∧
        (Engine.ofFuel fuel).applyTo
            (.checked id word [.unevaluated, .unevaluated, .unevaluated] .attempt)
            [form, name, handler] i =
          inFrame [(n, .error (raw.after (es.map j.heap.text)))] (evaluate fuel handler) j) ∧
    -- Calls and literals hand on the errors of what they evaluate, and nothing comes of them.
    (∀ callee : Value, callee.catches = false → ∀ args : List Value,
      (Transparent (fun _ => True) fun e => e.call callee args) ∧
        Transparent (fun _ => True) fun e => e.applyTo callee args) ∧
    (∀ cell : Nat, Transparent (fun _ => False) fun e => e.step (.struct cell)) ∧
    -- A source ends with an error that has left one of its forms, or over a stray signal.
    (∀ (forms : List Form) (i j : Interpreter) (err : Error), i.uses = [] →
      (evalForms fuel (.ok forms) i = .error (.error err) j ↔
        Surfaces fuel (i.heap.loadAll forms).1 { i with heap := (i.heap.loadAll forms).2 } err
          j)) := by
  refine ⟨?_, ?_, ?_, ?_, ?_, ?_, ?_⟩
  · intro q i j err hidle
    constructor
    · exact exists_raised hidle
    · rintro ⟨es, raw, hraised, rfl⟩
      exact hraised.ask_eq hidle
  · intro raw crumbs
    exact ⟨raw.message_after crumbs, raw.context_after crumbs⟩
  · intro source err h
    exact context_of_read h
  · intro id word n form name handler es i j raw hidle hname hsimple hraised
    exact ⟨hraised.attempt_eq hidle hname hsimple, hraised.attempt_eq hidle hname hsimple⟩
  · intro callee hcallee args
    exact ⟨transparent_call hcallee args, transparent_applyTo hcallee args⟩
  · exact transparent_literal
  · intro forms i j err hidle
    exact evalTop_eq_error_iff (i := { i with heap := (i.heap.loadAll forms).2 }) hidle

def Value.tryFunction : Value :=
  .checked 2 "try" [.unevaluated, .unevaluated, .unevaluated] .attempt

def Interpreter.catching : Interpreter where
  env := {
    globals := [
      ("list", .checked 0 "list" [.rest] .list),
      ("throw", .checked 1 "throw" [.any] .throw),
      ("try", .tryFunction)] }
  maxDepth := 9

-- An expression inside another one, with an error raised in the inner one: what the handler of
-- a `try` finds, and what a source ends with.
theorem errors_arrive_as_raised_nested :
    let outer : Value := .expr [.symbol "list", .expr [.symbol "throw", .str "no"]]
    let form : Form := .expr [.symbol "list", .expr [.symbol "throw", .str "no"]]
    ∃ err : Error, err.message = "no" ∧
      err.context = " ### (throw \"no\") ### (list (throw \"no\"))" ∧
      (Engine.ofFuel 3).ask (.evaluate outer) .catching = .error (.error err) .catching ∧
      (Engine.ofFuel 3).call .tryFunction [outer, .symbol "e", .symbol "e"] .catching =
        .ok (.error err) .catching ∧
      evalForms 3 (.ok [form]) .catching = .error (.error err) .catching := by
  intro outer form
  let raw : Error := { cause := .thrown "no" }
  let inner : Value := .expr [.symbol "throw", .str "no"]
  have hinner : Raised 2 (.evaluate inner) (Interpreter.catching.deeper 1) [inner] raw
      (Interpreter.catching.deeper 1) :=
    .own (fun _ => rfl) (.inl rfl)
  have houter : Raised 3 (.evaluate outer) .catching [inner, outer] raw .catching :=
    .handed rfl hinner ⟨_, _, rfl, rfl, fun _ _ => rfl⟩
  obtain ⟨hask, htext, -, htry, -, -, htop⟩ := errors_arrive_as_raised 3
  refine ⟨raw.after [_, _], (htext raw _).1, ?_, (hask _ _ _ _ rfl).mpr ⟨_, raw, houter, rfl⟩,
    ?_, ?_⟩
  · rw [(htext raw _).2]
    rfl
  · have hcaught := htry 2 "try" "e" outer (.symbol "e") (.symbol "e") _ _ _ raw rfl rfl rfl houter
    exact hcaught.1.trans rfl
  · exact (htop _ _ _ _ rfl).mpr (.raised houter)

end Lisplet
