import Lisplet.Proofs.Tagging

/-!
# Where halts come from

A request halts of its own accord, or it hands on the halt of a request that was made to answer it.
`ComesTo` follows the requests from one to another: what the last of them ends with is what the first
one ends with, because each of them hands on the halt of the next one, whatever that halt is.

`try` stops an error and hands it to its handler. So it is not transparent, but the halts that leave
it are handed on all the same: they are those of its handler, or they are crashes and the lack of
fuel, which it does not stop.
-/

namespace Lisplet

open Eval Policy

/-- A crash or the lack of fuel. Nothing in the language catches it. -/
def Halt.Stops (h : Halt) : Prop :=
  ∀ err, h ≠ .error err

theorem Halt.stops_crash (c : Crash) : (Halt.crash c).Stops :=
  fun _ => Halt.noConfusion

theorem Halt.stops_outOfFuel : Halt.outOfFuel.Stops :=
  fun _ => Halt.noConfusion

theorem Halt.stops_or_error (h : Halt) : h.Stops ∨ ∃ err, h = .error err := by
  cases h with
  | error err => exact .inr ⟨err, rfl⟩
  | crash c => exact .inl (Halt.stops_crash c)
  | outOfFuel => exact .inl Halt.stops_outOfFuel

namespace Eval

variable {α : Type} {x : Eval α} {handler : Error → Eval α} {i k : Interpreter}

theorem rescue_of_error {err : Error} (h : x i = .error (.error err) k) :
    rescue x handler i = handler err k := by
  unfold rescue
  rw [h]

theorem rescue_of_stops {h : Halt} (hstop : h.Stops) (hx : x i = .error h k) :
    rescue x handler i = .error h k := by
  unfold rescue
  rw [hx]
  cases h with
  | error err => exact absurd rfl (hstop err)
  | crash c => rfl
  | outOfFuel => rfl

end Eval

/-- The tags leave all halts as they are but those of one request in one state, and there they put
no error in the place of anything else. -/
structure Tags.Single (φ : Tags) (q : Request) (k : Interpreter) : Prop where
  others : ∀ q' k' h, ¬ (q' = q ∧ k' = k) → φ q' k' h = h
  stops : ∀ h, h.Stops → (φ q k h).Stops

theorem Tags.single_id (q : Request) (k : Interpreter) : Tags.Single (fun _ _ => id) q k :=
  ⟨fun _ _ _ _ => rfl, fun _ => id⟩

namespace Engine

/-- The computation halts itself: it does so whatever its requests halt with. -/
def Raises {α : Type} (e : Engine) (p : Engine → Eval α) (i : Interpreter) (h : Halt)
    (j : Interpreter) : Prop :=
  ∀ φ, p (e.tagged φ) i = .error h j

/-- The computation hands on the halt of the request `q` made in state `k`: it ends with whatever
is put in the place of that halt, and with the heap that the request has left. -/
def HandsOn {α : Type} (e : Engine) (p : Engine → Eval α) (i : Interpreter) (q : Request)
    (k j : Interpreter) : Prop :=
  ∃ h l, e.ask q k = .error h l ∧ j.heap = l.heap ∧
    ∀ φ : Tags, φ.Single q k → p (e.tagged φ) i = .error (φ q k h) j

/-- The halts of the computation are its own or handed on. -/
def Faithful {α : Type} (e : Engine) (B : Halt → Prop) (p : Engine → Eval α) (i : Interpreter) :
    Prop :=
  ∀ h j, p e i = .error h j →
    e.Raises p i h j ∧ (h.IsBare ∨ B h) ∨ ∃ q k, k.uses = [] ∧ e.HandsOn p i q k j

variable {α β : Type} {e : Engine} {B : Halt → Prop} {i k j : Interpreter} {p : Engine → Eval α}
  {q : Request}

theorem eq_of_single {h : Halt}
    (hends : ∀ φ : Tags, φ.Single q k → p (e.tagged φ) i = .error (φ q k h) j) :
    p e i = .error h j := by
  have hself := hends (fun _ _ => id) (Tags.single_id q k)
  rwa [e.tagged_id] at hself

theorem HandsOn.eq_of_ask {h : Halt} {l : Interpreter} (hhand : e.HandsOn p i q k j)
    (hask : e.ask q k = .error h l) : p e i = .error h j := by
  obtain ⟨h', l', hask', -, hends⟩ := hhand
  cases hask.symm.trans hask'
  exact eq_of_single hends

theorem Traces.faithful (hp : e.Traces B p i) : e.Faithful B p i := by
  intro h j hend
  cases hp with
  | value idle ends => cases (eq_of_tagged ends).symm.trans hend
  | own idle bare ends =>
    cases (eq_of_tagged ends).symm.trans hend
    exact .inl ⟨ends, bare⟩
  | @handed q h' m k l start asked idle heap ends =>
    have hhalt : p e i = .error h' m := eq_of_single fun φ _ => ends φ
    cases hhalt.symm.trans hend
    exact .inr ⟨q, k, start, h, l, asked, heap, fun φ _ => ends φ⟩

theorem Traces.idle_of_ok {a : α} (hp : e.Traces B p i) (hend : p e i = .ok a j) :
    j.uses = [] := by
  cases hp with
  | value idle ends =>
    cases (eq_of_tagged ends).symm.trans hend
    exact idle
  | own idle bare ends => cases (eq_of_tagged ends).symm.trans hend
  | handed start asked idle heap ends =>
    cases (eq_of_single fun φ _ => ends φ).symm.trans hend

theorem Faithful.mono {B' : Halt → Prop} (hp : e.Faithful B p i) (hB : ∀ h, B h → B' h) :
    e.Faithful B' p i := by
  intro h j hend
  rcases hp h j hend with ⟨hraise, hbare⟩ | hhand
  · exact .inl ⟨hraise, hbare.imp_right (hB h)⟩
  · exact .inr hhand

-- What goes before must be transparent, so that tags do not keep it from coming to its value.
theorem Traces.bind_faithful {x : Engine → Eval α} {f : α → Engine → Eval β}
    (hx : e.Traces B x i)
    (hf : ∀ a j, j.uses = [] → x e i = .ok a j → e.Faithful B (f a) j) :
    e.Faithful B (fun e => x e >>= fun a => f a e) i := by
  cases hx with
  -- Nothing follows when the first part halts, so it is transparent as a whole.
  | own idle bare ends => exact Traces.faithful (.own idle bare fun φ => bind_of_error (ends φ))
  | handed start asked idle heap ends =>
    exact Traces.faithful (.handed start asked idle heap fun φ => bind_of_error (ends φ))
  | @value a k idle ends =>
    have hx : x e i = .ok a k := eq_of_tagged ends
    intro h j hend
    have hnext : f a e k = .error h j := (bind_of_ok hx).symm.trans hend
    rcases hf a k idle hx h j hnext with ⟨hraise, hbare⟩ | ⟨q, l, hl, h', m, hask, hheap, hends⟩
    · exact .inl ⟨fun φ => (bind_of_ok (ends φ)).trans (hraise φ), hbare⟩
    · refine .inr ⟨q, l, hl, h', m, hask, hheap, fun φ hφ => ?_⟩
      exact (bind_of_ok (ends φ)).trans (hends φ hφ)

theorem Faithful.descend
    (hp : i.depth < i.maxDepth → e.Faithful B p { i with depth := i.depth + 1 }) :
    e.Faithful B (fun e => Eval.descend (p e)) i := by
  intro h j hend
  by_cases hdepth : i.depth < i.maxDepth
  · have hclosing := fun e : Engine => Lockstep.descend_eq_closing (p e) hdepth
    replace hend := (hclosing e).symm.trans hend
    cases hr : p e { i with depth := i.depth + 1 } with
    | ok a k =>
      rw [hr] at hend
      cases hend
    | error h k =>
      rw [hr] at hend
      cases hend
      rcases hp hdepth h k hr with ⟨hraise, hbare⟩ | ⟨q, l, hl, h', m, hask, hheap, hends⟩
      · refine .inl ⟨fun φ => (hclosing _).trans ?_, hbare⟩
        rw [hraise φ]
        rfl
      · refine .inr ⟨q, l, hl, h', m, hask, hheap, fun φ hφ => (hclosing _).trans ?_⟩
        rw [hends φ hφ]
        rfl
  · have hrefuse : ∀ e, Eval.descend (p e) i = .error (.error { cause := .depthExceeded }) i :=
      fun e => if_neg hdepth
    cases (hrefuse e).symm.trans hend
    exact .inl ⟨fun φ => hrefuse _, .inl rfl⟩

/-! ## `try` -/

-- The handler is asked for in a frame of its own, so it is another request than the form.
theorem Steady.ne_scope (he : e.Steady) {h : Halt} (hend : e.ask q i = .error h k)
    (frame : Record Value) : i ≠ { k with env := (k.env.scope frame).1 } := by
  intro heq
  have hframes : k.env.frames.length = i.env.frames.length := by
    simpa using congrArg List.length (he.keeps hend).frames
  have hlength := congrArg (fun i : Interpreter => i.env.frames.length) heq
  simp only [Environment.scope, Environment.push, List.length_cons] at hlength
  omega

theorem Steady.faithful_rescue (he : e.Steady) (hidle : i.uses = []) (name : String)
    (form handler : Value) :
    e.Faithful B (fun e => rescue (e.evaluate form) fun err =>
      inFrame [(name, .error err)] (e.evaluate handler)) i := by
  intro h j hend
  have hform' := fun φ => e.ask_tagged φ (.evaluate form) i
  cases hform : e.evaluate form i with
  | ok a k =>
    simp only [rescue, hform] at hend
    cases hend
  | error halt k =>
    rcases halt.stops_or_error with hstop | ⟨caught, rfl⟩
    · -- A crash of the form goes by, and so does the lack of fuel.
      cases (rescue_of_stops hstop hform).symm.trans hend
      refine .inr ⟨.evaluate form, i, hidle, h, j, hform, rfl, fun φ hφ => ?_⟩
      apply rescue_of_stops (hφ.stops h hstop)
      simp only [tagged, hform, retag]
    · -- Now the handler decides: what leaves `try` is what leaves the handler.
      have hk : k.uses = [] := (he.keeps (q := .evaluate form) hform).uses.trans hidle
      have hne := he.ne_scope (q := .evaluate form) hform [(name, .error caught)]
      replace hend := (rescue_of_error hform).symm.trans hend
      rw [Lockstep.inFrame_eq_closing] at hend
      cases hhandler : e.evaluate handler
          { k with env := (k.env.scope [(name, .error caught)]).1 } with
      | ok a l =>
        rw [hhandler] at hend
        cases hend
      | error halt l =>
        rw [hhandler] at hend
        cases hend
        refine .inr ⟨.evaluate handler, { k with env := (k.env.scope [(name, .error caught)]).1 },
          hk, h, l, hhandler, rfl, ?_⟩
        intro φ hφ
        -- The tags spare the error of the form, so the handler still finds it under the name.
        have hcaught : (e.tagged φ).evaluate form i = .error (.error caught) k := by
          simp only [tagged, hform, retag, hφ.others (.evaluate form) i _ fun h => hne h.2]
        refine (rescue_of_error hcaught).trans ?_
        rw [Lockstep.inFrame_eq_closing]
        simp only [tagged, hhandler, retag, Lockstep.closing]

/-- The halts of `try` are about its name, those of its handler, or crashes and the lack of fuel on
the way to the value of its form. -/
theorem Steady.faithful_attempt (he : e.Steady) (hidle : i.uses = []) (args : List Value) :
    e.Faithful B (fun e => Builtin.attempt e args) i := by
  match args with
  | [] | [_] | [_, _] => exact (transparent_missingArgument e he i hidle).faithful
  | form :: name :: handler :: _ =>
    have hname := transparent_of_bare (B := B) (bare_handlerName name)
    apply (hname e he i hidle).bind_faithful
    intro name j hj _
    exact he.faithful_rescue hj name form handler

theorem Steady.faithful_run (he : e.Steady) (hidle : i.uses = []) (op : Operation)
    (args : List Value) : e.Faithful (op.Brings args) (fun e => op.run e args) i := by
  by_cases hop : op = .attempt
  · subst hop
    exact he.faithful_attempt hidle args
  · exact (transparent_run hop args e he i hidle).faithful

/-! ## Calls -/

/-- The operation that a function comes to perform when it is called with arguments, what it is
performed on, and in which state. -/
inductive Performs (evaluate : Value → Eval Value) :
    Value → List Value → Interpreter → Operation → List Value → Interpreter → Prop
  | primitive {id : Nat} {name : String} {op : Operation} {args : List Value} {i : Interpreter} :
    Performs evaluate (.primitive id name op) args i op args i
  | checked {id : Nat} {name : String} {contract : List Kind} {op : Operation}
      {args values : List Value} {i j : Interpreter} :
    bindContract evaluate name contract args i = .ok (.args values) j →
      Performs evaluate (.checked id name contract op) args i op values j

/-- The halts, other than bare ones, that may come of the call of a function itself. -/
def CallBrings (evaluate : Value → Eval Value) (callee : Value) (args : List Value)
    (i : Interpreter) (h : Halt) : Prop :=
  ∃ op values k, Performs evaluate callee args i op values k ∧ op.Brings values h

variable {callee : Value} {args values : List Value} {op : Operation}

theorem Performs.call_eq (h : Performs e.evaluate callee args i op values k) :
    e.call callee args i = op.run e values k := by
  cases h with
  | primitive => rfl
  | checked hbind => exact bind_of_ok hbind

theorem Performs.applyTo_eq (h : Performs pure callee args i op values k) :
    e.applyTo callee args i = op.run e values k := by
  cases h with
  | primitive => rfl
  | checked hbind => exact bind_of_ok hbind

theorem Performs.idle (he : e.Steady) (evaluate : Engine → Value → Eval Value)
    (heval : ∀ v, Transparent (fun _ => True) fun e => evaluate e v) (hidle : i.uses = [])
    (h : Performs (evaluate e) callee args i op values k) : k.uses = [] := by
  cases h with
  | primitive => exact hidle
  | @checked id name contract _ _ _ _ _ hbind =>
    exact (transparent_bindContract heval name contract args e he i hidle).idle_of_ok hbind

-- A checked primitive binds its arguments first, and this is transparent.
theorem Steady.faithful_checked (he : e.Steady) (hidle : i.uses = [])
    (evaluate : Engine → Value → Eval Value)
    (heval : ∀ B v, Transparent B fun e => evaluate e v) (id : Nat) (name : String)
    (contract : List Kind) (op : Operation) (args : List Value) :
    e.Faithful (CallBrings (evaluate e) (.checked id name contract op) args i)
      (fun e => bindContract (evaluate e) name contract args >>= fun b => e.runBound op b) i := by
  apply (transparent_bindContract (heval _) name contract args e he i hidle).bind_faithful
  intro bound j hj hbound
  cases bound with
  | args values =>
    apply (he.faithful_run hj op values).mono
    intro h hbring
    exact ⟨op, values, j, .checked hbound, hbring⟩
  | signal v => exact (transparent_pure v e he j hj).faithful

theorem Steady.faithful_call (he : e.Steady) (hidle : i.uses = []) (callee : Value)
    (args : List Value) :
    e.Faithful (CallBrings e.evaluate callee args i) (fun e => e.call callee args) i := by
  cases callee with
  | primitive id name op =>
    apply (he.faithful_run hidle op args).mono
    intro h hbring
    exact ⟨op, args, i, .primitive, hbring⟩
  | checked id name contract op =>
    exact he.faithful_checked hidle (·.evaluate) (fun _ => transparent_evaluate) id name contract op
      args
  | closure id captured params body =>
    apply Traces.faithful
    exact transparent_arguments (transparent_invoke captured params body) args [] e he i hidle
  | _ => exact (transparent_failWith _ _ e he i hidle).faithful

theorem Steady.faithful_applyTo (he : e.Steady) (hidle : i.uses = []) (callee : Value)
    (values : List Value) :
    e.Faithful (CallBrings pure callee values i) (fun e => e.applyTo callee values) i := by
  cases callee with
  | primitive id name op =>
    apply (he.faithful_run hidle op values).mono
    intro h hbring
    exact ⟨op, values, i, .primitive, hbring⟩
  | checked id name contract op =>
    exact he.faithful_checked hidle (fun _ => pure) (fun _ => transparent_pure) id name contract op
      values
  | closure id captured params body =>
    exact (transparent_invoke captured params body values e he i hidle).faithful
  | _ => exact (transparent_failWith _ _ e he i hidle).faithful

end Engine

/-! ## Requests -/

namespace Request

/-- What it takes to answer a request, without the breadcrumb that an expression leaves. -/
def program : Request → Engine → Eval Value
  | .evaluate (.expr forms), e => descend (e.callForm forms)
  | .evaluate v, e => e.step v
  | .apply f values, e => e.applyTo f values

def left : Request → List Value
  | .evaluate (.expr forms) => [.expr forms]
  | _ => []

/-- The operation that a request, made in state `i`, comes to perform, what it is performed on, and
in which state. -/
inductive Performs (e : Engine) :
    Request → Interpreter → Operation → List Value → Interpreter → Prop
  | expr {head callee : Value} {args values : List Value} {i j k : Interpreter} {op : Operation} :
    i.depth < i.maxDepth → e.evaluate head { i with depth := i.depth + 1 } = .ok callee j →
      callee.isSignal = false → Engine.Performs e.evaluate callee args j op values k →
        Performs e (.evaluate (.expr (head :: args))) i op values k
  | apply {f : Value} {values values' : List Value} {i k : Interpreter} {op : Operation} :
    Engine.Performs pure f values i op values' k → Performs e (.apply f values) i op values' k

def Brings (e : Engine) (q : Request) (i : Interpreter) (h : Halt) : Prop :=
  ∃ op values k, q.Performs e i op values k ∧ op.Brings values h

variable {e : Engine} {i j k : Interpreter} {q : Request} {op : Operation} {args : List Value}

theorem Performs.idle (he : e.Steady) (hidle : i.uses = []) (h : q.Performs e i op args k) :
    k.uses = [] := by
  cases h with
  | @expr head _ _ _ _ j _ _ _ hhead _ hcall =>
    have hj : j.uses = [] :=
      (transparent_evaluate (B := fun _ => True) head e he { i with depth := i.depth + 1 }
        hidle).idle_of_ok hhead
    exact hcall.idle he (·.evaluate) transparent_evaluate hj
  | apply hcall => exact hcall.idle he (fun _ => pure) transparent_pure hidle

/-- The request halts as the operation does that it performs. -/
theorem Performs.halts_iff (h : q.Performs e i op args k) {halt : Halt} :
    (∃ j, q.program e i = .error halt j) ↔ ∃ j, op.run e args k = .error halt j := by
  cases h with
  | @expr head callee forms values _ j _ _ hdepth hhead hsignal hcall =>
    have hform : e.callForm (head :: forms) { i with depth := i.depth + 1 } =
        op.run e args k := by
      refine (bind_of_ok hhead).trans ?_
      rw [hsignal]
      exact hcall.call_eq
    have hprogram : program (.evaluate (.expr (head :: forms))) e i =
        Lockstep.closing _ (op.run e args k) :=
      (Lockstep.descend_eq_closing _ hdepth).trans (congrArg _ hform)
    rw [hprogram]
    cases op.run e args k <;> simp [Lockstep.closing]
  | @apply f values _ _ _ _ hcall =>
    have hprogram : program (.apply f values) e i = op.run e args k := hcall.applyTo_eq
    rw [hprogram]

theorem faithful_callForm (he : e.Steady) (hidle : i.uses = []) (hdepth : i.depth < i.maxDepth)
    (forms : List Value) :
    e.Faithful (Brings e (.evaluate (.expr forms)) i) (fun e => e.callForm forms)
      { i with depth := i.depth + 1 } := by
  cases forms with
  | nil =>
    apply Engine.Traces.faithful
    exact transparent_pure _ e he { i with depth := i.depth + 1 } hidle
  | cons head args =>
    apply (transparent_evaluate head e he { i with depth := i.depth + 1 } hidle).bind_faithful
    intro callee j hj hcallee
    cases hsignal : callee.isSignal with
    | true =>
      have hescalate := transparent_of_bare (B := Brings e (.evaluate (.expr (head :: args))) i)
        (bare_escalate callee)
      exact (hescalate e he j hj).faithful
    | false =>
      apply (he.faithful_call hj callee args).mono
      rintro h ⟨op, values, k, hperform, hbring⟩
      exact ⟨op, values, k, .expr hdepth hcallee hsignal hperform, hbring⟩

/-- The halts of a request are its own or handed on, and its own are bare or those of the operation
that it performs. -/
theorem faithful_program (he : e.Steady) (hidle : i.uses = []) (q : Request) :
    e.Faithful (q.Brings e i) q.program i := by
  cases q with
  | apply f values =>
    apply (he.faithful_applyTo hidle f values).mono
    rintro h ⟨op, args, k, hperform, hbring⟩
    exact ⟨op, args, k, .apply hperform, hbring⟩
  | evaluate v =>
    cases v with
    | expr forms => exact .descend fun hdepth => faithful_callForm he hidle hdepth forms
    | list cell => exact (transparent_of_bare (bare_copyList cell) e he i hidle).faithful
    | struct cell => exact (transparent_literal cell e he i hidle).faithful
    | symbol path => exact (transparent_of_bare (bare_resolve path) e he i hidle).faithful
    | _ => exact (transparent_pure _ e he i hidle).faithful

end Request

/-! ## Breadcrumbs -/

namespace Error

def after (err : Error) (crumbs : List String) : Error :=
  { err with trail := err.trail ++ crumbs }

@[simp] theorem after_nil (err : Error) : err.after [] = err := by
  simp [after]

theorem after_append (err : Error) (crumbs more : List String) :
    err.after (crumbs ++ more) = (err.after crumbs).after more := by
  simp [after]

theorem message_after (err : Error) (crumbs : List String) :
    (err.after crumbs).message = err.message :=
  rfl

theorem context_after (err : Error) (crumbs : List String) :
    (err.after crumbs).context = err.context ++ String.join (crumbs.map (" ### " ++ ·)) := by
  simp [after, context, String.join_append]

end Error

variable {fuel n : Nat} {i j k : Interpreter} {q q' : Request} {h : Halt} {err : Error}

/-- A result after expressions were left: an error has their texts at the end of its trail. -/
def leaving (left : List Value) :
    EStateM.Result Halt Interpreter Value → EStateM.Result Halt Interpreter Value
  | .error (.error err) j => .error (.error (err.after (left.map j.heap.text))) j
  | r => r

theorem leaving_nil (r : EStateM.Result Halt Interpreter Value) : leaving [] r = r := by
  cases r with
  | ok a j => rfl
  | error h j =>
    cases h with
    | error err => simp [leaving]
    | crash c => rfl
    | outOfFuel => rfl

theorem leaving_of_stops {left : List Value} {r : EStateM.Result Halt Interpreter Value}
    (hstop : h.Stops) : leaving left r = .error h j ↔ r = .error h j := by
  cases r with
  | ok a k => exact .rfl
  | error h' k =>
    cases h' with
    | error err =>
      constructor <;> intro hr <;> cases hr
      · exact absurd rfl (hstop _)
      · exact absurd rfl (hstop _)
    | crash c => exact .rfl
    | outOfFuel => exact .rfl

theorem leavingCrumb_of_error {x : Eval Value} (hidle : j.uses = [])
    (h : x i = .error (.error err) j) (v : Value) :
    leavingCrumb v x i = .error (.error (err.after [j.heap.text v])) j := by
  have htext : text v j = .ok (j.heap.text v) j := looking_of_idle hidle _ _
  unfold leavingCrumb
  simp only [h, htext]
  rfl

/-- A request is answered by its program, and an expression leaves its text on an error. -/
theorem ask_succ (hidle : i.uses = []) (q : Request) (fuel : Nat) :
    (Engine.ofFuel (fuel + 1)).ask q i = leaving q.left (q.program (Engine.ofFuel fuel) i) := by
  cases q with
  | apply f values => exact (leaving_nil _).symm
  | evaluate v =>
    cases v with
    | expr forms =>
      have hsound : lax.Sound lax.Allows (descend ((Engine.ofFuel fuel).callForm forms)) :=
        sound_descend (sound_callForm (sound_engine trivial fuel) (lax_permissive.allowsAll forms))
      have hkeeps := hsound.keeps i
      show leavingCrumb (.expr forms) (descend ((Engine.ofFuel fuel).callForm forms)) i =
        leaving [.expr forms] (descend ((Engine.ofFuel fuel).callForm forms) i)
      unfold Interpreter.run at hkeeps
      cases hr : descend ((Engine.ofFuel fuel).callForm forms) i with
      | ok a j =>
        unfold leavingCrumb
        rw [hr]
        rfl
      | error h j =>
        cases h with
        | error err =>
          rw [hr] at hkeeps
          exact leavingCrumb_of_error (hkeeps.uses.trans hidle) hr (.expr forms)
        | _ =>
          unfold leavingCrumb
          rw [hr]
          rfl
    | _ => exact (leaving_nil _).symm

/-! ## From request to request -/

/-- With `fuel` to start from, the request `q` made in state `i` comes to the request `q'`, made in
state `k` with `n` units of fuel: each request from the one to the other hands on what the next one
halts with. -/
inductive ComesTo : Nat → Request → Interpreter → Nat → Request → Interpreter → Prop
  | here {fuel : Nat} {q : Request} {i : Interpreter} : ComesTo fuel q i fuel q i
  | through {fuel n : Nat} {q q' q'' : Request} {i j k l : Interpreter} :
    j.uses = [] → (Engine.ofFuel fuel).HandsOn q.program i q' j l →
      ComesTo fuel q' j n q'' k → ComesTo (fuel + 1) q i n q'' k

-- By induction on the way: nothing on it catches what is not an error.
theorem ComesTo.stops (hcome : ComesTo fuel q i n q' k) (hidle : i.uses = []) (hstop : h.Stops)
    (hend : ∃ l, (Engine.ofFuel n).ask q' k = .error h l) :
    ∃ l, (Engine.ofFuel fuel).ask q i = .error h l := by
  induction hcome with
  | here => exact hend
  | @through fuel _ q _ _ _ _ _ l hj hhand _ ih =>
    obtain ⟨_, hask⟩ := ih hj hend
    refine ⟨l, ?_⟩
    rw [ask_succ hidle, leaving_of_stops hstop]
    exact hhand.eq_of_ask hask

theorem ComesTo.idle (hcome : ComesTo fuel q i n q' k) (hidle : i.uses = []) : k.uses = [] := by
  induction hcome with
  | here => exact hidle
  | through hj _ _ ih => exact ih hj

-- By induction on the fuel: what the request does not raise, it hands on from one with less fuel.
/-- A crash has been raised by a request that the first one has come to: for lack of an argument,
or by the operation that this request has performed. -/
theorem exists_origin {c : Crash} (hidle : i.uses = [])
    (hend : (Engine.ofFuel fuel).ask q i = .error (.crash c) j) :
    ∃ n q' k, ComesTo fuel q i (n + 1) q' k ∧
      (∃ l, (Engine.ofFuel n).Raises q'.program k (.crash c) l) ∧
        (c = .missingArgument ∨ q'.Brings (Engine.ofFuel n) k (.crash c)) := by
  induction fuel generalizing q i j with
  | zero => cases q <;> cases hend
  | succ fuel ih =>
    rw [ask_succ hidle, leaving_of_stops (Halt.stops_crash c)] at hend
    rcases Request.faithful_program (Engine.steady_ofFuel fuel) hidle q _ j hend with
      ⟨hraise, hown⟩ | ⟨q', k, hk, hhand⟩
    · exact ⟨fuel, q, i, .here, ⟨j, hraise⟩, hown⟩
    · obtain ⟨h, l, hask, -, hends⟩ := id hhand
      cases hend.symm.trans (Engine.eq_of_single hends)
      obtain ⟨n, q'', m, hcome, horigin⟩ := ih hk hask
      exact ⟨n, q'', m, .through hk hhand hcome, horigin⟩

end Lisplet
