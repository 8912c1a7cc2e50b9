import Lisplet.Proofs.Operations

/-!
# Evaluation is sound

Bodies, loops, functions and calls are sound with a sound engine, so one step of evaluation is, and
by induction on the fuel all of evaluation. Under the lax policy this says of every evaluation, from
every state and however it ends, that its effects are those of `Policy.Reaches`.
-/

namespace Lisplet

open Eval Builtin

theorem bindArgs_cons {evaluate : Value → Eval Value} {further : Kind} {kinds : List Kind}
    {arg : Value} {more : List Value} :
    bindArgs evaluate further kinds (arg :: more) =
      let bindMore v := bindArgs evaluate further kinds.tail more >>= fun bound => pure (bound.cons v)
      if (kinds.headD further).isUnevaluated then bindMore arg
      else evaluate arg >>= fun v =>
        if v.isSignal then escalate v >>= fun s => pure (.signal s)
        else accept (kinds.headD further) v >>= bindMore :=
  rfl

namespace Policy

variable {P : Policy} {e : Engine}

/-! ## Bodies -/

def AllowsFlow (P : Policy) : Flow → Prop
  | .next v => P.Allows v
  | .leave v => P.Allows v
  | .exit v => P.Allows v
  | .goto _ => P.jump

def AllowsLeg (P : Policy) : Leg → Prop
  | .ended flow => P.AllowsFlow flow
  | .jump _ _ result => P.jump ∧ P.Allows result

theorem AllowsFlow.toValue {flow : Flow} (h : P.AllowsFlow flow) : P.Allows flow.toValue := by
  cases flow <;> exact h

theorem sound_runLeg (he : e.Sound P) {forms : List Value} (hforms : P.AllowsAll forms)
    (labels : Record Nat) (pos : Nat) {result : Value} (hresult : P.Allows result) :
    P.Sound P.AllowsLeg (e.runLeg labels pos result forms) := by
  induction forms generalizing labels pos result with
  | nil => exact sound_pure (Q := P.AllowsLeg) hresult
  | cons form rest ih =>
    refine sound_bind (he.evaluate hforms.1) fun v hv => ?_
    split
    next => exact sound_pure (Q := P.AllowsLeg) hv
    next => exact sound_pure (Q := P.AllowsLeg) hv
    next =>
      split
      · exact sound_pure (Q := P.AllowsLeg) ⟨hv, hresult⟩
      · exact sound_pure (Q := P.AllowsLeg) hv
    next => exact ih hforms.2 _ _ trivial
    next => exact ih hforms.2 _ _ hv

theorem sound_runLegs (he : e.Sound P) {forms : List Value} (hforms : P.AllowsAll forms)
    (legs : Nat) (labels : Record Nat) (pos : Nat) {result : Value} (hresult : P.Allows result) :
    P.Sound P.AllowsFlow (e.runLegs forms legs labels pos result) := by
  induction legs generalizing labels pos result with
  | zero => exact sound_outOfFuel he.exhaust
  | succ legs ih =>
    refine sound_bind (sound_runLeg he (hforms.drop pos) labels pos hresult) fun leg hleg => ?_
    cases leg with
    | ended flow => exact sound_pure hleg
    | jump label labels result => exact ih labels (label + 1) hleg.2

theorem sound_runBody (he : e.Sound P) {forms : List Value} (hforms : P.AllowsAll forms) :
    P.Sound P.AllowsFlow (e.runBody forms) :=
  sound_runLegs he hforms _ _ _ trivial

theorem sound_runIteration (he : e.Sound P) {f : Record Value} (hf : P.AllowsFields f)
    {forms : List Value} (hforms : P.AllowsAll forms) :
    P.Sound P.AllowsFlow (e.runIteration f forms) :=
  sound_inFrame hf (sound_runBody he hforms)

/-! ## Conditionals, blocks and jumps -/

theorem sound_localName (v : Value) : P.Sound (fun _ => True) (localName v) := by
  unfold localName
  split
  · split
    · exact sound_pure trivial
    · exact sound_failWith _ _
  · exact sound_failWith _ _

theorem sound_localNames (vs : List Value) : P.Sound (fun _ => True) (localNames vs) := by
  induction vs with
  | nil => exact sound_pure trivial
  | cons v vs ih =>
    refine sound_bind (sound_localName v) fun name _ => ?_
    exact sound_bind ih fun names _ => sound_pure trivial

theorem sound_conditional (he : e.Sound P) {args : List Value} (hargs : P.AllowsAll args) :
    P.Sound P.Allows (conditional e args) := by
  match args with
  | [] | [_] => exact sound_fail _
  | [_, _] =>
    refine sound_value he hargs.1 fun v _ => ?_
    split
    · exact he.evaluate hargs.2.1
    · exact sound_pure trivial
  | [_, _, _] =>
    refine sound_value he hargs.1 fun v _ => ?_
    split
    · exact he.evaluate hargs.2.1
    · exact he.evaluate hargs.2.2.1
  | _ :: _ :: _ :: extra :: _ => exact sound_tooMany extra

theorem allowsFields_names (names : List String) (r : Record Value) (hr : P.AllowsFields r) :
    P.AllowsFields ((names.map fun name => (name, Value.nil)).foldl
      (fun r (entry : String × Value) => Record.insert entry.1 entry.2 r) r) := by
  induction names generalizing r with
  | nil => exact hr
  | cons name names ih => exact ih _ (hr.insert name trivial)

theorem sound_blockFrame {v : Value} (hv : P.Allows v) :
    P.Sound P.AllowsFields (blockFrame v) := by
  unfold blockFrame
  split
  · exact sound_fields hv
  · rw [whileReading_names]
    refine sound_bind (sound_items hv) fun items _ => ?_
    refine sound_bind (sound_localNames items) fun names _ => sound_pure ?_
    exact allowsFields_names names [] trivial
  · exact sound_pure trivial
  · exact sound_failWith _ _

theorem sound_block (he : e.Sound P) {args : List Value} (hargs : P.AllowsAll args)
    (h : P.Supplies 1 args) : P.Sound P.Allows (block e args) := by
  match args with
  | [] => exact sound_missingArgument (h.missing (by simp))
  | locals :: forms =>
    refine sound_bind (sound_blockFrame hargs.1) fun f hf => ?_
    refine sound_bind (sound_inFrame hf (sound_runBody he hargs.2)) fun flow hflow => ?_
    exact sound_pure hflow.toValue

theorem sound_labelName (v : Value) : P.Sound (fun _ => True) (labelName v) := by
  unfold labelName
  split
  · exact sound_pure trivial
  · exact sound_failWith _ _

theorem sound_label (args : List Value) : P.Sound P.Allows (label args) := by
  match args with
  | [] => exact sound_fail _
  | [name] => exact sound_bind (sound_labelName name) fun _ _ => sound_pure trivial
  | _ :: extra :: _ => exact sound_tooMany extra

theorem sound_goto (hjump : P.jump) (args : List Value) : P.Sound P.Allows (goto args) := by
  match args with
  | [] => exact sound_fail _
  | [name] => exact sound_bind (sound_labelName name) fun _ _ => sound_pure hjump
  | _ :: extra :: _ => exact sound_tooMany extra

theorem sound_signalWith (he : e.Sound P) (signal : Value → Value)
    (hsignal : ∀ v, P.Allows v → P.Allows (signal v)) {args : List Value}
    (hargs : P.AllowsAll args) : P.Sound P.Allows (signalWith signal e args) := by
  match args with
  | [] => exact sound_pure (hsignal _ trivial)
  | [form] => exact sound_value he hargs.1 fun v hv => sound_pure (hsignal v hv)
  | _ :: extra :: _ => exact sound_tooMany extra

/-! ## Loops -/

theorem sound_afterPass {flow : Flow} (hflow : P.AllowsFlow flow) {next : Value → Eval Value}
    (hnext : ∀ v, P.Allows v → P.Sound P.Allows (next v)) :
    P.Sound P.Allows (afterPass flow next) := by
  cases flow with
  | next v => exact hnext v hflow
  | leave v => exact sound_pure hflow
  | exit v => exact sound_pure hflow
  | goto target => exact sound_pure hflow

theorem sound_repeatWhile (he : e.Sound P) (expected : Bool) {condition : Value}
    (hcondition : P.Allows condition) {body : List Value} (hbody : P.AllowsAll body)
    (rounds : Nat) {result : Value} (hresult : P.Allows result) :
    P.Sound P.Allows (repeatWhile e expected condition body rounds result) := by
  induction rounds generalizing result with
  | zero => exact sound_outOfFuel he.exhaust
  | succ rounds ih =>
    refine sound_value he hcondition fun test _ => ?_
    split
    · exact sound_pure hresult
    · refine sound_bind (sound_runIteration he (f := []) trivial hbody) fun flow hflow => ?_
      exact sound_afterPass hflow fun v hv => ih hv

theorem sound_conditionLoop (he : e.Sound P) (expected : Bool) {args : List Value}
    (hargs : P.AllowsAll args) (h : P.Supplies 1 args) :
    P.Sound P.Allows (conditionLoop expected e args) := by
  match args with
  | [] => exact sound_missingArgument (h.missing (by simp))
  | condition :: body => exact sound_repeatWhile he expected hargs.1 hargs.2 _ trivial

theorem sound_repeatDo (he : e.Sound P) {condition : Value} (hcondition : P.Allows condition)
    {body : List Value} (hbody : P.AllowsAll body) (rounds : Nat) :
    P.Sound P.Allows (repeatDo e condition body rounds) := by
  induction rounds with
  | zero => exact sound_outOfFuel he.exhaust
  | succ rounds ih =>
    refine sound_bind (sound_runIteration he (f := []) trivial hbody) fun flow hflow => ?_
    refine sound_afterPass hflow fun result hresult => ?_
    refine sound_value he hcondition fun test _ => ?_
    split
    · exact ih
    · exact sound_pure hresult

theorem sound_doLoop (he : e.Sound P) {args : List Value} (hargs : P.AllowsAll args)
    (h : P.Supplies 1 args) : P.Sound P.Allows (doLoop e args) := by
  match args with
  | [] => exact sound_missingArgument (h.missing (by simp))
  | condition :: body => exact sound_repeatDo he hargs.1 hargs.2 _

theorem sound_repeatEndlessly (he : e.Sound P) {body : List Value} (hbody : P.AllowsAll body)
    (rounds : Nat) : P.Sound P.Allows (repeatEndlessly e body rounds) := by
  induction rounds with
  | zero => exact sound_outOfFuel he.exhaust
  | succ rounds ih =>
    refine sound_bind (sound_runIteration he (f := []) trivial hbody) fun flow hflow => ?_
    exact sound_afterPass hflow fun _ _ => ih

theorem sound_endlessLoop (he : e.Sound P) {args : List Value} (hargs : P.AllowsAll args) :
    P.Sound P.Allows (endlessLoop e args) := by
  match args with
  | [] => exact sound_fail _
  | form :: rest => exact sound_repeatEndlessly he hargs _

theorem sound_countPasses (he : e.Sound P) (name : String) {body : List Value}
    (hbody : P.AllowsAll body) (passes : Nat) (k : Int) {result : Value}
    (hresult : P.Allows result) :
    P.Sound P.Allows (countPasses e name body passes k result) := by
  induction passes generalizing k result with
  | zero => exact sound_pure hresult
  | succ passes ih =>
    have hframe : P.AllowsFields [(name, .int (Int64.ofInt k))] := ⟨trivial, trivial⟩
    refine sound_bind (sound_runIteration he hframe hbody) fun flow hflow => ?_
    exact sound_afterPass hflow fun v hv => ih (k + 1) hv

theorem sound_loopVariable (v : Value) : P.Sound (fun _ => True) (loopVariable v) := by
  unfold loopVariable
  split
  · exact sound_localName _
  · exact sound_failWith _ _

theorem sound_forLoop (he : e.Sound P) {args : List Value} (hargs : P.AllowsAll args)
    (h : P.Supplies 3 args) : P.Sound P.Allows (forLoop e args) := by
  match args with
  | [] | [_] | [_, _] => exact sound_missingArgument (h.missing (by simp))
  | var :: first :: bound :: body =>
    refine sound_bind (sound_loopVariable var) fun name _ => ?_
    split
    · exact sound_countPasses he name hargs.2.2.2 _ _ trivial
    · exact sound_failWith _ _

/-! ## Functions, assignment, evaluation and errors -/

theorem sound_nameList {v : Value} (hv : P.Allows v) : P.Sound (fun _ => True) (nameList v) := by
  unfold nameList
  split
  · exact sound_pure trivial
  · exact sound_localNames _
  · exact sound_bind (sound_items hv) fun items _ => sound_localNames items
  · exact sound_failWith _ _

theorem sound_capture (names : List String) {captured : Record Value}
    (h : P.AllowsFields captured) : P.Sound P.AllowsFields (capture captured names) := by
  induction names generalizing captured with
  | nil => exact sound_pure h
  | cons name names ih =>
    exact sound_bind (sound_resolve name) fun v hv => ih (h.insert name hv)

theorem sound_lambda {args : List Value} (hargs : P.AllowsAll args) (h : P.Supplies 3 args) :
    P.Sound P.Allows (lambda args) := by
  match args with
  | [] | [_] | [_, _] => exact sound_missingArgument (h.missing (by simp))
  | captured :: params :: body :: _ =>
    refine sound_bind (sound_nameList hargs.1) fun names _ => ?_
    refine sound_bind (sound_capture names trivial) fun r hr => ?_
    refine sound_bind (sound_nameList hargs.2.1) fun params _ => ?_
    exact sound_bind sound_freshId fun id _ => sound_pure ⟨hr, hargs.2.2.1⟩

theorem sound_assignTo (he : e.Sound P) {args : List Value} (hargs : P.AllowsAll args)
    (h : P.Supplies 2 args) : P.Sound P.Allows (Builtin.assign e args) := by
  unfold Builtin.assign
  split
  next => exact sound_assign _ hargs.2.1
  next =>
    refine sound_value he hargs.1 fun target _ => ?_
    unfold Builtin.assignTo
    split
    · exact sound_assign _ hargs.2.1
    · exact sound_assign _ hargs.2.1
    · exact sound_failWith _ _
  next hne =>
    refine sound_missingArgument (h.missing ?_)
    match args with
    | [] | [_] => simp
    | v :: w :: vs => exact (hne v w vs rfl).elim

theorem sound_eval (he : e.Sound P) {args : List Value} (hargs : P.AllowsAll args)
    (h : P.Supplies 1 args) : P.Sound P.Allows (Builtin.eval e args) := by
  unfold Builtin.eval
  split
  next source _ =>
    refine sound_bind (Q := fun forms => Lisplet.read source = .ok forms)
      (sound_ofExcept fun _ h => h) fun forms hforms => ?_
    exact sound_bind (sound_load hforms) fun vs hvs => sound_sequence he hvs trivial
  next => exact he.evaluate hargs.1
  next => exact sound_missingArgument (h.missing (by simp))

theorem sound_apply (he : e.Sound P) {args : List Value} (hargs : P.AllowsAll args)
    (h : P.Supplies 2 args) : P.Sound P.Allows (Builtin.apply e args) := by
  unfold Builtin.apply
  split
  next => exact he.apply hargs.1 trivial
  next => exact sound_bind (sound_items hargs.2.1) fun items hitems => he.apply hargs.1 hitems
  next => exact sound_failWith _ _
  next hne =>
    refine sound_missingArgument (h.missing ?_)
    match args with
    | [] | [_] => simp
    | v :: w :: vs => exact (hne v w vs rfl).elim

theorem sound_handlerName (v : Value) : P.Sound (fun _ => True) (handlerName v) := by
  unfold handlerName
  split
  · split
    · exact sound_pure trivial
    · exact sound_failWith _ _
  · split
    · exact sound_pure trivial
    · exact sound_failWith _ _
  · exact sound_failWith _ _

theorem sound_attempt (he : e.Sound P) {args : List Value} (hargs : P.AllowsAll args)
    (h : P.Supplies 3 args) : P.Sound P.Allows (attempt e args) := by
  match args with
  | [] | [_] | [_, _] => exact sound_missingArgument (h.missing (by simp))
  | form :: name :: handler :: _ =>
    refine sound_bind (sound_handlerName name) fun name _ => ?_
    refine sound_rescue (he.evaluate hargs.1) fun err => ?_
    have hframe : P.AllowsFields [(name, .error err)] := ⟨trivial, trivial⟩
    exact sound_inFrame hframe (he.evaluate hargs.2.2.1)

/-! ## Contracts -/

-- A primitive gets as many arguments as its contract promises, or more.
theorem supplies_of_promised {contract : Option (List Kind)} {op : Operation}
    (hop : P.primitive contract op) {args : List Value} (h : promised contract ≤ args.length) :
    P.Supplies op.arity args := by
  by_cases hfit : op.Fits contract
  · exact .inl (Nat.le_trans hfit h)
  · exact .inr (P.missing_of_unfit hop hfit)

/-- Bound arguments, one for each of `n`, or the signal that came instead. -/
def AllowsBound (P : Policy) (n : Nat) : Bound → Prop
  | .args values => P.AllowsAll values ∧ values.length = n
  | .signal v => P.Allows v

theorem AllowsBound.cons {n : Nat} {bound : Bound} (h : P.AllowsBound n bound) {v : Value}
    (hv : P.Allows v) : P.AllowsBound (n + 1) (bound.cons v) := by
  cases bound with
  | args vs => exact ⟨⟨hv, h.1⟩, congrArg (· + 1) h.2⟩
  | signal s => exact h

theorem sound_bindArgs {evaluate : Value → Eval Value}
    (he : ∀ v, P.Allows v → P.Sound P.Allows (evaluate v)) (further : Kind) (kinds : List Kind)
    {args : List Value} (hargs : P.AllowsAll args) :
    P.Sound (P.AllowsBound args.length) (bindArgs evaluate further kinds args) := by
  induction args generalizing kinds with
  | nil => exact sound_pure (Q := P.AllowsBound 0) ⟨trivial, rfl⟩
  | cons arg more ih =>
    have hmore : ∀ v, P.Allows v → P.Sound (P.AllowsBound (more.length + 1))
        (bindArgs evaluate further kinds.tail more >>= fun bound => pure (bound.cons v)) := by
      intro v hv
      exact sound_bind (ih kinds.tail hargs.2) fun bound hbound => sound_pure (hbound.cons hv)
    unfold bindArgs
    dsimp only
    split
    · exact hmore arg hargs.1
    · refine sound_bind (he arg hargs.1) fun v hv => ?_
      split
      · exact sound_bind (sound_escalate hv) fun s hs => sound_pure (Q := P.AllowsBound _) hs
      · exact sound_bind (sound_accept _ hv) hmore

theorem sound_bindContract {evaluate : Value → Eval Value}
    (he : ∀ v, P.Allows v → P.Sound P.Allows (evaluate v)) (name : String) (contract : List Kind)
    {args : List Value} (hargs : P.AllowsAll args) :
    P.Sound (fun b => P.AllowsBound args.length b ∧ promised (some contract) ≤ args.length)
      (bindContract evaluate name contract args) := by
  unfold bindContract
  dsimp only
  split
  next => exact sound_fail _
  next hlen =>
    split
    · exact sound_tooMany _
    · exact (sound_bindArgs he _ _ hargs).mono fun b hb => ⟨hb, Nat.le_of_not_lt hlen⟩

/-! ## Functions and forms -/

theorem allowsFields_bindParams {frame : Record Value} (hframe : P.AllowsFields frame)
    (params : List String) {args : List Value} (hargs : P.AllowsAll args) :
    P.AllowsFields (bindParams frame params args) := by
  induction params generalizing frame args with
  | nil => exact hframe
  | cons p ps ih =>
    cases args with
    | nil => exact ih (hframe.insert p (v := .nil) trivial) trivial
    | cons v vs => exact ih (hframe.insert p hargs.1) hargs.2

theorem sound_closureResult {v : Value} (hv : P.Allows v) :
    P.Sound P.Allows (closureResult v) := by
  unfold closureResult
  split
  · exact sound_pure hv
  · exact sound_fail _
  · exact sound_fail _
  · exact sound_fail _
  · exact sound_pure hv

theorem sound_invoke (he : e.Sound P) {captured : Record Value}
    (hcaptured : P.AllowsFields captured)
    (params : List String) {body : Value} (hbody : P.Allows body) {args : List Value}
    (hargs : P.AllowsAll args) : P.Sound P.Allows (e.invoke captured params body args) := by
  refine sound_inFrame (allowsFields_bindParams hcaptured params hargs) ?_
  exact sound_bind (he.evaluate hbody) fun v hv => sound_closureResult hv

theorem sound_arguments (he : e.Sound P) {next : List Value → Eval Value}
    (hnext : ∀ vs, P.AllowsAll vs → P.Sound P.Allows (next vs)) {forms values : List Value}
    (hforms : P.AllowsAll forms) (hvalues : P.AllowsAll values) :
    P.Sound P.Allows (e.arguments next forms values) := by
  induction forms generalizing values with
  | nil => exact hnext _ hvalues.reverse
  | cons form rest ih => exact sound_value he hforms.1 fun v hv => ih hforms.2 ⟨hv, hvalues⟩

theorem sound_newStructOf (he : e.Sound P) {fields values : Record Value}
    (hfields : P.AllowsFields fields) (hvalues : P.AllowsFields values)
    (hkeys : values.keys.Nodup) : P.Sound P.Allows (e.newStructOf fields values) := by
  induction fields generalizing values with
  | nil => exact sound_newStruct hkeys hvalues
  | cons field rest ih =>
    obtain ⟨key, form⟩ := field
    refine sound_value he hfields.1 fun v hv => ?_
    exact ih hfields.2 (hvalues.insert key hv) (Record.nodup_keys_insert hkeys key v)

theorem sound_settled {form v : Value} (hv : P.Allows v) : P.Sound P.Allows (settled form v) := by
  unfold settled
  split
  · exact sound_leavingCrumb _ (sound_fail _)
  · exact sound_leavingCrumb _ (sound_fail _)
  · exact sound_leavingCrumb _ (sound_fail _)
  · exact sound_leavingCrumb _ (sound_fail _)
  · exact sound_pure hv

/-! ## Operations as a whole -/

/-- The functions of the host are sound under the policy. -/
class Welcomes (P : Policy) [Host] : Prop where
  native : ∀ id {args}, P.AllowsAll args → P.Sound P.Allows (Host.native id args)

instance : P.Welcomes :=
  ⟨fun _ _ => sound_newList⟩

variable [Host] [P.Welcomes]

-- These operations have no use for the engine, so nothing is asked of it.
theorem sound_run_of_plain {contract : Option (List Kind)} {op : Operation}
    (hplain : op.evaluates = false) (hop : P.primitive contract op) {args : List Value}
    (hargs : P.AllowsAll args) (h : P.Supplies op.arity args) :
    P.Sound P.Allows (op.run e args) := by
  cases op with
  | label => exact sound_label args
  | goto => exact sound_goto (P.jump_of_goto hop) args
  | lambda => exact sound_lambda hargs h
  | add => exact sound_add args
  | subtract => exact sound_subtract h
  | multiply => exact sound_multiply args
  | divide => exact sound_divide h
  | modulo => exact sound_modulo h
  | less | greater | atMost | atLeast => exact sound_comparison _ h
  | equal | different => exact sound_equality _ h
  | not => exact sound_not h
  | toInt => exact sound_toInt h
  | toDouble => exact sound_toDouble h
  | concatenate => exact sound_concatenate args
  | list => exact sound_newList hargs
  | count => exact sound_count hargs h
  | append => exact sound_append hargs h
  | struct => exact sound_struct hargs
  | keys => exact sound_keys hargs h
  | fetch => exact sound_fetch hargs h
  | store => exact sound_store hargs h (P.inUse_of_store hop)
  | print => exact sound_print args
  | read => exact sound_read args
  | throw => exact sound_throw h
  | help => exact sound_help args
  | typeName => exact sound_typeName h
  | bound => exact sound_bound h
  | native id => exact Welcomes.native id hargs
  | _ => cases hplain

theorem sound_run (he : e.Sound P) {contract : Option (List Kind)} {op : Operation}
    (hop : P.primitive contract op) {args : List Value} (hargs : P.AllowsAll args)
    (h : P.Supplies op.arity args) : P.Sound P.Allows (op.run e args) := by
  cases op with
  | conditional => exact sound_conditional he hargs
  | block => exact sound_block he hargs h
  | leave => exact sound_signalWith he .leaving (fun _ hv => hv) hargs
  | exitLoop => exact sound_signalWith he .breaking (fun _ hv => hv) hargs
  | whileLoop => exact sound_conditionLoop he true hargs h
  | untilLoop => exact sound_conditionLoop he false hargs h
  | doLoop => exact sound_doLoop he hargs h
  | endlessLoop => exact sound_endlessLoop he hargs
  | forLoop => exact sound_forLoop he hargs h
  | and => exact sound_conjunction he hargs trivial
  | or => exact sound_or he hargs
  | assign => exact sound_assignTo he hargs h
  | eval => exact sound_eval he hargs h
  | attempt => exact sound_attempt he hargs h
  | apply => exact sound_apply he hargs h
  | _ => exact sound_run_of_plain rfl hop hargs h

/-! ## Calls -/

theorem sound_runBound (he : e.Sound P) {contract : List Kind} {op : Operation}
    (hop : P.primitive (some contract) op) {n : Nat} {b : Bound} (hb : P.AllowsBound n b)
    (hn : promised (some contract) ≤ n) : P.Sound P.Allows (e.runBound op b) := by
  cases b with
  | args values => exact sound_run he hop hb.1 (supplies_of_promised hop (hb.2 ▸ hn))
  | signal v => exact sound_pure hb

theorem sound_call (he : e.Sound P) {callee : Value} (hcallee : P.Allows callee)
    {args : List Value} (hargs : P.AllowsAll args) : P.Sound P.Allows (e.call callee args) := by
  unfold Engine.call
  split
  next => exact sound_run he hcallee hargs (supplies_of_promised hcallee (Nat.zero_le _))
  next name contract op =>
    refine sound_bind (sound_bindContract (fun _ => he.evaluate) name contract hargs) ?_
    exact fun b hb => sound_runBound he hcallee hb.1 hb.2
  next =>
    exact sound_arguments he (fun _ hvs => sound_invoke he hcallee.1 _ hcallee.2 hvs) hargs trivial
  next => exact sound_failWith _ _

theorem sound_applyTo (he : e.Sound P) {callee : Value} (hcallee : P.Allows callee)
    {values : List Value} (hvalues : P.AllowsAll values) :
    P.Sound P.Allows (e.applyTo callee values) := by
  unfold Engine.applyTo
  split
  next => exact sound_run he hcallee hvalues (supplies_of_promised hcallee (Nat.zero_le _))
  next name contract op =>
    refine sound_bind (sound_bindContract (fun _ => sound_pure) name contract hvalues) ?_
    exact fun b hb => sound_runBound he hcallee hb.1 hb.2
  next => exact sound_invoke he hcallee.1 _ hcallee.2 hvalues
  next => exact sound_failWith _ _

theorem sound_callForm (he : e.Sound P) {forms : List Value} (hforms : P.AllowsAll forms) :
    P.Sound P.Allows (e.callForm forms) := by
  match forms with
  | [] => exact sound_pure trivial
  | head :: args =>
    exact sound_value he hforms.1 fun callee hcallee => sound_call he hcallee hforms.2

theorem sound_step (he : e.Sound P) {v : Value} (hv : P.Allows v) :
    P.Sound P.Allows (e.step v) := by
  unfold Engine.step
  split
  next => exact sound_copyList hv
  next =>
    refine sound_descend (sound_bind (sound_fields hv) fun fields hfields => ?_)
    exact sound_newStructOf he hfields trivial (by simp [Record.keys])
  next path => exact sound_resolve path
  next => exact sound_leavingCrumb _ (sound_descend (sound_callForm he hv))
  next => exact sound_pure hv

/-! ## All of evaluation -/

/-- Evaluation is sound under every policy, with any amount of fuel. -/
theorem sound_engine (h : P.exhaust) (fuel : Nat) : (Engine.ofFuel fuel).Sound P := by
  induction fuel with
  | zero => exact ⟨h, fun _ => sound_outOfFuel h, fun _ _ => sound_outOfFuel h⟩
  | succ fuel ih => exact ⟨h, fun hv => sound_step ih hv, fun hf hvs => sound_applyTo ih hf hvs⟩

theorem sound_evalTop (h : P.exhaust) (fuel : Nat) {forms : List Value} (hforms : P.AllowsAll forms)
    {result : Value} (hresult : P.Allows result) :
    P.Sound P.Allows (evalTop fuel forms result) := by
  induction forms generalizing result with
  | nil => exact sound_pure hresult
  | cons form rest ih =>
    refine sound_bind ((sound_engine h fuel).evaluate hforms.1) fun v hv => ?_
    exact sound_bind (sound_settled hv) fun w hw => ih hforms.2 hw

theorem sound_evalForms (h : P.exhaust) (fuel : Nat) (source : String)
    (answers : List (Option String)) :
    P.Sound P.Allows (evalForms fuel (Reader.ofSource source answers).all.1) := by
  refine sound_bind (Q := fun forms => (Reader.ofSource source answers).all.1 = .ok forms)
    (sound_ofExcept fun _ h => h) fun forms hforms => ?_
  exact sound_bind (sound_load hforms) fun vs hvs => sound_evalTop h fuel hvs trivial

theorem sound_evalSource (h : P.exhaust) (fuel : Nat) (source : String) :
    P.Sound P.Allows (evalSource fuel source) :=
  sound_evalForms h fuel source []

end Policy

/-! ## What evaluation keeps -/

variable {fuel : Nat} {i j : Interpreter}

theorem keeps_evaluate (fuel : Nat) (v : Value) (i : Interpreter) :
    i.Keeps (i.run (evaluate fuel v)).2 :=
  ((Policy.sound_engine (P := .lax) trivial fuel).evaluate (Policy.lax_permissive.allows v)).keeps i

theorem uses_of_ok {u v : Value} (hidle : i.uses = []) (hrun : evaluate fuel v i = .ok u j) :
    j.uses = [] := by
  have hkeeps := keeps_evaluate fuel v i
  rw [Interpreter.run, hrun] at hkeeps
  exact hkeeps.uses.trans hidle

theorem uses_of_error {v : Value} {h : Halt} (hidle : i.uses = [])
    (hrun : evaluate fuel v i = .error h j) : j.uses = [] := by
  have hkeeps := keeps_evaluate fuel v i
  rw [Interpreter.run, hrun] at hkeeps
  exact hkeeps.uses.trans hidle

end Lisplet
