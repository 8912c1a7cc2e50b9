import Lisplet.Proofs.Safe

/-!
# Data and program text stay apart

Operations that evaluate are safe as long as the engine they are given is, so one step of evaluation
is safe and, by induction on the fuel, all of evaluation. Every state of a session has a layout.

The engine below can be any engine, in particular one that watches what it does: before and after
each evaluation and each application it checks the state and the values at hand. Safety says that
a watch for something that holds under every layout never raises its alarm.
-/

namespace Lisplet

structure Engine.Tidy (e : Engine) : Prop where
  evaluate : ∀ {L : Layout} {v : Value}, L.Fits .form v → L.Safe Layout.FitsResult (e.evaluate v)
  apply : ∀ {L : Layout} {f : Value} {vs : List Value}, L.Fits .form f → L.FitsAll .datum vs →
    L.Safe Layout.FitsResult (e.apply f vs)

namespace Layout

open Eval Builtin

variable {L : Layout} {e : Engine}

theorem safe_value (he : e.Tidy) {form : Value} (hform : L.Fits .form form)
    {next : Value → Eval Value}
    (hnext : ∀ M, L.Grows M → ∀ v, M.Fits .datum v → M.Safe FitsResult (next v)) :
    L.Safe FitsResult (e.value form next) := by
  refine safe_bind (he.evaluate hform) fun M hM v hv => ?_
  split
  next => exact safe_escalate hv
  next hsignal => exact hnext M hM v (hv.datum (Bool.not_eq_true _ ▸ hsignal))

theorem safe_sequence (he : e.Tidy) {forms : List Value} (hforms : L.FitsAll .form forms)
    {result : Value} (hresult : L.Fits .datum result) :
    L.Safe FitsResult (e.sequence forms result) := by
  induction forms generalizing L result with
  | nil => exact safe_pure hresult.result
  | cons form rest ih => exact safe_value he hforms.1 fun M hM v hv => ih (hforms.2.mono hM) hv

theorem safe_conjunction (he : e.Tidy) {forms : List Value} (hforms : L.FitsAll .form forms)
    {result : Value} (hresult : L.Fits .datum result) :
    L.Safe FitsResult (conjunction e forms result) := by
  induction forms generalizing L result with
  | nil => exact safe_pure hresult.result
  | cons form rest ih =>
    refine safe_value he hforms.1 fun M hM v hv => ?_
    split
    · exact safe_pure trivial
    · exact ih (hforms.2.mono hM) hv

theorem safe_or (he : e.Tidy) {forms : List Value} (hforms : L.FitsAll .form forms) :
    L.Safe FitsResult (Builtin.or e forms) := by
  induction forms generalizing L with
  | nil => exact safe_pure trivial
  | cons form rest ih =>
    refine safe_value he hforms.1 fun M hM v hv => ?_
    split
    · exact safe_pure hv.result
    · exact ih (hforms.2.mono hM)

/-! ## Bodies -/

def FitsFlow (L : Layout) : Flow → Prop
  | .next v | .leave v | .exit v => L.Fits .datum v
  | .goto _ => True

def FitsLeg (L : Layout) : Leg → Prop
  | .ended flow => L.FitsFlow flow
  | .jump _ _ result => L.Fits .datum result

theorem FitsFlow.toValue {flow : Flow} (h : L.FitsFlow flow) : L.FitsResult flow.toValue := by
  cases flow with
  | next v | leave v | exit v => exact Fits.result h
  | goto target => exact trivial

theorem safe_runLeg (he : e.Tidy) {forms : List Value} (hforms : L.FitsAll .form forms)
    (labels : Record Nat) (pos : Nat) {result : Value} (hresult : L.Fits .datum result) :
    L.Safe FitsLeg (e.runLeg labels pos result forms) := by
  induction forms generalizing L labels pos result with
  | nil => exact safe_pure hresult
  | cons form rest ih =>
    refine safe_bind (he.evaluate hforms.1) fun M hM v hv => ?_
    cases v with
    | leaving w | breaking w => exact safe_pure (Q := FitsLeg) hv
    | goto target =>
      dsimp only
      split
      · exact safe_pure (Q := FitsLeg) (hresult.mono hM)
      · exact safe_pure (Q := FitsLeg) trivial
    | label name => exact ih (hforms.2.mono hM) _ _ trivial
    | _ => exact ih (hforms.2.mono hM) _ _ hv

theorem safe_runLegs (he : e.Tidy) {forms : List Value} (hforms : L.FitsAll .form forms)
    (legs : Nat) (labels : Record Nat) (pos : Nat) {result : Value}
    (hresult : L.Fits .datum result) :
    L.Safe FitsFlow (e.runLegs forms legs labels pos result) := by
  induction legs generalizing L labels pos result with
  | zero => exact safe_outOfFuel
  | succ legs ih =>
    refine safe_bind (safe_runLeg he (hforms.drop pos) labels pos hresult) fun M hM leg hleg => ?_
    cases leg with
    | ended flow => exact safe_pure hleg
    | jump label labels result => exact ih (hforms.mono hM) labels (label + 1) hleg

theorem safe_runBody (he : e.Tidy) {forms : List Value} (hforms : L.FitsAll .form forms) :
    L.Safe FitsFlow (e.runBody forms) :=
  safe_runLegs he hforms _ _ _ trivial

theorem safe_runIteration (he : e.Tidy) {f : Record Value} (hf : L.FitsFields .datum f)
    {forms : List Value} (hforms : L.FitsAll .form forms) :
    L.Safe FitsFlow (e.runIteration f forms) :=
  safe_inFrame hf (safe_runBody he hforms)

/-! ## Conditionals, blocks and jumps -/

theorem safe_localName (v : Value) : L.Safe (fun _ _ => True) (localName v) := by
  unfold localName
  split
  · split
    · exact safe_pure trivial
    · exact safe_failWith _ _
  · exact safe_failWith _ _

theorem safe_localNames (vs : List Value) : L.Safe (fun _ _ => True) (localNames vs) := by
  induction vs generalizing L with
  | nil => exact safe_pure trivial
  | cons v vs ih =>
    refine safe_bind (safe_localName v) fun _ _ name _ => ?_
    exact safe_bind ih fun _ _ names _ => safe_pure trivial

theorem safe_conditional (he : e.Tidy) {args : List Value} (hargs : L.FitsAll .form args) :
    L.Safe FitsResult (conditional e args) := by
  match args with
  | [] | [_] => exact safe_fail _
  | [_, _] =>
    refine safe_value he hargs.1 fun M hM v _ => ?_
    split
    · exact he.evaluate (hargs.2.1.mono hM)
    · exact safe_pure trivial
  | [_, _, _] =>
    refine safe_value he hargs.1 fun M hM v _ => ?_
    split
    · exact he.evaluate (hargs.2.1.mono hM)
    · exact he.evaluate (hargs.2.2.1.mono hM)
  | _ :: _ :: _ :: extra :: _ => exact safe_tooMany extra

theorem fitsFields_names (names : List String) :
    L.FitsFields .datum (Record.ofEntries (names.map fun name => (name, Value.nil))) := by
  refine List.foldlRecOn (motive := fun r => L.FitsFields .datum r) _ _ trivial ?_
  intro r hr entry hentry
  obtain ⟨name, -, rfl⟩ := List.mem_map.mp hentry
  exact FitsFields.insert hr name trivial

theorem safe_blockFrame {v : Value} (hv : L.Fits .datum v) :
    L.Safe (FitsFields · .datum) (blockFrame v) := by
  unfold blockFrame
  split
  · exact safe_fields hv
  · rw [whileReading_names]
    refine safe_bind (safe_items hv) fun M _ items _ => ?_
    exact safe_bind (safe_localNames items) fun _ _ names _ => safe_pure (fitsFields_names names)
  · exact safe_pure trivial
  · exact safe_failWith _ _

theorem safe_block (he : e.Tidy) {args : List Value} (hargs : L.FitsArgs .form [.datum] args) :
    L.Safe FitsResult (block e args) := by
  match args with
  | [] => exact safe_missingArgument
  | locals :: forms =>
    refine safe_bind (safe_blockFrame hargs.1) fun M hM f hf => ?_
    have hforms := (fitsArgs_nil.mp hargs.2).mono hM
    refine safe_bind (safe_inFrame hf (safe_runBody he hforms)) fun N _ flow hflow => ?_
    exact safe_pure hflow.toValue

theorem safe_labelName (v : Value) : L.Safe (fun _ _ => True) (labelName v) := by
  unfold labelName
  split
  · exact safe_pure trivial
  · exact safe_failWith _ _

theorem safe_label (args : List Value) : L.Safe FitsResult (label args) := by
  match args with
  | [] => exact safe_fail _
  | [name] => exact safe_bind (safe_labelName name) fun _ _ _ _ => safe_pure trivial
  | _ :: extra :: _ => exact safe_tooMany extra

theorem safe_goto (args : List Value) : L.Safe FitsResult (goto args) := by
  match args with
  | [] => exact safe_fail _
  | [name] => exact safe_bind (safe_labelName name) fun _ _ _ _ => safe_pure trivial
  | _ :: extra :: _ => exact safe_tooMany extra

theorem safe_signalWith (he : e.Tidy) (signal : Value → Value)
    (hsignal : ∀ {M : Layout} {v : Value}, M.Fits .datum v → M.FitsResult (signal v))
    {args : List Value} (hargs : L.FitsAll .form args) :
    L.Safe FitsResult (signalWith signal e args) := by
  match args with
  | [] => exact safe_pure (hsignal trivial)
  | [form] => exact safe_value he hargs.1 fun M _ v hv => safe_pure (hsignal hv)
  | _ :: extra :: _ => exact safe_tooMany extra

/-! ## Loops -/

theorem safe_afterPass {flow : Flow} (hflow : L.FitsFlow flow) {next : Value → Eval Value}
    (hnext : ∀ v, L.Fits .datum v → L.Safe FitsResult (next v)) :
    L.Safe FitsResult (afterPass flow next) := by
  cases flow with
  | next v => exact hnext v hflow
  | _ => exact safe_pure hflow.toValue

theorem safe_repeatWhile (he : e.Tidy) (expected : Bool) {condition : Value}
    (hcondition : L.Fits .form condition) {body : List Value} (hbody : L.FitsAll .form body)
    (rounds : Nat) {result : Value} (hresult : L.Fits .datum result) :
    L.Safe FitsResult (repeatWhile e expected condition body rounds result) := by
  induction rounds generalizing L result with
  | zero => exact safe_outOfFuel
  | succ rounds ih =>
    refine safe_value he hcondition fun M hM test _ => ?_
    split
    · exact safe_pure (hresult.mono hM).result
    · refine safe_bind (safe_runIteration he (f := []) trivial (hbody.mono hM)) ?_
      intro N hN flow hflow
      have hg := hM.trans hN
      exact safe_afterPass hflow fun v hv => ih (hcondition.mono hg) (hbody.mono hg) hv

theorem safe_conditionLoop (he : e.Tidy) (expected : Bool) {args : List Value}
    (hargs : L.FitsAll .form args) : L.Safe FitsResult (conditionLoop expected e args) := by
  match args with
  | [] => exact safe_missingArgument
  | condition :: body => exact safe_repeatWhile he expected hargs.1 hargs.2 _ trivial

theorem safe_repeatDo (he : e.Tidy) {condition : Value} (hcondition : L.Fits .form condition)
    {body : List Value} (hbody : L.FitsAll .form body) (rounds : Nat) :
    L.Safe FitsResult (repeatDo e condition body rounds) := by
  induction rounds generalizing L with
  | zero => exact safe_outOfFuel
  | succ rounds ih =>
    refine safe_bind (safe_runIteration he (f := []) trivial hbody) fun M hM flow hflow => ?_
    refine safe_afterPass hflow fun result hresult => ?_
    refine safe_value he (hcondition.mono hM) fun N hN test _ => ?_
    split
    · exact ih (hcondition.mono (hM.trans hN)) (hbody.mono (hM.trans hN))
    · exact safe_pure (hresult.mono hN).result

theorem safe_doLoop (he : e.Tidy) {args : List Value} (hargs : L.FitsAll .form args) :
    L.Safe FitsResult (doLoop e args) := by
  match args with
  | [] => exact safe_missingArgument
  | condition :: body => exact safe_repeatDo he hargs.1 hargs.2 _

theorem safe_repeatEndlessly (he : e.Tidy) {body : List Value} (hbody : L.FitsAll .form body)
    (rounds : Nat) : L.Safe FitsResult (repeatEndlessly e body rounds) := by
  induction rounds generalizing L with
  | zero => exact safe_outOfFuel
  | succ rounds ih =>
    refine safe_bind (safe_runIteration he (f := []) trivial hbody) fun M hM flow hflow => ?_
    exact safe_afterPass hflow fun _ _ => ih (hbody.mono hM)

theorem safe_endlessLoop (he : e.Tidy) {args : List Value} (hargs : L.FitsAll .form args) :
    L.Safe FitsResult (endlessLoop e args) := by
  match args with
  | [] => exact safe_fail _
  | form :: rest => exact safe_repeatEndlessly he hargs _

theorem safe_countPasses (he : e.Tidy) (name : String) {body : List Value}
    (hbody : L.FitsAll .form body) (passes : Nat) (k : Int) {result : Value}
    (hresult : L.Fits .datum result) :
    L.Safe FitsResult (countPasses e name body passes k result) := by
  induction passes generalizing L k result with
  | zero => exact safe_pure hresult.result
  | succ passes ih =>
    have hframe : L.FitsFields .datum [(name, .int (Int64.ofInt k))] := ⟨trivial, trivial⟩
    refine safe_bind (safe_runIteration he hframe hbody) fun M hM flow hflow => ?_
    exact safe_afterPass hflow fun v hv => ih (hbody.mono hM) (k + 1) hv

theorem safe_loopVariable (v : Value) : L.Safe (fun _ _ => True) (loopVariable v) := by
  unfold loopVariable
  split
  · exact safe_localName _
  · exact safe_failWith _ _

theorem safe_forLoop (he : e.Tidy) {args : List Value} (hargs : L.FitsAll .form args) :
    L.Safe FitsResult (forLoop e args) := by
  match args with
  | [] | [_] | [_, _] => exact safe_missingArgument
  | var :: first :: bound :: body =>
    refine safe_bind (safe_loopVariable var) fun M hM name _ => ?_
    split
    · exact safe_countPasses he name (hargs.2.2.2.mono hM) _ _ trivial
    · exact safe_failWith _ _

/-! ## Functions, assignment, evaluation and errors -/

theorem safe_nameList {v : Value} (hv : L.Fits .form v) :
    L.Safe (fun _ _ => True) (nameList v) := by
  unfold nameList
  split
  · exact safe_pure trivial
  · exact safe_localNames _
  · exact safe_bind (safe_items hv) fun _ _ items _ => safe_localNames items
  · exact safe_failWith _ _

theorem safe_capture (names : List String) {captured : Record Value}
    (h : L.FitsFields .datum captured) :
    L.Safe (FitsFields · .datum) (capture captured names) := by
  induction names generalizing L captured with
  | nil => exact safe_pure h
  | cons name names ih =>
    exact safe_bind (safe_resolve name) fun M hM v hv => ih ((h.mono hM).insert name hv)

theorem safe_lambda {args : List Value} (hargs : L.FitsAll .form args) :
    L.Safe (Fits · .datum) (lambda args) := by
  match args with
  | [] | [_] | [_, _] => exact safe_missingArgument
  | captured :: params :: body :: _ =>
    refine safe_bind (safe_nameList hargs.1) fun M hM names _ => ?_
    refine safe_bind (safe_capture names trivial) fun N hN r hr => ?_
    refine safe_bind (safe_nameList (hargs.2.1.mono (hM.trans hN))) fun K hK params _ => ?_
    refine safe_bind safe_freshId fun J hJ id _ => safe_pure ?_
    have hbody := hargs.2.2.1.mono (hM.trans (hN.trans (hK.trans hJ)))
    exact ⟨hr.mono (hK.trans hJ), hbody⟩

theorem safe_assignTo (he : e.Tidy) {args : List Value}
    (hargs : L.FitsArgs .form [.form, .datum] args) :
    L.Safe FitsResult (Builtin.assign e args) := by
  unfold Builtin.assign
  split
  next => exact (safe_assign _ hargs.2.1).result
  next =>
    refine safe_value he hargs.1 fun M hM target _ => ?_
    have hv := hargs.2.1.mono hM
    unfold Builtin.assignTo
    split
    · exact (safe_assign _ hv).result
    · exact (safe_assign _ hv).result
    · exact safe_failWith _ _
  next => exact safe_missingArgument

theorem safe_eval (he : e.Tidy) {args : List Value} (hargs : L.FitsAll .form args) :
    L.Safe FitsResult (Builtin.eval e args) := by
  unfold Builtin.eval
  split
  next source _ =>
    refine safe_bind (Q := fun _ forms => Lisplet.read source = .ok forms)
      (safe_ofExcept fun _ h => h) fun M _ forms hforms => ?_
    exact safe_bind (safe_load hforms) fun N _ vs hvs => safe_sequence he hvs trivial
  next => exact he.evaluate hargs.1
  next => exact safe_missingArgument

theorem safe_apply (he : e.Tidy) {args : List Value} (hargs : L.FitsAll .form args) :
    L.Safe FitsResult (Builtin.apply e args) := by
  unfold Builtin.apply
  split
  next => exact he.apply hargs.1 trivial
  next =>
    exact safe_bind (safe_items hargs.2.1) fun M hM items hitems =>
      he.apply (hargs.1.mono hM) hitems
  next => exact safe_failWith _ _
  next => exact safe_missingArgument

theorem safe_handlerName (v : Value) : L.Safe (fun _ _ => True) (handlerName v) := by
  unfold handlerName
  split
  · split
    · exact safe_pure trivial
    · exact safe_failWith _ _
  · split
    · exact safe_pure trivial
    · exact safe_failWith _ _
  · exact safe_failWith _ _

theorem safe_attempt (he : e.Tidy) {args : List Value} (hargs : L.FitsAll .form args) :
    L.Safe FitsResult (attempt e args) := by
  match args with
  | [] | [_] | [_, _] => exact safe_missingArgument
  | form :: name :: handler :: _ =>
    refine safe_bind (safe_handlerName name) fun M hM name _ => ?_
    refine safe_rescue (he.evaluate (hargs.1.mono hM)) fun N hN err => ?_
    have hframe : N.FitsFields .datum [(name, .error err)] := ⟨trivial, trivial⟩
    exact safe_inFrame hframe (he.evaluate (hargs.2.2.1.mono (hM.trans hN)))

/-! ## Operations as a whole -/

/-- An operation is safe on arguments that fit the roles it takes them in. -/
theorem safe_run (he : e.Tidy) {op : Operation} {args : List Value}
    (hargs : L.FitsArgs op.takenRoles.2 op.takenRoles.1 args) :
    L.Safe FitsResult (op.run e args) := by
  cases op with
  | conditional => exact safe_conditional he (fitsArgs_nil.mp hargs)
  | block => exact safe_block he hargs
  | label => exact safe_label args
  | goto => exact safe_goto args
  | leave => exact safe_signalWith he .leaving id (fitsArgs_nil.mp hargs)
  | exitLoop => exact safe_signalWith he .breaking id (fitsArgs_nil.mp hargs)
  | whileLoop => exact safe_conditionLoop he true (fitsArgs_nil.mp hargs)
  | untilLoop => exact safe_conditionLoop he false (fitsArgs_nil.mp hargs)
  | doLoop => exact safe_doLoop he (fitsArgs_nil.mp hargs)
  | endlessLoop => exact safe_endlessLoop he (fitsArgs_nil.mp hargs)
  | forLoop => exact safe_forLoop he (fitsArgs_nil.mp hargs)
  | lambda => exact (safe_lambda (fitsArgs_nil.mp hargs)).result
  | add => exact (safe_add args).result
  | subtract => exact (safe_subtract args).result
  | multiply => exact (safe_multiply args).result
  | divide => exact (safe_divide args).result
  | modulo => exact (safe_modulo args).result
  | less | greater | atMost | atLeast => exact (safe_comparison _ args).result
  | equal | different => exact (safe_equality _ args).result
  | not => exact (safe_not args).result
  | and => exact safe_conjunction he (fitsArgs_nil.mp hargs) trivial
  | or => exact safe_or he (fitsArgs_nil.mp hargs)
  | toInt => exact (safe_toInt args).result
  | toDouble => exact (safe_toDouble args).result
  | concatenate => exact (safe_concatenate args).result
  | list => exact (safe_newList (fitsArgs_nil.mp hargs)).result
  | count => exact (safe_count (fitsArgs_nil.mp hargs)).result
  | append => exact (safe_append (fitsArgs_nil.mp hargs)).result
  | struct => exact (safe_struct (fitsArgs_nil.mp hargs)).result
  | keys => exact (safe_keys (fitsArgs_nil.mp hargs)).result
  | fetch => exact (safe_fetch (fitsArgs_nil.mp hargs)).result
  | store => exact (safe_store (fitsArgs_nil.mp hargs)).result
  | print => exact (safe_print args).result
  | read => exact (safe_read args).result
  | assign => exact safe_assignTo he hargs
  | eval => exact safe_eval he (fitsArgs_nil.mp hargs)
  | throw => exact (safe_throw_builtin args).result
  | attempt => exact safe_attempt he (fitsArgs_nil.mp hargs)
  | help => exact (safe_help args).result
  | typeName => exact (safe_typeName args).result
  | bound => exact (safe_bound args).result
  | apply => exact safe_apply he (fitsArgs_nil.mp hargs)
  | native => exact (safe_newList (fitsArgs_nil.mp hargs)).result

/-! ## Contracts -/

/-- Bound arguments in the roles of their kinds, or the signal that came instead. -/
def FitsBound (L : Layout) (further : Kind) (kinds : List Kind) : Bound → Prop
  | .args values => L.FitsArgs further.role (kinds.map Kind.role) values
  | .signal v => L.FitsResult v

theorem FitsBound.cons {further : Kind} {kinds : List Kind} {bound : Bound}
    (h : L.FitsBound further kinds.tail bound) {v : Value}
    (hv : L.Fits (kinds.headD further).role v) : L.FitsBound further kinds (bound.cons v) := by
  cases bound with
  | signal s => exact h
  | args vs =>
    cases kinds with
    | nil => exact ⟨hv, h⟩
    | cons kind kinds => exact ⟨hv, h⟩

theorem role_of_isUnevaluated {kind : Kind} (h : kind.isUnevaluated = true) :
    kind.role = .form := by
  cases kind <;> first | rfl | cases h

-- The arguments may be forms that are evaluated, or data that are taken as they are.
theorem safe_bindArgs {evaluate : Value → Eval Value} {role : Role}
    (he : ∀ {M : Layout} {v : Value}, M.Fits role v → M.Safe FitsResult (evaluate v))
    (further : Kind) (kinds : List Kind) {args : List Value} (hargs : L.FitsAll role args) :
    L.Safe (FitsBound · further kinds) (bindArgs evaluate further kinds args) := by
  induction args generalizing L kinds with
  | nil => exact safe_pure (Q := (FitsBound · further kinds)) trivial
  | cons arg more ih =>
    have hmore : ∀ M, L.Grows M → ∀ v, M.Fits (kinds.headD further).role v →
        M.Safe (FitsBound · further kinds)
          (bindArgs evaluate further kinds.tail more >>= fun bound => pure (bound.cons v)) := by
      intro M hM v hv
      refine safe_bind (ih kinds.tail (hargs.2.mono hM)) fun N hN bound hbound => ?_
      exact safe_pure (hbound.cons (hv.mono hN))
    unfold bindArgs
    dsimp only
    split
    next hkind =>
      refine hmore L (.refl L) arg ?_
      rw [role_of_isUnevaluated hkind]
      cases role with
      | form => exact hargs.1
      | datum => exact hargs.1.asForm
    next =>
      refine safe_bind (he hargs.1) fun M hM v hv => ?_
      split
      next =>
        refine safe_bind (safe_escalate hv) fun N _ s hs => ?_
        exact safe_pure (Q := (FitsBound · further kinds)) hs
      next hsignal =>
        have hdatum := hv.datum (Bool.not_eq_true _ ▸ hsignal)
        exact safe_bind (safe_accept _ hdatum) fun N hN w hw => hmore N (hM.trans hN) w hw

theorem safe_bindContract {evaluate : Value → Eval Value} {role : Role}
    (he : ∀ {M : Layout} {v : Value}, M.Fits role v → M.Safe FitsResult (evaluate v))
    (name : String) (contract : List Kind) {args : List Value} (hargs : L.FitsAll role args) :
    L.Safe (FitsBound · ((restKind? contract).getD .any) (fixedKinds contract))
      (bindContract evaluate name contract args) := by
  unfold bindContract
  dsimp only
  split
  · exact safe_fail _
  · split
    · exact safe_tooMany _
    · exact safe_bindArgs he _ _ hargs

/-! ## Calls -/

theorem fitsFields_bindParams {frame : Record Value} (hframe : L.FitsFields .datum frame)
    (params : List String) {args : List Value} (hargs : L.FitsAll .datum args) :
    L.FitsFields .datum (bindParams frame params args) := by
  induction params generalizing frame args with
  | nil => exact hframe
  | cons p ps ih =>
    cases args with
    | nil => exact ih (hframe.insert p (v := .nil) trivial) trivial
    | cons v vs => exact ih (hframe.insert p hargs.1) hargs.2

theorem safe_closureResult {v : Value} (hv : L.FitsResult v) :
    L.Safe (Fits · .datum) (closureResult v) := by
  cases v with
  | leaving w => exact safe_pure hv
  | breaking | goto | label => exact safe_fail _
  | _ => exact safe_pure (Q := (Fits · .datum)) hv

theorem safe_invoke (he : e.Tidy) {captured : Record Value}
    (hcaptured : L.FitsFields .datum captured) (params : List String) {body : Value}
    (hbody : L.Fits .form body) {args : List Value} (hargs : L.FitsAll .datum args) :
    L.Safe (Fits · .datum) (e.invoke captured params body args) := by
  refine safe_inFrame (fitsFields_bindParams hcaptured params hargs) ?_
  exact safe_bind (he.evaluate hbody) fun _ _ v hv => safe_closureResult hv

theorem safe_arguments (he : e.Tidy) {next : List Value → Eval Value}
    (hnext : ∀ M, L.Grows M → ∀ vs, M.FitsAll .datum vs → M.Safe FitsResult (next vs))
    {forms values : List Value} (hforms : L.FitsAll .form forms)
    (hvalues : L.FitsAll .datum values) : L.Safe FitsResult (e.arguments next forms values) := by
  induction forms generalizing L values with
  | nil => exact hnext L (.refl L) _ hvalues.reverse
  | cons form rest ih =>
    refine safe_value he hforms.1 fun M hM v hv => ?_
    exact ih (fun N hN => hnext N (hM.trans hN)) (hforms.2.mono hM) ⟨hv, hvalues.mono hM⟩

theorem safe_runBound (he : e.Tidy) {contract : List Kind} {op : Operation}
    (hop : op.Suits (some contract)) {b : Bound}
    (hb : L.FitsBound ((restKind? contract).getD .any) (fixedKinds contract) b) :
    L.Safe FitsResult (e.runBound op b) := by
  cases b with
  | args values => exact safe_run he (FitsArgs.serves hop hb)
  | signal v => exact safe_pure hb

theorem safe_call (he : e.Tidy) {callee : Value} (hcallee : L.Fits .datum callee)
    {args : List Value} (hargs : L.FitsAll .form args) :
    L.Safe FitsResult (e.call callee args) := by
  unfold Engine.call
  split
  next => exact safe_run he (FitsArgs.serves hcallee (fitsArgs_nil.mpr hargs))
  next name contract op =>
    refine safe_bind (safe_bindContract he.evaluate name contract hargs) ?_
    exact fun M _ b hb => safe_runBound he hcallee hb
  next =>
    refine safe_arguments he (fun M hM vs hvs => ?_) hargs trivial
    exact (safe_invoke he (hcallee.1.mono hM) _ (hcallee.2.mono hM) hvs).result
  next => exact safe_failWith _ _

theorem safe_applyTo (he : e.Tidy) {callee : Value} (hcallee : L.Fits .form callee)
    {values : List Value} (hvalues : L.FitsAll .datum values) :
    L.Safe FitsResult (e.applyTo callee values) := by
  unfold Engine.applyTo
  split
  next => exact safe_run he (FitsArgs.serves hcallee (fitsArgs_nil.mpr hvalues.asForms))
  next name contract op =>
    have hpure : ∀ {M : Layout} {v : Value}, M.Fits .datum v → M.Safe FitsResult (pure v) :=
      fun hv => safe_pure hv.result
    refine safe_bind (safe_bindContract hpure name contract hvalues) ?_
    exact fun M _ b hb => safe_runBound he hcallee hb
  next => exact (safe_invoke he hcallee.1 _ hcallee.2 hvalues).result
  next => exact safe_failWith _ _

theorem safe_callForm (he : e.Tidy) {forms : List Value} (hforms : L.FitsAll .form forms) :
    L.Safe FitsResult (e.callForm forms) := by
  match forms with
  | [] => exact safe_pure trivial
  | head :: args =>
    exact safe_value he hforms.1 fun M hM callee hcallee =>
      safe_call he hcallee (hforms.2.mono hM)

theorem safe_newStructOf (he : e.Tidy) {fields values : Record Value}
    (hfields : L.FitsFields .form fields) (hvalues : L.FitsFields .datum values) :
    L.Safe FitsResult (e.newStructOf fields values) := by
  induction fields generalizing L values with
  | nil => exact (safe_newStruct hvalues).result
  | cons field rest ih =>
    obtain ⟨key, form⟩ := field
    refine safe_value he hfields.1 fun M hM v hv => ?_
    exact ih (hfields.2.mono hM) ((hvalues.mono hM).insert key hv)

-- One case for each kind of value that is not its own value.
theorem safe_step (he : e.Tidy) {v : Value} (hv : L.Fits .form v) :
    L.Safe FitsResult (e.step v) := by
  cases v with
  | list a => exact (safe_copyList hv).result
  | struct a =>
    refine safe_descend (safe_bind (Q := (FitsFields · .form)) (safe_fields ?_) ?_)
    · rintro ⟨⟩
    · exact fun M _ r hr => safe_newStructOf he hr trivial
  | symbol path => exact (safe_resolve path).result
  | expr forms => exact safe_leavingCrumb _ (safe_descend (safe_callForm he hv.2))
  | leaving | breaking | goto | label => exact hv.elim
  | _ => exact safe_pure hv

/-! ## All of evaluation -/

/-- Evaluation is safe with any amount of fuel. -/
theorem tidy_engine (fuel : Nat) : (Engine.ofFuel fuel).Tidy := by
  induction fuel with
  | zero => exact ⟨fun _ => safe_outOfFuel, fun _ _ => safe_outOfFuel⟩
  | succ fuel ih => exact ⟨fun hv => safe_step ih hv, fun hf hvs => safe_applyTo ih hf hvs⟩

theorem safe_settled (form : Value) {v : Value} (hv : L.FitsResult v) :
    L.Safe (Fits · .datum) (settled form v) := by
  cases v with
  | leaving | breaking | goto | label => exact safe_leavingCrumb _ (safe_fail _)
  | _ => exact safe_pure (Q := (Fits · .datum)) hv

end Layout

/-! ## The outermost level -/

namespace Engine

open Eval

def top (e : Engine) : List Value → Value → Eval Value
  | [], result => pure result
  | form :: rest, _ => do
    let v ← e.evaluate form
    e.top rest (← settled form v)

def topForms (e : Engine) (forms : Except Error (List Form)) : Eval Value := do
  let forms ← load (← ofExcept forms)
  e.top forms .nil

theorem top_ofFuel (fuel : Nat) (forms : List Value) (result : Value) :
    (ofFuel fuel).top forms result = evalTop fuel forms result := by
  induction forms generalizing result with
  | nil => rfl
  | cons form rest ih =>
    simp only [top, evalTop, ih]
    rfl

theorem topForms_ofFuel (fuel : Nat) (forms : Except Error (List Form)) :
    (ofFuel fuel).topForms forms = evalForms fuel forms := by
  simp only [topForms, evalForms, top_ofFuel]

end Engine

namespace Layout

variable {L : Layout} {e : Engine}

theorem safe_top (he : e.Tidy) {forms : List Value} (hforms : L.FitsAll .form forms)
    {result : Value} (hresult : L.Fits .datum result) :
    L.Safe (Fits · .datum) (e.top forms result) := by
  induction forms generalizing L result with
  | nil => exact safe_pure hresult
  | cons form rest ih =>
    refine safe_bind (he.evaluate hforms.1) fun M hM v hv => ?_
    refine safe_bind (safe_settled form hv) fun N hN w hw => ?_
    exact ih (hforms.2.mono (hM.trans hN)) hw

/-- Whatever was read is evaluated safely, and its value is data. -/
theorem safe_topForms (he : e.Tidy) (r : Reader) :
    L.Safe (Fits · .datum) (e.topForms r.all.1) := by
  refine safe_bind (Q := fun _ forms => r.all.1 = .ok forms) (safe_ofExcept fun _ h => h) ?_
  intro M _ forms hforms
  exact safe_bind (safe_load hforms) fun N _ vs hvs => safe_top he hvs trivial

/-! ## Sessions -/

theorem Safe.run {α : Type} {Q : Layout → α → Prop} {x : Eval α} (hx : L.Safe Q x)
    {i : Interpreter} (hi : L.Holds i) : ∃ M : Layout, M.Holds (i.run x).2 := by
  have hxi := hx i hi
  unfold Interpreter.run
  cases hr : x i with
  | ok a j =>
    rw [hr] at hxi
    obtain ⟨M, -, hj, -⟩ := hxi
    exact ⟨M, hj⟩
  | error h j =>
    rw [hr] at hxi
    obtain ⟨⟨M, -, hj⟩, -⟩ := hxi
    exact ⟨M, hj⟩

theorem Holds.define {i : Interpreter} (hi : L.Holds i) {d : Definition}
    (hd : d.op.Suits d.contract) : L.Holds (i.define d) := by
  refine ⟨FitsFields.insert hi.globals d.name ?_, hi.frames, hi.heap⟩
  cases hc : d.contract with
  | none =>
    rw [hc] at hd
    exact hd
  | some contract =>
    rw [hc] at hd
    exact hd

theorem Holds.defineAlias {i : Interpreter} (hi : L.Holds i) (name target : String) :
    L.Holds (i.defineAlias name target) := by
  unfold Interpreter.defineAlias
  split
  next v hv => exact ⟨FitsFields.insert hi.globals name (hi.get? hv), hi.frames, hi.heap⟩
  next => exact hi

def bare : Layout :=
  ⟨fun _ => False⟩

theorem holds_fresh (maxDepth : Nat) (console : Console) :
    bare.Holds (.fresh maxDepth console) := by
  have hheap : bare.HoldsHeap {} := ⟨False.elim, fun hc => by simp at hc, False.elim⟩
  have hempty : bare.Holds { maxDepth, console } :=
    ⟨trivial, fun f hf => absurd hf List.not_mem_nil, hheap⟩
  exact Interpreter.fresh_induction hempty (fun _ d hd hi => hi.define (prelude_suits d hd))
    fun _ name target hi => hi.defineAlias name target

end Layout

/-- Every state of a session has a layout. -/
theorem Interpreter.Reachable.exists_layout {i : Interpreter} (h : i.Reachable) :
    ∃ L : Layout, L.Holds i := by
  induction h with
  | fresh maxDepth console => exact ⟨_, Layout.holds_fresh maxDepth console⟩
  | source fuel source _ ih =>
    obtain ⟨L, hL⟩ := ih
    have hsafe := L.safe_topForms (Layout.tidy_engine fuel) (Reader.ofSource source [])
    rw [Engine.topForms_ofFuel] at hsafe
    exact hsafe.run hL
  | interactive fuel source answers _ ih =>
    obtain ⟨L, hL⟩ := ih
    have hsafe := L.safe_topForms (Layout.tidy_engine fuel) (Reader.ofSource source answers)
    rw [Engine.topForms_ofFuel] at hsafe
    exact hsafe.run hL

/-! ## Watching -/

abbrev Hand := List (Role × Value)

/-- What a result hands on as data: a signal its payload, if it has one. -/
def Value.carried : Value → List Value
  | .leaving v | .breaking v => [v]
  | .goto _ | .label _ => []
  | v => [v]

/-- A state and values at hand that have a common layout. -/
def Interpreter.LaidOut (i : Interpreter) (hand : Hand) : Prop :=
  ∃ L : Layout, L.Holds i ∧ ∀ p ∈ hand, L.Fits p.1 p.2

open Classical in
/-- Runs a computation between two checks: before it of the state and the values at hand, after it of
the state it has reached and of what the result hands on. A check that fails raises the alarm. -/
noncomputable def Eval.watched (check : Interpreter → Hand → Prop) (hand : Hand)
    (act : Eval Value) : Eval Value := fun i =>
  if check i hand then
    match act i with
    | .ok v j => if check j (v.carried.map (.datum, ·)) then .ok v j else .error .alarm j
    | .error h j => if check j [] then .error h j else .error .alarm j
  else
    .error .alarm i

/-- The engine with the given amount of fuel that checks every evaluation and every application,
however deeply nested. -/
noncomputable def Engine.watched (check : Interpreter → Hand → Prop) : Nat → Engine
  | 0 => .ofFuel 0
  | fuel + 1 =>
    { fuel := fuel + 1
      evaluate := fun v => Eval.watched check [(.form, v)] ((watched check fuel).step v)
      apply := fun f vs => Eval.watched check ((.form, f) :: vs.map (.datum, ·))
        ((watched check fuel).applyTo f vs) }

/-- Apart from its checks, a watched engine does what the plain one does. -/
theorem Engine.watched_true (fuel : Nat) : watched (fun _ _ => True) fuel = ofFuel fuel := by
  have hwatched : ∀ hand act, Eval.watched (fun _ _ => True) hand act = act := by
    intro hand act
    funext i
    simp only [Eval.watched, if_true]
    cases act i <;> rfl
  induction fuel with
  | zero => rfl
  | succ fuel ih =>
    simp only [watched, ih, hwatched]
    rfl

namespace Layout

variable {L : Layout} {check : Interpreter → Hand → Prop}

theorem FitsResult.carried {v : Value} (h : L.FitsResult v) :
    ∀ p ∈ v.carried.map (Role.datum, ·), L.Fits p.1 p.2 := by
  intro p hp
  obtain ⟨w, hw, rfl⟩ := List.mem_map.mp hp
  cases v with
  | goto | label => exact absurd hw List.not_mem_nil
  | _ =>
    obtain rfl := List.mem_singleton.mp hw
    exact h

theorem safe_watched (hcheck : ∀ i hand, i.LaidOut hand → check i hand) {hand : Hand}
    (hhand : ∀ p ∈ hand, L.Fits p.1 p.2) {x : Eval Value} (hx : L.Safe FitsResult x) :
    L.Safe FitsResult (Eval.watched check hand x) := by
  intro i hi
  have hxi := hx i hi
  unfold Eval.watched
  rw [if_pos (hcheck i hand ⟨L, hi, hhand⟩)]
  cases hr : x i with
  | ok v j =>
    rw [hr] at hxi
    obtain ⟨M, hg, hj, hv⟩ := hxi
    dsimp only
    rw [if_pos (hcheck j _ ⟨M, hj, hv.carried⟩)]
    exact ⟨M, hg, hj, hv⟩
  | error h j =>
    rw [hr] at hxi
    obtain ⟨⟨M, hg, hj⟩, hh⟩ := hxi
    dsimp only
    rw [if_pos (hcheck j [] ⟨M, hj, fun p hp => absurd hp List.not_mem_nil⟩)]
    exact ⟨⟨M, hg, hj⟩, hh⟩

/-- A watch for what holds under every layout does not get in the way. -/
theorem tidy_watched (hcheck : ∀ i hand, i.LaidOut hand → check i hand) (fuel : Nat) :
    (Engine.watched check fuel).Tidy := by
  induction fuel with
  | zero => exact tidy_engine 0
  | succ fuel ih =>
    constructor
    · intro L v hv
      refine safe_watched hcheck ?_ (safe_step ih hv)
      intro p hp
      rw [List.mem_singleton.mp hp]
      exact hv
    · intro L f vs hf hvs
      refine safe_watched hcheck ?_ (safe_applyTo ih hf hvs)
      intro p hp
      rcases List.mem_cons.mp hp with rfl | hp
      · exact hf
      · obtain ⟨v, hv, rfl⟩ := List.mem_map.mp hp
        exact fitsAll_iff.mp hvs v hv

end Layout

/-- From a state of a session, whatever is read and evaluated under a watch for what holds under
every layout: the alarm is not raised. -/
theorem Interpreter.Reachable.never_alarmed {i : Interpreter} (h : i.Reachable)
    {check : Interpreter → Hand → Prop} (hcheck : ∀ i hand, i.LaidOut hand → check i hand)
    (fuel : Nat) (r : Reader) :
    (i.run ((Engine.watched check fuel).topForms r.all.1)).1 ≠ .error .alarm := by
  obtain ⟨L, hL⟩ := h.exists_layout
  intro halarm
  obtain ⟨j, hj⟩ := run_error_iff.mp halarm
  have hends := L.safe_topForms (Layout.tidy_watched hcheck fuel) r i hL
  rw [hj] at hends
  exact hends.2 rfl

end Lisplet
