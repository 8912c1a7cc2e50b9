import Lisplet.Proofs.Crash
import Lisplet.Proofs.Settling

/-!
# Evaluation comes to an end

Without loops and jumps the only ways to evaluate more and more are to nest ever deeper, which the
limit on the depth cuts short, and to hand on calls for ever, which nothing cuts short. The proof is
by induction on the number of levels that are left. On one level evaluation settles because the
levels below do. Then application on that level settles, by induction on the number of times a call
is handed on before it comes to something else.
-/

namespace Lisplet

def Operation.loops : Operation → Bool
  | .whileLoop | .untilLoop | .doLoop | .endlessLoop | .forLoop | .goto => true
  | _ => false

namespace Policy

open Eval Builtin

structure Straight (P : Policy) : Prop where
  exhaust : P.exhaust
  jump : ¬ P.jump
  loops : ∀ {contract op}, P.primitive contract op → op.loops = false

/-- Evaluation settles with at most `d` levels left. -/
def Evaluates (P : Policy) (d : Nat) : Prop :=
  ∀ v, P.Allows v → P.Settles d P.Allows fun e => e.evaluate v

def Applies (P : Policy) (d : Nat) : Prop :=
  ∀ f vs, P.Allows f → P.AllowsAll vs → P.Settles d P.Allows fun e => e.apply f vs

variable {P : Policy} {d : Nat}

/-! ## Forms in order -/

theorem settles_escalate {v : Value} (hv : P.Allows v) :
    P.Settles d P.Allows fun _ => escalate v :=
  settles_const (sound_escalate hv) (sound_escalate (patient_permissive.allows v))

theorem settles_nil : P.Settles d P.Allows fun _ => pure .nil :=
  settles_pure (Q := P.Allows) trivial

theorem settles_value (he : P.Evaluates d) {form : Value} (hform : P.Allows form)
    {next : Engine → Value → Eval Value}
    (hnext : ∀ v, P.Allows v → P.Settles d P.Allows fun e => next e v) :
    P.Settles d P.Allows fun e => e.value form (next e) := by
  apply settles_bind (he form hform)
  intro v hv
  exact settles_ite (fun _ => settles_escalate hv) fun _ => hnext v hv

theorem settles_sequence (he : P.Evaluates d) {forms : List Value} (hforms : P.AllowsAll forms)
    {result : Value} (hresult : P.Allows result) :
    P.Settles d P.Allows fun e => e.sequence forms result := by
  induction forms generalizing result with
  | nil => exact settles_pure hresult
  | cons form rest ih => exact settles_value he hforms.1 fun v hv => ih hforms.2 hv

/-! ## Operations that evaluate forms -/

theorem settles_conditional (he : P.Evaluates d) {args : List Value} (hargs : P.AllowsAll args) :
    P.Settles d P.Allows fun e => conditional e args := by
  match args with
  | [] | [_] => exact settles_fail _
  | [_, consequent] =>
    apply settles_value he hargs.1
    intro v _
    exact settles_ite (fun _ => he consequent hargs.2.1) fun _ => settles_nil
  | [_, consequent, alternative] =>
    apply settles_value he hargs.1
    intro v _
    exact settles_ite (fun _ => he consequent hargs.2.1) fun _ => he alternative hargs.2.2.1
  | _ :: _ :: _ :: extra :: _ => exact settles_tooMany extra

theorem settles_conjunction (he : P.Evaluates d) {forms : List Value} (hforms : P.AllowsAll forms)
    {result : Value} (hresult : P.Allows result) :
    P.Settles d P.Allows fun e => conjunction e forms result := by
  induction forms generalizing result with
  | nil => exact settles_pure hresult
  | cons form rest ih =>
    apply settles_value he hforms.1
    intro v hv
    exact settles_ite (fun _ => settles_nil) fun _ => ih hforms.2 hv

theorem settles_or (he : P.Evaluates d) {forms : List Value} (hforms : P.AllowsAll forms) :
    P.Settles d P.Allows fun e => Builtin.or e forms := by
  induction forms with
  | nil => exact settles_nil
  | cons form rest ih =>
    apply settles_value he hforms.1
    intro v hv
    exact settles_ite (fun _ => settles_pure hv) fun _ => ih hforms.2

theorem settles_signalWith (he : P.Evaluates d) (signal : Value → Value)
    (hsignal : ∀ v, P.Allows v → P.Allows (signal v)) {args : List Value}
    (hargs : P.AllowsAll args) :
    P.Settles d P.Allows fun e => signalWith signal e args := by
  match args with
  | [] => exact settles_pure (hsignal .nil trivial)
  | [form] => exact settles_value he hargs.1 fun v hv => settles_pure (hsignal v hv)
  | _ :: extra :: _ => exact settles_tooMany extra

theorem settles_assign (path : String) {v : Value} (hv : P.Allows v) :
    P.Settles d P.Allows fun _ => Eval.assign path v :=
  settles_const (sound_assign path hv) (sound_assign path (patient_permissive.allows v))

theorem settles_assignTo (he : P.Evaluates d) {args : List Value} (hargs : P.AllowsAll args)
    (h : P.Supplies 2 args) : P.Settles d P.Allows fun e => Builtin.assign e args := by
  match args with
  | [] => exact settles_missingArgument (h.missing (by simp))
  | [form] => cases form <;> exact settles_missingArgument (h.missing (by simp))
  | form :: v :: rest =>
    have hcomputed : P.Settles d P.Allows fun e =>
        e.value form (Builtin.assignTo v) := by
      apply settles_value he hargs.1
      intro target _
      cases target with
      | str path => exact settles_assign path hargs.2.1
      | symbol path => exact settles_assign path hargs.2.1
      | _ => exact settles_failWith _ _
    cases form with
    | symbol path => exact settles_assign path hargs.2.1
    | _ => exact hcomputed

theorem settles_eval (he : P.Evaluates d) {args : List Value} (hargs : P.AllowsAll args)
    (h : P.Supplies 1 args) : P.Settles d P.Allows fun e => Builtin.eval e args := by
  match args with
  | [] => exact settles_missingArgument (h.missing (by simp))
  | form :: rest =>
    cases form with
    | str source =>
      have hread : ∀ P : Policy, P.Sound (fun forms => Lisplet.read source = .ok forms)
          (ofExcept (Lisplet.read source)) := fun P => sound_ofExcept fun _ h => h
      apply settles_bind (settles_const (hread P) (hread patient))
      intro forms hforms
      apply settles_bind (settles_const (sound_load hforms) (sound_load (P := patient) hforms))
      intro vs hvs
      exact settles_sequence he hvs trivial
    | _ => exact he _ hargs.1

theorem settles_attempt (he : P.Evaluates d) {args : List Value} (hargs : P.AllowsAll args)
    (h : P.Supplies 3 args) : P.Settles d P.Allows fun e => attempt e args := by
  match args with
  | [] | [_] | [_, _] => exact settles_missingArgument (h.missing (by simp))
  | form :: name :: handler :: _ =>
    apply settles_bind (settles_const (sound_handlerName name) (sound_handlerName name))
    intro name _
    apply settles_rescue (he form hargs.1)
    intro err
    have hframe : P.AllowsFields [(name, .error err)] := ⟨trivial, trivial⟩
    exact settles_inFrame hframe (he handler hargs.2.2.1)

/-! ## Bodies -/

theorem settles_runLeg (hP : P.Straight) (he : P.Evaluates d) {forms : List Value}
    (hforms : P.AllowsAll forms) (labels : Record Nat) (pos : Nat) {result : Value}
    (hresult : P.Allows result) :
    P.Settles d P.AllowsLeg fun e => e.runLeg labels pos result forms := by
  induction forms generalizing labels pos result with
  | nil => exact settles_pure (Q := P.AllowsLeg) hresult
  | cons form rest ih =>
    apply settles_bind (he form hforms.1)
    intro v hv
    cases v with
    | leaving w => exact settles_pure (Q := P.AllowsLeg) hv
    | breaking w => exact settles_pure (Q := P.AllowsLeg) hv
    | goto target => exact absurd hv hP.jump
    | label name => exact ih hforms.2 _ _ trivial
    | _ => exact ih hforms.2 _ _ hv

def afterLeg (e : Engine) (forms : List Value) : Leg → Eval Flow
  | .ended flow => pure flow
  | .jump label labels result => e.runLegs forms (e.fuel - 1) labels (label + 1) result

-- There are no jumps, so one leg is all of the body and one unit of fuel is enough for the legs.
theorem settles_runBody (hP : P.Straight) (he : P.Evaluates d) {forms : List Value}
    (hforms : P.AllowsAll forms) : P.Settles d P.AllowsFlow fun e => e.runBody forms := by
  have hleg :=
    settles_runLeg hP he hforms (literalLabels [] 0 forms) 0 (show P.Allows .nil from trivial)
  apply settles_of_pos hP.exhaust (y := fun e =>
    e.runLeg (literalLabels [] 0 forms) 0 .nil forms >>= afterLeg e forms)
  · intro e hzero
    unfold Engine.runBody
    rw [hzero]
    rfl
  · intro e hpos
    obtain ⟨n, hn⟩ := Nat.exists_eq_succ_of_ne_zero hpos
    unfold Engine.runBody
    rw [hn]
    apply bind_congr
    intro leg
    cases leg with
    | ended flow => rfl
    | jump label labels result =>
      unfold afterLeg
      rw [hn]
      rfl
  · apply settles_bind hleg
    intro leg hleg
    cases leg with
    | ended flow => exact settles_pure (Q := P.AllowsFlow) hleg
    | jump label labels result => exact absurd hleg.1 hP.jump

theorem settles_block (hP : P.Straight) (he : P.Evaluates d) {args : List Value}
    (hargs : P.AllowsAll args) (h : P.Supplies 1 args) :
    P.Settles d P.Allows fun e => block e args := by
  match args with
  | [] => exact settles_missingArgument (h.missing (by simp))
  | locals :: forms =>
    have hpatient := sound_blockFrame (patient_permissive.allows locals)
    apply settles_bind (settles_const (sound_blockFrame hargs.1) hpatient)
    intro frame hframe
    apply settles_bind (settles_inFrame hframe (settles_runBody hP he hargs.2))
    intro flow hflow
    exact settles_pure hflow.toValue

/-! ## Operations and calls -/

-- Calls are left for later: they are what application is for.
theorem settles_run_of_ne_apply (hP : P.Straight) (he : P.Evaluates d)
    {contract : Option (List Kind)} {op : Operation} (hop : P.primitive contract op)
    (hne : op ≠ .apply) {args : List Value} (hargs : P.AllowsAll args)
    (h : P.Supplies op.arity args) : P.Settles d P.Allows fun e => op.run e args := by
  have hloops := hP.loops hop
  by_cases hplain : op.evaluates = false
  · have hrun : ∀ e, op.run e args = op.run (.ofFuel 0) args :=
      fun e => run_eq_of_plain hplain e (.ofFuel 0) args
    have hsound := sound_run_of_plain (e := .ofFuel 0) hplain hop hargs h
    have hop' : patient.primitive contract op := trivial
    have hpatient := sound_run_of_plain (e := .ofFuel 0) hplain hop'
      (patient_permissive.allowsAll args) (.inr trivial)
    simp only [hrun]
    exact settles_const hsound hpatient
  · cases op with
    | conditional => exact settles_conditional he hargs
    | block => exact settles_block hP he hargs h
    | leave => exact settles_signalWith he .leaving (fun _ hv => hv) hargs
    | exitLoop => exact settles_signalWith he .breaking (fun _ hv => hv) hargs
    | whileLoop | untilLoop | doLoop | endlessLoop | forLoop => cases hloops
    | and => exact settles_conjunction he hargs trivial
    | or => exact settles_or he hargs
    | assign => exact settles_assignTo he hargs h
    | eval => exact settles_eval he hargs h
    | attempt => exact settles_attempt he hargs h
    | apply => exact absurd rfl hne
    | _ => exact absurd rfl hplain

theorem settles_invoke (he : P.Evaluates d) {captured : Record Value}
    (hcaptured : P.AllowsFields captured) (params : List String) {body : Value}
    (hbody : P.Allows body) {args : List Value} (hargs : P.AllowsAll args) :
    P.Settles d P.Allows fun e => e.invoke captured params body args := by
  apply settles_inFrame (allowsFields_bindParams hcaptured params hargs)
  apply settles_bind (he body hbody)
  intro v hv
  exact settles_const (sound_closureResult hv) (sound_closureResult (patient_permissive.allows v))

/-! ## Application -/

-- Whether there is a next call depends on the arguments alone.
theorem settles_apply_of_handOn_none {h : Heap} {args : List Value} (hhand : h.handOn args = none)
    (hargs : P.Supplies 2 args) : P.Settles d P.Allows fun e => Builtin.apply e args := by
  match args with
  | [] | [_] => exact settles_missingArgument (hargs.missing (by simp))
  | f :: v :: rest =>
    cases v with
    | nil => cases hhand
    | list a => cases hhand
    | _ => exact settles_failWith _ _

/-- Binding values keeps to what the contract makes of them. -/
theorem settles_bindContract_pure (name : String) (contract : List Kind) {vs : List Value}
    (hvs : P.AllowsAll vs) :
    P.Settles d (fun b => (P.AllowsBound vs.length b ∧ promised (some contract) ≤ vs.length) ∧
      ∀ ws, b = .args ws → acceptContract contract vs = some ws)
      fun _ => bindContract pure name contract vs := by
  have hsound := sound_bindContract (fun _ => sound_pure) name contract hvs
  have hpatient := sound_bindContract (fun _ => sound_pure) name contract
    (patient_permissive.allowsAll vs)
  refine settles_const (hsound.and ?_) hpatient
  rintro i b j hb ws rfl
  exact (bindContract_pure_iff.mp hb).1

theorem settles_applyTo_of_no_next (hP : P.Straight) (he : P.Evaluates d) {f : Value}
    {vs : List Value} (hf : P.Allows f) (hvs : P.AllowsAll vs) {h : Heap}
    (hnext : h.nextCall f vs = none) :
    P.Settles d P.Allows fun e => e.applyTo f vs := by
  have hhand : ∀ args, f.applyArgs? vs = some args → h.handOn args = none := by
    intro args hargs
    rw [Heap.nextCall, hargs] at hnext
    exact hnext
  cases f with
  | primitive id name op =>
    have hsupplies := supplies_of_promised hf (Nat.zero_le vs.length)
    by_cases hop : op = .apply
    · subst hop
      exact settles_apply_of_handOn_none (hhand vs rfl) hsupplies
    · exact settles_run_of_ne_apply hP he hf hop hvs hsupplies
  | checked id name contract op =>
    apply settles_bind (settles_bindContract_pure name contract hvs)
    intro b hb
    cases b with
    | signal v => exact settles_pure hb.1.1
    | args ws =>
      have hlen : promised (some contract) ≤ ws.length := hb.1.1.2 ▸ hb.1.2
      have hsupplies := supplies_of_promised hf hlen
      by_cases hop : op = .apply
      · subst hop
        exact settles_apply_of_handOn_none (hhand ws (hb.2 ws rfl)) hsupplies
      · exact settles_run_of_ne_apply hP he hf hop hb.1.1.1 hsupplies
  | closure id captured params body => exact settles_invoke he hf.1 params hf.2 hvs
  | _ => exact settles_failWith _ _

theorem allows_nextCall {i : Interpreter} (hi : P.Admits i) {f g : Value} {vs ws : List Value}
    (hf : P.Allows f) (hvs : P.AllowsAll vs) (h : i.heap.nextCall f vs = some (g, ws)) :
    P.Allows g ∧ P.AllowsAll ws := by
  obtain ⟨args, hargs, hhand⟩ := Option.bind_eq_some_iff.mp h
  have hall : P.AllowsAll args := by
    unfold Value.applyArgs? at hargs
    split at hargs
    next =>
      cases hargs
      exact hvs
    next id name contract =>
      have hsound := sound_bindContract (fun _ => sound_pure) name contract hvs i hi
      rw [bindContract_pure_iff.mpr ⟨hargs, rfl⟩] at hsound
      exact hsound.2.1.1
    next => cases hargs
  unfold Heap.handOn at hhand
  split at hhand
  next =>
    cases hhand
    exact ⟨hall.1, trivial⟩
  next g a _ =>
    cases hhand
    exact ⟨hall.1, hi.heap.items hall.2.1⟩
  next => cases hhand

/-- If evaluation settles, so does application: a call that is not a runaway call is handed on a
number of times, and the last one does something else. -/
theorem Evaluates.applies (he : P.Evaluates d) (hP : P.Straight) : P.Applies d := by
  intro f vs hf hvs
  have hsound := fun n => (sound_engine hP.exhaust n).apply hf hvs
  refine ⟨hsound, fun n e i hagrees _ _ => hagrees.ask (.apply f vs) i, ?_⟩
  intro i hi hidle hdepth
  by_cases hrun : i.heap.Runaway f vs
  · have haway := apply_of_runaway hidle hrun
    refine ⟨.error .outOfFuel i, 0, fun m _ => haway m, fun _ _ => ?_⟩
    refine ⟨f, vs, i, hf, hvs, hidle, hrun, 0, 0, fun m _ => ?_⟩
    exact ⟨.apply f vs, i, i, hidle, Engine.handsOn_ask (haway m), .here⟩
  · obtain ⟨n, hn⟩ := not_forall.mp hrun
    rw [Bool.not_eq_true, Option.isSome_eq_false_iff, Option.isNone_iff_eq_none] at hn
    clear hrun hsound
    induction n generalizing f vs with
    | zero => cases hn
    | succ n ih =>
      apply Settled.ask (q := .apply f vs) hidle
      cases hnext : i.heap.nextCall f vs with
      | none =>
        exact (settles_applyTo_of_no_next hP he hf hvs hnext).settled i hi hidle hdepth
      | some call =>
        obtain ⟨g, ws⟩ := call
        obtain ⟨hg, hws⟩ := allows_nextCall hi hf hvs hnext
        rw [Heap.callAfter, hnext] at hn
        exact (ih g ws hg hws hn).ahead 0 fun _ e _ _ => applyTo_of_nextCall hidle hnext e

theorem settles_apply (ha : P.Applies d) {args : List Value} (hargs : P.AllowsAll args)
    (h : P.Supplies 2 args) : P.Settles d P.Allows fun e => Builtin.apply e args := by
  match args with
  | [] | [_] => exact settles_missingArgument (h.missing (by simp))
  | f :: v :: rest =>
    cases v with
    | nil => exact ha f [] hargs.1 trivial
    | list a =>
      have hpatient := sound_items (patient_permissive.cell a)
      apply settles_bind (settles_const (sound_items hargs.2.1) hpatient)
      intro items hitems
      exact ha f items hargs.1 hitems
    | _ => exact settles_failWith _ _

/-! ## Calls and evaluation -/

theorem settles_run (hP : P.Straight) (he : P.Evaluates d) (ha : P.Applies d)
    {contract : Option (List Kind)} {op : Operation} (hop : P.primitive contract op)
    {args : List Value} (hargs : P.AllowsAll args) (h : P.Supplies op.arity args) :
    P.Settles d P.Allows fun e => op.run e args := by
  by_cases hne : op = .apply
  · subst hne
    exact settles_apply ha hargs h
  · exact settles_run_of_ne_apply hP he hop hne hargs h

theorem settles_bindArgs (he : P.Evaluates d) (further : Kind) (kinds : List Kind)
    {args : List Value} (hargs : P.AllowsAll args) :
    P.Settles d (P.AllowsBound args.length)
      fun e => bindArgs e.evaluate further kinds args := by
  induction args generalizing kinds with
  | nil => exact settles_pure (Q := P.AllowsBound 0) ⟨trivial, rfl⟩
  | cons arg more ih =>
    have hmore : ∀ v, P.Allows v → P.Settles d (P.AllowsBound (more.length + 1)) fun e =>
        bindArgs e.evaluate further kinds.tail more >>=
          fun bound => pure (bound.cons v) := by
      intro v hv
      apply settles_bind (ih kinds.tail hargs.2)
      intro bound hbound
      exact settles_pure (hbound.cons hv)
    unfold bindArgs
    apply settles_ite
    · intro _
      exact hmore arg hargs.1
    · intro _
      apply settles_bind (he arg hargs.1)
      intro v hv
      apply settles_ite
      · intro _
        apply settles_bind (settles_escalate hv)
        intro s hs
        exact settles_pure (Q := P.AllowsBound _) hs
      · intro _
        have hpatient := sound_accept (kinds.headD further) (patient_permissive.allows v)
        exact settles_bind (settles_const (sound_accept _ hv) hpatient) hmore

theorem settles_bindContract (he : P.Evaluates d) (name : String) (contract : List Kind)
    {args : List Value} (hargs : P.AllowsAll args) :
    P.Settles d (fun b => P.AllowsBound args.length b ∧ promised (some contract) ≤ args.length)
      fun e => bindContract e.evaluate name contract args := by
  unfold bindContract
  apply settles_ite
  · intro _
    exact settles_fail _
  · intro hlen
    have hbind : ∀ further, P.Settles d
        (fun b => P.AllowsBound args.length b ∧ promised (some contract) ≤ args.length)
        fun e => bindArgs e.evaluate further (fixedKinds contract) args := by
      intro further
      exact (settles_bindArgs he further _ hargs).mono fun b hb => ⟨hb, Nat.le_of_not_lt hlen⟩
    cases restKind? contract with
    | some last => exact hbind last
    | none =>
      cases args.drop (fixedKinds contract).length with
      | nil => exact hbind .any
      | cons extra more => exact settles_tooMany extra

theorem settles_arguments (he : P.Evaluates d) {next : Engine → List Value → Eval Value}
    (hnext : ∀ vs, P.AllowsAll vs → P.Settles d P.Allows fun e => next e vs)
    {forms values : List Value} (hforms : P.AllowsAll forms) (hvalues : P.AllowsAll values) :
    P.Settles d P.Allows fun e => e.arguments (next e) forms values := by
  induction forms generalizing values with
  | nil => exact hnext _ hvalues.reverse
  | cons form rest ih => exact settles_value he hforms.1 fun v hv => ih hforms.2 ⟨hv, hvalues⟩

theorem settles_call (hP : P.Straight) (he : P.Evaluates d) (ha : P.Applies d) {callee : Value}
    (hcallee : P.Allows callee) {args : List Value} (hargs : P.AllowsAll args) :
    P.Settles d P.Allows fun e => e.call callee args := by
  cases callee with
  | primitive id name op =>
    have hsupplies := supplies_of_promised hcallee (Nat.zero_le args.length)
    exact settles_run hP he ha hcallee hargs hsupplies
  | checked id name contract op =>
    apply settles_bind (settles_bindContract he name contract hargs)
    intro b hb
    cases b with
    | signal v => exact settles_pure hb.1
    | args ws =>
      have hlen : promised (some contract) ≤ ws.length := hb.1.2 ▸ hb.2
      exact settles_run hP he ha hcallee hb.1.1 (supplies_of_promised hcallee hlen)
  | closure id captured params body =>
    apply settles_arguments he ?_ hargs (show P.AllowsAll [] from trivial)
    intro vs hvs
    exact settles_invoke he hcallee.1 params hcallee.2 hvs
  | _ => exact settles_failWith _ _

theorem settles_callForm (hP : P.Straight) (he : P.Evaluates d) (ha : P.Applies d)
    {forms : List Value} (hforms : P.AllowsAll forms) :
    P.Settles d P.Allows fun e => e.callForm forms := by
  match forms with
  | [] => exact settles_nil
  | head :: args =>
    apply settles_value he hforms.1
    intro callee hcallee
    exact settles_call hP he ha hcallee hforms.2

theorem settles_newStructOf (he : P.Evaluates d) {fields values : Record Value}
    (hfields : P.AllowsFields fields) (hvalues : P.AllowsFields values)
    (hkeys : values.keys.Nodup) :
    P.Settles d P.Allows fun e => e.newStructOf fields values := by
  induction fields generalizing values with
  | nil =>
    have hpatient := sound_newStruct hkeys (patient_permissive.allowsFields values)
    exact settles_const (sound_newStruct hkeys hvalues) hpatient
  | cons field rest ih =>
    obtain ⟨key, form⟩ := field
    apply settles_value he hfields.1
    intro v hv
    exact ih hfields.2 (hvalues.insert key hv) (Record.nodup_keys_insert hkeys key v)

-- A list, a symbol and an atom need nothing. An expression and a struct are one level deeper.
theorem settles_program (hP : P.Straight) (hlower : ∀ k, k < d → P.Evaluates k) {v : Value}
    (hv : P.Allows v) : P.Settles d P.Allows (Request.evaluate v).program := by
  have hsound : ∀ n, (Engine.ofFuel n).Sound P := sound_engine hP.exhaust
  cases v with
  | list a => exact settles_const (sound_copyList hv) (sound_copyList (patient_permissive.cell a))
  | symbol path => exact settles_const (sound_resolve path) (sound_resolve path)
  | struct a =>
    have hempty : (Record.keys ([] : Record Value)).Nodup := List.nodup_nil
    apply settles_descend
    · intro n
      exact sound_bind (sound_fields hv) fun fields hf =>
        sound_newStructOf (hsound n) hf trivial hempty
    · intro k hk
      apply settles_bind
        (settles_const (sound_fields hv) (sound_fields (patient_permissive.cell a)))
      intro fields hfields
      exact settles_newStructOf (hlower k hk) hfields trivial hempty
  | expr forms =>
    apply settles_descend
    · intro n
      exact sound_callForm (hsound n) hv
    · intro k hk
      exact settles_callForm hP (hlower k hk) ((hlower k hk).applies hP) hv
  | _ => exact settles_pure hv

/-- Without loops and jumps, evaluation settles however many levels are left. -/
theorem Straight.evaluates (hP : P.Straight) (d : Nat) : P.Evaluates d := by
  induction d using Nat.strongRecOn with
  | ind d ih =>
    intro v hv
    exact settles_ask (q := .evaluate v) (fun n => (sound_engine hP.exhaust n).evaluate hv)
      (settles_program hP ih hv)

def straight : Policy where
  primitive _ op := op.loops = false
  jump := False
  cell _ := True
  crash _ := True
  exhaust := True
  jump_of_goto hop := Bool.noConfusion hop
  missing_of_unfit _ _ := trivial
  inUse_of_store _ := trivial

end Policy

open Policy

/-- Whether a value by itself makes forms run again: a loop, or a jump. -/
def Value.loops : Value → Bool
  | .goto _ => Bool.true
  | v => v.operation?.any fun entry => entry.2.loops

theorem loops_of_operation {v : Value} {contract : Option (List Kind)} {op : Operation}
    (h : v.operation? = some (contract, op)) : v.loops = op.loops := by
  cases v <;> cases h <;> rfl

theorem found_straight {i : Interpreter} {form : Value}
    (hloops : ∀ v, i.Occurs form v → v.loops = false) : (found i form).Straight where
  exhaust := trivial
  jump := by
    rintro (⟨target, hv⟩ | ⟨contract, v, hv, hop⟩)
    · cases hloops _ hv
    · have hgoto := hloops v hv
      rw [loops_of_operation hop] at hgoto
      cases hgoto
  loops := by
    rintro contract op ⟨v, hv, hop⟩
    rw [← loops_of_operation hop]
    exact hloops v hv

theorem finds_apply_of_runaway {i : Interpreter} {form f : Value} {vs : List Value} {h : Heap}
    (hf : (found i form).Allows f) (hrun : h.Runaway f vs) :
    ∃ contract, Finds i form contract .apply := by
  obtain ⟨g, ws, hnext, -⟩ := hrun.next
  obtain ⟨args, hargs, -⟩ := Option.bind_eq_some_iff.mp hnext
  unfold Value.applyArgs? at hargs
  split at hargs
  next => exact ⟨_, hf⟩
  next => exact ⟨_, hf⟩
  next => cases hargs

/-! ## Ending and not ending -/

/-- Where neither a loop nor a jump can be found, evaluation tends to a result. That is a value, a
signal or an error, but for this: it never ends exactly if it comes to a runaway call, which takes
`apply` and a list that holds itself; and it may crash, if it comes to `set@` with a list's own index
or to a primitive whose contract does not promise it enough arguments. -/
theorem evaluation_ends_or_runs_away (i : Interpreter) (form : Value) (hidle : i.uses = [])
    (hloops : ∀ v, i.Occurs form v → v.loops = false) :
    (∃ r, Tends (fun fuel => evaluate fuel form) i r ∧
      (∀ k, r = .error .outOfFuel k → (∃ contract, Finds i form contract .apply) ∧
        ∃ f vs j, j.uses = [] ∧ j.heap.Runaway f vs ∧
          ∃ n N, ∀ m, N ≤ m → ComesTo (m + n) (.evaluate form) i m (.apply f vs) j) ∧
      ∀ c k, r = .error (.crash c) k →
        (c = .cellInUse ∧ ∃ N, ∀ m, N ≤ m → ∃ args j,
          (Request.evaluate form).ComesToPerform m i .store args j ∧ j.uses = [] ∧
            j.heap.OwnIndex args) ∨
        (c = .missingArgument ∧ ∃ contract op, Finds i form contract op ∧ ¬ op.Fits contract)) ∧
    ∀ (f : Value) (vs : List Value) (j : Interpreter), j.uses = [] → j.heap.Runaway f vs →
      (∃ a, j.heap.InsideItself a) ∧
      ∀ n m, ComesTo n (.evaluate form) i m (.apply f vs) j →
        ∃ k, evaluate n form i = .error .outOfFuel k := by
  refine ⟨?_, ?_⟩
  · have hadmits : (found i form).Admits i := admits_found hidle
    have hform : (found i form).Allows form := found_allows form .form
    have hstraight := found_straight hloops
    have hprogram : (found i form).Settles (i.maxDepth - i.depth) (found i form).Allows
        (Request.evaluate form).program :=
      settles_program hstraight (fun k _ => hstraight.evaluates k) hform
    obtain ⟨r, n, hn, haway⟩ := hprogram.settled i hadmits hidle (Nat.le_refl _)
    -- The request takes one unit of fuel more than its program.
    have hask : ∀ m, n + 1 ≤ m → evaluate m form i = leaving (Request.evaluate form).left r := by
      intro m hm
      obtain ⟨m, rfl⟩ : ∃ m', m = m' + 1 := ⟨m - 1, by omega⟩
      exact (ask_succ hidle (.evaluate form) m).trans (congrArg _ (hn m (by omega)))
    refine ⟨_, ⟨n + 1, hask⟩, ?_, ?_⟩
    · intro k hk
      obtain ⟨f, vs, j, hf, -, hj, hrun, hcomes⟩ :=
        (haway k ((leaving_of_stops Halt.stops_outOfFuel).mp hk)).comesTo
      exact ⟨finds_apply_of_runaway hf hrun, f, vs, j, hj, hrun, hcomes⟩
    · intro c k hk
      have hcrash : ∀ m, n + 1 ≤ m → evaluate m form i = .error (.crash c) k :=
        fun m hm => (hask m hm).trans hk
      have hends := (sound_engine hstraight.exhaust (n + 1)).evaluate hform i hadmits
      have hcrash' : (Engine.ofFuel (n + 1)).evaluate form i = .error (.crash c) k :=
        hcrash _ (Nat.le_refl _)
      rw [hcrash'] at hends
      cases c with
      | missingArgument => exact .inr ⟨rfl, hends.2⟩
      | characterCut => exact hends.2.elim
      | cellInUse =>
        refine .inl ⟨rfl, n + 1, fun m hm => ?_⟩
        obtain ⟨args, j, hperform, hown⟩ :=
          (ask_crash_iff (q := .evaluate form) hidle).mp ⟨k, hcrash m hm⟩
        exact ⟨args, j, hperform, hperform.idle hidle, hown⟩
  · intro f vs j hj hrun
    refine ⟨hrun.insideItself, ?_⟩
    intro n m hcomes
    exact hcomes.stops hidle Halt.stops_outOfFuel ⟨j, apply_of_runaway hj hrun m⟩

/-! ## A call that runs away -/

def Interpreter.knotted : Interpreter :=
  let f : Value := .checked 0 "apply" [.function, .any] .apply
  { maxDepth := 400
    heap := ⟨#[.list [f, .list 0]]⟩
    env := { globals := [("apply", f), ("l", .list 0)] } }

-- The policy that allows all of this state allows neither loops nor jumps.
theorem knotted_loops {form v : Value} (hform : straight.Allows form)
    (h : Interpreter.knotted.Occurs form v) : v.loops = false := by
  have hglobals : straight.AllowsFields Interpreter.knotted.env.globals :=
    ⟨rfl, trivial, trivial⟩
  have hheap : straight.AdmitsHeap Interpreter.knotted.heap := by
    refine ⟨?_, fun _ => trivial⟩
    intro a c _ hc
    cases a with
    | zero =>
      cases hc
      exact ⟨rfl, trivial, trivial⟩
    | succ a => simp [Interpreter.knotted] at hc
  have hadmits : straight.Admits .knotted :=
    ⟨hglobals, fun f hf => absurd hf List.not_mem_nil, hheap, .inl rfl⟩
  have hv := hadmits.occurs hform h
  cases v with
  | primitive id name op => exact hv
  | checked id name contract op => exact hv
  | goto target => exact hv.elim
  | _ => rfl

theorem knotted_runaway :
    Interpreter.knotted.heap.Runaway (.checked 0 "apply" [.function, .any] .apply)
      [.checked 0 "apply" [.function, .any] .apply, .list 0] := by
  intro n
  induction n with
  | zero => rfl
  | succ n ih => exact ih

def Value.knot : Value :=
  .expr [.symbol "apply", .symbol "apply", .symbol "l"]

theorem evaluate_knot (fuel : Nat) :
    evaluate fuel .knot .knotted = .error .outOfFuel .knotted := by
  match fuel with
  | 0 => rfl
  | 1 => rfl
  | n + 2 =>
    have hrun :=
      apply_of_runaway (i := { Interpreter.knotted with depth := 1 }) rfl knotted_runaway n
    -- Up to the call of `apply` everything can be computed, with any amount of fuel.
    cbv at hrun ⊢
    rw [hrun]
    rfl

theorem knot_loops {v : Value} (h : Interpreter.knotted.Occurs .knot v) : v.loops = false :=
  knotted_loops (show straight.Allows .knot from ⟨trivial, trivial, trivial, trivial⟩) h

-- Here the evaluation of `l` ends with the list, and that of `(apply apply l)` comes to a runaway
-- call.
theorem evaluation_ends_or_runs_away_knotted :
    Tends (fun fuel => evaluate fuel (.symbol "l")) .knotted (.ok (.list 0) .knotted) ∧
      Tends (fun fuel => evaluate fuel .knot) .knotted (.error .outOfFuel .knotted) ∧
      (∃ f vs j, j.heap.Runaway f vs ∧
        ∃ n N, ∀ m, N ≤ m → ComesTo (m + n) (.evaluate .knot) .knotted m (.apply f vs) j) ∧
      ∃ a, Interpreter.knotted.heap.InsideItself a := by
  have hloops : ∀ v, Interpreter.knotted.Occurs (.symbol "l") v → v.loops = false :=
    fun v hv => knotted_loops (show straight.Allows (.symbol "l") from trivial) hv
  obtain ⟨⟨r, ⟨n, hn⟩, -⟩, hrun⟩ :=
    evaluation_ends_or_runs_away .knotted (.symbol "l") rfl hloops
  obtain ⟨⟨s, ⟨m, hm⟩, haway, -⟩, -⟩ :=
    evaluation_ends_or_runs_away .knotted .knot rfl fun _ => knot_loops
  have hr : r = .ok (.list 0) .knotted := (hn (n + 1) (Nat.le_succ n)).symm
  have hs : s = .error .outOfFuel .knotted := (hm m (Nat.le_refl m)).symm.trans (evaluate_knot m)
  subst hr hs
  obtain ⟨-, f, vs, j, -, hj, hcomes⟩ := haway _ rfl
  exact ⟨⟨n, hn⟩, ⟨m, hm⟩, ⟨f, vs, j, hj, hcomes⟩, (hrun _ _ .knotted rfl knotted_runaway).1⟩

/-- To apply `apply` to that list never ends, although the depth is limited. -/
theorem apply_knotted_never_ends :
    (∀ v, Interpreter.knotted.Occurs (.expr [.symbol "apply", .symbol "apply", .symbol "l"]) v →
      v.loops = false) ∧
    ∀ fuel, evaluate fuel (.expr [.symbol "apply", .symbol "apply", .symbol "l"]) .knotted =
      .error .outOfFuel .knotted :=
  ⟨fun _ => knot_loops, evaluate_knot⟩

end Lisplet
