import Lisplet.Proofs.Parallel

/-!
# Evaluation in lockstep

Operations that evaluate keep two runs in step as long as the engines they are given do, and so does
one step of evaluation. What is to be shown of two particular engines is only that they are in step
at the next level; the induction on the fuel is theirs.
-/

namespace Lisplet

namespace Pairing

inductive AlikeFlow (p : Pairing) : Flow → Flow → Prop
  | next {v w : Value} (h : p.Alike v w) : AlikeFlow p (.next v) (.next w)
  | leave {v w : Value} (h : p.Alike v w) : AlikeFlow p (.leave v) (.leave w)
  | exit {v w : Value} (h : p.Alike v w) : AlikeFlow p (.exit v) (.exit w)
  | goto (target : String) : AlikeFlow p (.goto target) (.goto target)

inductive AlikeLeg (p : Pairing) : Leg → Leg → Prop
  | ended {flow flow' : Flow} (h : p.AlikeFlow flow flow') : AlikeLeg p (.ended flow) (.ended flow')
  | jump (label : Nat) (labels : Record Nat) {v w : Value} (h : p.Alike v w) :
      AlikeLeg p (.jump label labels v) (.jump label labels w)

inductive AlikeBound (p : Pairing) : Bound → Bound → Prop
  | args {vs ws : List Value} (h : p.AlikeAll vs ws) : AlikeBound p (.args vs) (.args ws)
  | signal {v w : Value} (h : p.Alike v w) : AlikeBound p (.signal v) (.signal w)

variable {p : Pairing}

theorem AlikeFlow.toValue {flow flow' : Flow} (h : p.AlikeFlow flow flow') :
    p.Alike flow.toValue flow'.toValue := by
  cases h with
  | next hv | leave hv | exit hv => exact hv
  | goto target => exact .goto target

theorem AlikeFlow.eq (h : p.Within same) {flow flow' : Flow} (hflow : p.AlikeFlow flow flow') :
    flow = flow' := by
  cases hflow with
  | next hv | leave hv | exit hv => rw [hv.eq h]
  | goto target => rfl

theorem AlikeLeg.eq (h : p.Within same) {leg leg' : Leg} (hleg : p.AlikeLeg leg leg') :
    leg = leg' := by
  cases hleg with
  | ended hflow => rw [hflow.eq h]
  | jump label labels hv => rw [hv.eq h]

theorem AlikeBound.eq (h : p.Within same) {b b' : Bound} (hb : p.AlikeBound b b') : b = b' := by
  cases hb with
  | args hvs => rw [hvs.eq h]
  | signal hv => rw [hv.eq h]

theorem AlikeBound.cons {b b' : Bound} (hb : p.AlikeBound b b') {v w : Value} (hv : p.Alike v w) :
    p.AlikeBound (b.cons v) (b'.cons w) := by
  cases hb with
  | args hvs => exact .args (.cons hv hvs)
  | signal hs => exact .signal hs

end Pairing

namespace Lockstep

open Eval Builtin Pairing

variable (S : Lockstep)

def flows : S.Link Flow :=
  ⟨fun w => (S.pairing w).AlikeFlow, fun hfollows w _ _ h => h.eq (S.pairing_eq hfollows w)⟩

def legs : S.Link Leg :=
  ⟨fun w => (S.pairing w).AlikeLeg, fun hfollows w _ _ h => h.eq (S.pairing_eq hfollows w)⟩

def bounds : S.Link Bound :=
  ⟨fun w => (S.pairing w).AlikeBound, fun hfollows w _ _ h => h.eq (S.pairing_eq hfollows w)⟩

/-! ## Fuel -/

/-- Amounts of fuel for two runs: the same, or more for the second where the first is excused when
it has run out. -/
def Fuels (m m' : Nat) : Prop :=
  m = m' ∨ S.excuses .outOfFuel ∧ ¬ S.follows ∧ m ≤ m'

variable {S} {w : S.World} {n : Nesting} {α : Type} {Q : S.Link α} {v v' u u' : Value}
  {args args' forms forms' : List Value} {e e' : Engine}

theorem Fuels.pred {m m' : Nat} (h : S.Fuels (m + 1) m') : ∃ k, m' = k + 1 ∧ S.Fuels m k := by
  rcases h with rfl | ⟨hexcuses, hfollows, hle⟩
  · exact ⟨m, rfl, .inl rfl⟩
  · exact ⟨m' - 1, by omega, .inr ⟨hexcuses, hfollows, by omega⟩⟩

theorem sim_outOfFuel {m : Nat} (h : S.Fuels 0 m) {y : Eval α} (hy : m = 0 → y = outOfFuel) :
    S.Simulates w n Q outOfFuel y := by
  intro i j hrel
  rcases h with rfl | ⟨hexcuses, hfollows, -⟩
  · rw [hy rfl]
    exact ends_error hrel
  · exact .inl ⟨hexcuses, fun h => absurd h hfollows⟩

/-- Engines that keep two runs in step, at every level. -/
structure Drives (S : Lockstep) (e e' : Engine) : Prop where
  fuel : S.Fuels e.fuel e'.fuel
  evaluate : ∀ {w : S.World} {n : Nesting} {v v' : Value}, (S.pairing w).Alike v v' →
    S.Simulates w n S.values (e.evaluate v) (e'.evaluate v')
  apply : ∀ {w : S.World} {n : Nesting} {f f' : Value} {vs vs' : List Value},
    (S.pairing w).Alike f f' → (S.pairing w).AlikeAll vs vs' →
    S.Simulates w n S.values (e.apply f vs) (e'.apply f' vs')

theorem sim_value (he : S.Drives e e') {form form' : Value}
    (hform : (S.pairing w).Alike form form') {next next' : Value → Eval Value}
    (hnext : ∀ w', S.Later w w' → ∀ v v', (S.pairing w').Alike v v' →
      S.Simulates w' n S.values (next v) (next' v')) :
    S.Simulates w n S.values (e.value form next) (e'.value form' next') := by
  refine sim_bind (he.evaluate hform) fun w' hw' v v' (hv : (S.pairing w').Alike v v') => ?_
  rw [← hv.isSignal]
  split
  · exact sim_escalate hv
  · exact hnext w' hw' v v' hv

theorem sim_sequence (he : S.Drives e e') (hforms : (S.pairing w).AlikeAll forms forms')
    (hv : (S.pairing w).Alike v v') :
    S.Simulates w n S.values (e.sequence forms v) (e'.sequence forms' v') := by
  induction forms generalizing w forms' v v' with
  | nil =>
    cases hforms
    exact sim_pure hv
  | cons form rest ih =>
    cases hforms with
    | cons hform hrest =>
      exact sim_value he hform fun w' hw' u u' hu => ih (hrest.mono (S.within hw')) hu

theorem sim_conjunction (he : S.Drives e e') (hforms : (S.pairing w).AlikeAll forms forms')
    (hv : (S.pairing w).Alike v v') :
    S.Simulates w n S.values (conjunction e forms v) (conjunction e' forms' v') := by
  induction forms generalizing w forms' v v' with
  | nil =>
    cases hforms
    exact sim_pure hv
  | cons form rest ih =>
    cases hforms with
    | cons hform hrest =>
      refine sim_value he hform fun w' hw' u u' hu => ?_
      rw [← hu.isNil]
      split
      · exact sim_pure .nil
      · exact ih (hrest.mono (S.within hw')) hu

theorem sim_or (he : S.Drives e e') (hforms : (S.pairing w).AlikeAll forms forms') :
    S.Simulates w n S.values (Builtin.or e forms) (Builtin.or e' forms') := by
  induction forms generalizing w forms' with
  | nil =>
    cases hforms
    exact sim_pure .nil
  | cons form rest ih =>
    cases hforms with
    | cons hform hrest =>
      refine sim_value he hform fun w' hw' u u' hu => ?_
      rw [← hu.isTruthy]
      split
      · exact sim_pure hu
      · exact ih (hrest.mono (S.within hw'))

/-! ## Bodies -/

theorem sim_runLeg (he : S.Drives e e') (hforms : (S.pairing w).AlikeAll forms forms')
    (labels : Record Nat) (pos : Nat) (hv : (S.pairing w).Alike v v') :
    S.Simulates w n S.legs (e.runLeg labels pos v forms) (e'.runLeg labels pos v' forms') := by
  induction forms generalizing w forms' labels pos v v' with
  | nil =>
    cases hforms
    exact sim_pure (AlikeLeg.ended (.next hv))
  | cons form rest ih =>
    cases hforms with
    | cons hform hrest =>
      refine sim_bind (he.evaluate hform) fun w' hw' u u' (hu : (S.pairing w').Alike u u') => ?_
      have halike := hu
      have hrest' := hrest.mono (S.within hw')
      cases hu with
      | leaving hu => exact sim_pure (AlikeLeg.ended (.leave hu))
      | breaking hu => exact sim_pure (AlikeLeg.ended (.exit hu))
      | goto target =>
        dsimp only
        split
        · exact sim_pure (AlikeLeg.jump _ _ (hv.mono (S.within hw')))
        · exact sim_pure (AlikeLeg.ended (.goto target))
      | label name => exact ih hrest' _ _ .nil
      | _ => exact ih hrest' _ _ halike

theorem sim_runLegs (he : S.Drives e e') (hforms : (S.pairing w).AlikeAll forms forms')
    {legs legs' : Nat} (hlegs : S.Fuels legs legs') (labels : Record Nat) (pos : Nat)
    (hv : (S.pairing w).Alike v v') :
    S.Simulates w n S.flows (e.runLegs forms legs labels pos v)
      (e'.runLegs forms' legs' labels pos v') := by
  induction legs generalizing w legs' labels pos v v' with
  | zero => exact sim_outOfFuel hlegs fun hzero => by rw [hzero]; rfl
  | succ legs ih =>
    obtain ⟨k, rfl, hk⟩ := hlegs.pred
    refine sim_bind (sim_runLeg he (hforms.drop pos) labels pos hv) ?_
    intro w' hw' leg leg' (hleg : (S.pairing w').AlikeLeg leg leg')
    cases hleg with
    | ended hflow => exact sim_pure hflow
    | jump label labels hu => exact ih (hforms.mono (S.within hw')) hk labels (label + 1) hu

theorem sim_runBody (he : S.Drives e e') (hforms : (S.pairing w).AlikeAll forms forms') :
    S.Simulates w n S.flows (e.runBody forms) (e'.runBody forms') := by
  unfold Engine.runBody
  rw [← hforms.literalLabels]
  exact sim_runLegs he hforms he.fuel _ _ .nil

theorem sim_runIteration (he : S.Drives e e') {r t : Record Value}
    (hr : (S.pairing w).AlikeFields r t) (hforms : (S.pairing w).AlikeAll forms forms') :
    S.Simulates w n S.flows (e.runIteration r forms) (e'.runIteration t forms') :=
  sim_inFrame hr (sim_runBody he hforms)

/-! ## Conditionals, blocks and jumps -/

theorem sim_conditional (he : S.Drives e e') (hargs : (S.pairing w).AlikeAll args args') :
    S.Simulates w n S.values (conditional e args) (conditional e' args') := by
  match args, args', hargs with
  | _, _, .nil | _, _, .cons _ .nil => exact sim_fail _
  | _, _, .cons hcondition (.cons hconsequent .nil) =>
    refine sim_value he hcondition fun w' hw' u u' hu => ?_
    rw [← hu.isTruthy]
    split
    · exact he.evaluate (hconsequent.mono (S.within hw'))
    · exact sim_pure .nil
  | _, _, .cons hcondition (.cons hconsequent (.cons halternative .nil)) =>
    refine sim_value he hcondition fun w' hw' u u' hu => ?_
    rw [← hu.isTruthy]
    split
    · exact he.evaluate (hconsequent.mono (S.within hw'))
    · exact he.evaluate (halternative.mono (S.within hw'))
  | _, _, .cons _ (.cons _ (.cons _ (.cons hextra _))) => exact sim_tooMany hextra

theorem sim_block (he : S.Drives e e') (hargs : (S.pairing w).AlikeAll args args') :
    S.Simulates w n S.values (block e args) (block e' args') := by
  cases hargs with
  | nil => exact sim_missingArgument
  | cons hlocals hforms =>
    refine sim_bind (sim_blockFrame hlocals) fun w' hw' r t hr => ?_
    have hforms' := hforms.mono (S.within hw')
    refine sim_bind (sim_inFrame hr (sim_runBody he hforms')) ?_
    intro w'' _ flow flow' (hflow : (S.pairing w'').AlikeFlow flow flow')
    exact sim_pure hflow.toValue

theorem sim_signalWith (he : S.Drives e e') (signal : Value → Value)
    (hsignal : ∀ {w : S.World} {v v' : Value}, (S.pairing w).Alike v v' →
      (S.pairing w).Alike (signal v) (signal v'))
    (hargs : (S.pairing w).AlikeAll args args') :
    S.Simulates w n S.values (signalWith signal e args) (signalWith signal e' args') := by
  match args, args', hargs with
  | _, _, .nil => exact sim_pure (hsignal .nil)
  | _, _, .cons hform .nil =>
    exact sim_value he hform fun w' _ u u' hu => sim_pure (hsignal hu)
  | _, _, .cons _ (.cons hextra _) => exact sim_tooMany hextra

/-! ## Loops -/

theorem sim_afterPass {flow flow' : Flow} (hflow : (S.pairing w).AlikeFlow flow flow')
    {next next' : Value → Eval Value}
    (hnext : ∀ v v', (S.pairing w).Alike v v' → S.Simulates w n S.values (next v) (next' v')) :
    S.Simulates w n S.values (afterPass flow next) (afterPass flow' next') := by
  have htoValue := hflow.toValue
  cases hflow with
  | next hv => exact hnext _ _ hv
  | _ => exact sim_pure htoValue

theorem sim_repeatWhile (he : S.Drives e e') (expected : Bool) {condition condition' : Value}
    (hcondition : (S.pairing w).Alike condition condition')
    (hforms : (S.pairing w).AlikeAll forms forms') {rounds rounds' : Nat}
    (hrounds : S.Fuels rounds rounds') (hv : (S.pairing w).Alike v v') :
    S.Simulates w n S.values (repeatWhile e expected condition forms rounds v)
      (repeatWhile e' expected condition' forms' rounds' v') := by
  induction rounds generalizing w rounds' v v' with
  | zero => exact sim_outOfFuel hrounds fun hzero => by rw [hzero]; rfl
  | succ rounds ih =>
    obtain ⟨k, rfl, hk⟩ := hrounds.pred
    refine sim_value he hcondition fun w₁ h₁ test test' htest => ?_
    rw [← htest.isTruthy]
    split
    · exact sim_pure (hv.mono (S.within h₁))
    · refine sim_bind (sim_runIteration he .nil (hforms.mono (S.within h₁))) ?_
      intro w₂ h₂ flow flow' (hflow : (S.pairing w₂).AlikeFlow flow flow')
      have hlater := S.within (S.trans h₁ h₂)
      refine sim_afterPass hflow fun u u' hu => ?_
      exact ih (hcondition.mono hlater) (hforms.mono hlater) hk hu

theorem sim_conditionLoop (he : S.Drives e e') (expected : Bool)
    (hargs : (S.pairing w).AlikeAll args args') :
    S.Simulates w n S.values (conditionLoop expected e args)
      (conditionLoop expected e' args') := by
  cases hargs with
  | nil => exact sim_missingArgument
  | cons hcondition hforms => exact sim_repeatWhile he expected hcondition hforms he.fuel .nil

theorem sim_repeatDo (he : S.Drives e e') {condition condition' : Value}
    (hcondition : (S.pairing w).Alike condition condition')
    (hforms : (S.pairing w).AlikeAll forms forms') {rounds rounds' : Nat}
    (hrounds : S.Fuels rounds rounds') :
    S.Simulates w n S.values (repeatDo e condition forms rounds)
      (repeatDo e' condition' forms' rounds') := by
  induction rounds generalizing w rounds' with
  | zero => exact sim_outOfFuel hrounds fun hzero => by rw [hzero]; rfl
  | succ rounds ih =>
    obtain ⟨k, rfl, hk⟩ := hrounds.pred
    refine sim_bind (sim_runIteration he .nil hforms) ?_
    intro w₁ h₁ flow flow' (hflow : (S.pairing w₁).AlikeFlow flow flow')
    refine sim_afterPass hflow fun u u' hu => ?_
    refine sim_value he (hcondition.mono (S.within h₁)) fun w₂ h₂ test test' htest => ?_
    rw [← htest.isTruthy]
    have hlater := S.within (S.trans h₁ h₂)
    split
    · exact ih (hcondition.mono hlater) (hforms.mono hlater) hk
    · exact sim_pure (hu.mono (S.within h₂))

theorem sim_doLoop (he : S.Drives e e') (hargs : (S.pairing w).AlikeAll args args') :
    S.Simulates w n S.values (doLoop e args) (doLoop e' args') := by
  cases hargs with
  | nil => exact sim_missingArgument
  | cons hcondition hforms => exact sim_repeatDo he hcondition hforms he.fuel

theorem sim_repeatEndlessly (he : S.Drives e e') (hforms : (S.pairing w).AlikeAll forms forms')
    {rounds rounds' : Nat} (hrounds : S.Fuels rounds rounds') :
    S.Simulates w n S.values (repeatEndlessly e forms rounds)
      (repeatEndlessly e' forms' rounds') := by
  induction rounds generalizing w rounds' with
  | zero => exact sim_outOfFuel hrounds fun hzero => by rw [hzero]; rfl
  | succ rounds ih =>
    obtain ⟨k, rfl, hk⟩ := hrounds.pred
    refine sim_bind (sim_runIteration he .nil hforms) ?_
    intro w' hw' flow flow' (hflow : (S.pairing w').AlikeFlow flow flow')
    exact sim_afterPass hflow fun _ _ _ => ih (hforms.mono (S.within hw')) hk

theorem sim_endlessLoop (he : S.Drives e e') (hargs : (S.pairing w).AlikeAll args args') :
    S.Simulates w n S.values (endlessLoop e args) (endlessLoop e' args') := by
  cases hargs with
  | nil => exact sim_fail _
  | cons hform hforms => exact sim_repeatEndlessly he (.cons hform hforms) he.fuel

theorem sim_countPasses (he : S.Drives e e') (name : String)
    (hforms : (S.pairing w).AlikeAll forms forms') (passes : Nat) (k : Int)
    (hv : (S.pairing w).Alike v v') :
    S.Simulates w n S.values (countPasses e name forms passes k v)
      (countPasses e' name forms' passes k v') := by
  induction passes generalizing w k v v' with
  | zero => exact sim_pure hv
  | succ passes ih =>
    refine sim_bind (sim_runIteration he (.cons name (.int _) .nil) hforms) ?_
    intro w' hw' flow flow' (hflow : (S.pairing w').AlikeFlow flow flow')
    exact sim_afterPass hflow fun u u' hu => ih (hforms.mono (S.within hw')) (k + 1) hu

theorem sim_forLoop (he : S.Drives e e') (hargs : (S.pairing w).AlikeAll args args') :
    S.Simulates w n S.values (forLoop e args) (forLoop e' args') := by
  match args, args', hargs with
  | _, _, .nil | _, _, .cons _ .nil | _, _, .cons _ (.cons _ .nil) => exact sim_missingArgument
  | _, _, .cons hvar (.cons hfirst (.cons hbound hforms)) =>
    refine sim_bind (sim_loopVariable hvar) fun w' hw' name name' hname => ?_
    cases hname
    have hlater := S.within hw'
    have hmismatch := hfirst.mono hlater
    cases hfirst with
    | int a =>
      cases hbound with
      | int b => exact sim_countPasses he name (hforms.mono hlater) _ _ .nil
      | _ => exact sim_failWith _ hmismatch
    | _ => exact sim_failWith _ hmismatch

/-! ## Assignment, evaluation and errors -/

theorem sim_assignTo (hv : (S.pairing w).Alike v v') (hu : (S.pairing w).Alike u u') :
    S.Simulates w n S.values (assignTo v u) (assignTo v' u') := by
  have halike := hu
  cases hu with
  | str path | symbol path => exact sim_assign path hv
  | _ => exact sim_failWith _ halike

theorem sim_assignBuiltin (he : S.Drives e e') (hargs : (S.pairing w).AlikeAll args args') :
    S.Simulates w n S.values (Builtin.assign e args) (Builtin.assign e' args') := by
  match args, args', hargs with
  | _, _, .nil => exact sim_missingArgument
  | _, _, .cons hform .nil => cases hform <;> exact sim_missingArgument
  | _, _, .cons hform (.cons hv _) =>
    have hcompute := sim_value (n := n) he hform fun w' hw' u u' hu =>
      sim_assignTo (hv.mono (S.within hw')) hu
    cases hform with
    | symbol path => exact sim_assign path hv
    | _ => exact hcompute

theorem sim_eval (he : S.Drives e e') (hargs : (S.pairing w).AlikeAll args args') :
    S.Simulates w n S.values (Builtin.eval e args) (Builtin.eval e' args') := by
  cases hargs with
  | nil => exact sim_missingArgument
  | cons hv _ =>
    have halike := hv
    cases hv with
    | str source =>
      refine sim_bind (sim_ofExcept _) fun w' _ forms forms' hforms => ?_
      cases hforms.1
      exact sim_bind (sim_load (r := Reader.ofSource source []) hforms.2) fun _ _ _ _ hvs =>
        sim_sequence he hvs .nil
    | _ => exact he.evaluate halike

theorem sim_apply (he : S.Drives e e') (hargs : (S.pairing w).AlikeAll args args') :
    S.Simulates w n S.values (Builtin.apply e args) (Builtin.apply e' args') := by
  match args, args', hargs with
  | _, _, .nil | _, _, .cons _ .nil => exact sim_missingArgument
  | _, _, .cons hf (.cons hv _) =>
    have halike := hv
    cases hv with
    | nil => exact he.apply hf .nil
    | list hab =>
      refine sim_bind (sim_items hab) fun w' hw' vs ws hvs => ?_
      exact he.apply (hf.mono (S.within hw')) hvs
    | _ => exact sim_failWith _ halike

theorem sim_attempt (he : S.Drives e e') (hargs : (S.pairing w).AlikeAll args args') :
    S.Simulates w n S.values (attempt e args) (attempt e' args') := by
  match args, args', hargs with
  | _, _, .nil | _, _, .cons _ .nil | _, _, .cons _ (.cons _ .nil) => exact sim_missingArgument
  | _, _, .cons hform (.cons hname (.cons hhandler _)) =>
    refine sim_bind (sim_handlerName hname) fun w₁ h₁ name name' heq => ?_
    cases heq
    refine sim_rescue (he.evaluate (hform.mono (S.within h₁))) fun w₂ h₂ err => ?_
    have hhandler' := hhandler.mono (S.within (S.trans h₁ h₂))
    exact sim_inFrame (.cons name (.error err) .nil) (he.evaluate hhandler')

/-! ## Operations as a whole -/

/-- Every operation keeps two runs in step. -/
theorem sim_run (he : S.Drives e e') (op : Operation)
    (hargs : (S.pairing w).AlikeAll args args') :
    S.Simulates w n S.values (op.run e args) (op.run e' args') := by
  cases op with
  | conditional => exact sim_conditional he hargs
  | block => exact sim_block he hargs
  | label => exact sim_label hargs
  | goto => exact sim_goto hargs
  | leave => exact sim_signalWith he .leaving .leaving hargs
  | exitLoop => exact sim_signalWith he .breaking .breaking hargs
  | whileLoop | untilLoop => exact sim_conditionLoop he _ hargs
  | doLoop => exact sim_doLoop he hargs
  | endlessLoop => exact sim_endlessLoop he hargs
  | forLoop => exact sim_forLoop he hargs
  | lambda => exact sim_lambda hargs
  | add => exact sim_add hargs
  | subtract => exact sim_subtract hargs
  | multiply => exact sim_multiply hargs
  | divide => exact sim_divide hargs
  | modulo => exact sim_modulo hargs
  | less | greater | atMost | atLeast => exact sim_comparison _ hargs
  | equal | different => exact sim_equality _ hargs
  | not => exact sim_not hargs
  | and => exact sim_conjunction he hargs .true
  | or => exact sim_or he hargs
  | toInt => exact sim_toInt hargs
  | toDouble => exact sim_toDouble hargs
  | concatenate => exact sim_concatenate hargs
  | list => exact sim_newList hargs
  | count => exact sim_count hargs
  | append => exact sim_append hargs
  | struct => exact sim_struct hargs
  | keys => exact sim_keys hargs
  | fetch => exact sim_fetch hargs
  | store => exact sim_store hargs
  | print => exact sim_print hargs
  | read => exact sim_read hargs
  | assign => exact sim_assignBuiltin he hargs
  | eval => exact sim_eval he hargs
  | throw => exact sim_throwBuiltin hargs
  | attempt => exact sim_attempt he hargs
  | help => exact sim_help hargs
  | typeName => exact sim_typeName hargs
  | bound => exact sim_bound hargs
  | apply => exact sim_apply he hargs
  | native => exact sim_newList hargs

/-! ## Calls -/

theorem sim_bindArgs {evaluate evaluate' : Value → Eval Value}
    (hevaluate : ∀ {w : S.World} {v v' : Value}, (S.pairing w).Alike v v' →
      S.Simulates w n S.values (evaluate v) (evaluate' v'))
    (further : Kind) (kinds : List Kind) (hargs : (S.pairing w).AlikeAll args args') :
    S.Simulates w n S.bounds (bindArgs evaluate further kinds args)
      (bindArgs evaluate' further kinds args') := by
  induction args generalizing w args' kinds with
  | nil =>
    cases hargs
    exact sim_pure (AlikeBound.args .nil)
  | cons arg more ih =>
    cases hargs with
    | @cons _ arg' _ more' harg hmore =>
      have hbind : ∀ w', S.Later w w' → ∀ u u', (S.pairing w').Alike u u' →
          S.Simulates w' n S.bounds
            (bindArgs evaluate further kinds.tail more >>= fun b => pure (b.cons u))
            (bindArgs evaluate' further kinds.tail more' >>= fun b => pure (b.cons u')) := by
        intro w' hw' u u' hu
        refine sim_bind (ih kinds.tail (hmore.mono (S.within hw'))) ?_
        intro w'' hw'' b b' (hb : (S.pairing w'').AlikeBound b b')
        exact sim_pure (hb.cons (hu.mono (S.within hw'')))
      unfold bindArgs
      dsimp only
      split
      · exact hbind w (S.refl w) arg arg' harg
      · refine sim_bind (hevaluate harg) fun w₁ h₁ u u' (hu : (S.pairing w₁).Alike u u') => ?_
        rw [← hu.isSignal]
        split
        · exact sim_bind (sim_escalate hu) fun _ _ _ _ hs => sim_pure (AlikeBound.signal hs)
        · refine sim_bind (sim_accept _ hu) fun w₂ h₂ x x' hx => ?_
          exact hbind w₂ (S.trans h₁ h₂) x x' hx

theorem sim_bindContract {evaluate evaluate' : Value → Eval Value}
    (hevaluate : ∀ {w : S.World} {v v' : Value}, (S.pairing w).Alike v v' →
      S.Simulates w n S.values (evaluate v) (evaluate' v'))
    (name : String) (contract : List Kind) (hargs : (S.pairing w).AlikeAll args args') :
    S.Simulates w n S.bounds (bindContract evaluate name contract args)
      (bindContract evaluate' name contract args') := by
  unfold bindContract
  dsimp only
  rw [← hargs.length_eq]
  split
  · exact sim_fail _
  · have hdrop := hargs.drop (fixedKinds contract).length
    have hbind := sim_bindArgs hevaluate ((restKind? contract).getD .any) (fixedKinds contract)
      hargs
    cases hrest : restKind? contract with
    | some kind =>
      rw [hrest] at hbind
      exact hbind
    | none =>
      rw [hrest] at hbind
      generalize args.drop (fixedKinds contract).length = extra at hdrop
      generalize args'.drop (fixedKinds contract).length = extra' at hdrop
      cases hdrop with
      | nil => exact hbind
      | cons hextra _ => exact sim_tooMany hextra

theorem sim_closureResult (hv : (S.pairing w).Alike v v') :
    S.Simulates w n S.values (closureResult v) (closureResult v') := by
  have halike := hv
  cases hv with
  | leaving hv => exact sim_pure hv
  | breaking | goto | label => exact sim_fail _
  | _ => exact sim_pure halike

theorem sim_invoke (he : S.Drives e e') {r t : Record Value}
    (hr : (S.pairing w).AlikeFields r t) (params : List String) {body body' : Value}
    (hbody : (S.pairing w).Alike body body') (hargs : (S.pairing w).AlikeAll args args') :
    S.Simulates w n S.values (e.invoke r params body args) (e'.invoke t params body' args') := by
  refine sim_inFrame (hr.bindParams params hargs) ?_
  exact sim_bind (he.evaluate hbody) fun _ _ _ _ hv => sim_closureResult hv

theorem sim_arguments (he : S.Drives e e') {next next' : List Value → Eval Value}
    (hnext : ∀ w', S.Later w w' → ∀ vs vs', (S.pairing w').AlikeAll vs vs' →
      S.Simulates w' n S.values (next vs) (next' vs'))
    (hforms : (S.pairing w).AlikeAll forms forms') (hargs : (S.pairing w).AlikeAll args args') :
    S.Simulates w n S.values (e.arguments next forms args) (e'.arguments next' forms' args') := by
  induction forms generalizing w forms' args args' with
  | nil =>
    cases hforms
    exact hnext w (S.refl w) _ _ hargs.reverse
  | cons form rest ih =>
    cases hforms with
    | cons hform hrest =>
      refine sim_value he hform fun w' hw' u u' hu => ?_
      refine ih (fun w'' hw'' => hnext w'' (S.trans hw' hw'')) (hrest.mono (S.within hw')) ?_
      exact .cons hu (hargs.mono (S.within hw'))

theorem sim_runBound (he : S.Drives e e') (op : Operation) {b b' : Bound}
    (hb : (S.pairing w).AlikeBound b b') :
    S.Simulates w n S.values (e.runBound op b) (e'.runBound op b') := by
  cases hb with
  | args hvs => exact sim_run he op hvs
  | signal hv => exact sim_pure hv

theorem sim_call (he : S.Drives e e') (hcallee : (S.pairing w).Alike v v')
    (hargs : (S.pairing w).AlikeAll args args') :
    S.Simulates w n S.values (e.call v args) (e'.call v' args') := by
  have halike := hcallee
  cases hcallee with
  | primitive id name op => exact sim_run he op hargs
  | checked id name contract op =>
    exact sim_bind (sim_bindContract he.evaluate name contract hargs) fun _ _ _ _ hb =>
      sim_runBound he op hb
  | closure id params hr hbody =>
    refine sim_arguments he (fun w' hw' vs vs' hvs => ?_) hargs .nil
    exact sim_invoke he (hr.mono (S.within hw')) params (hbody.mono (S.within hw')) hvs
  | _ => exact sim_failWith _ halike

theorem sim_applyTo (he : S.Drives e e') (hcallee : (S.pairing w).Alike v v')
    (hargs : (S.pairing w).AlikeAll args args') :
    S.Simulates w n S.values (e.applyTo v args) (e'.applyTo v' args') := by
  have halike := hcallee
  cases hcallee with
  | primitive id name op => exact sim_run he op hargs
  | checked id name contract op =>
    exact sim_bind (sim_bindContract (fun hv => sim_pure hv) name contract hargs) fun _ _ _ _ hb =>
      sim_runBound he op hb
  | closure id params hr hbody => exact sim_invoke he hr params hbody hargs
  | _ => exact sim_failWith _ halike

theorem sim_callForm (he : S.Drives e e') (hforms : (S.pairing w).AlikeAll forms forms') :
    S.Simulates w n S.values (e.callForm forms) (e'.callForm forms') := by
  cases hforms with
  | nil => exact sim_pure .nil
  | cons hhead hargs =>
    exact sim_value he hhead fun w' hw' u u' hu => sim_call he hu (hargs.mono (S.within hw'))

theorem sim_newStructOf (he : S.Drives e e') {fields fields' r t : Record Value}
    (hfields : (S.pairing w).AlikeFields fields fields') (hr : (S.pairing w).AlikeFields r t)
    (hnodup : (Record.keys r).Nodup) :
    S.Simulates w n S.values (e.newStructOf fields r) (e'.newStructOf fields' t) := by
  induction fields generalizing w fields' r t with
  | nil =>
    cases hfields
    exact sim_newStruct hr hnodup
  | cons field rest ih =>
    cases hfields with
    | cons key hform hrest =>
      refine sim_value he hform fun w' hw' u u' hu => ?_
      have hr' := (hr.mono (S.within hw')).insert key hu
      exact ih (hrest.mono (S.within hw')) hr' (Record.nodup_keys_insert hnodup key u)

/-! ## One step, and the outermost level -/

end Lockstep

/-- The values whose evaluation goes one level deeper. -/
def Value.nests : Value → Bool
  | .struct _ | .expr _ => Bool.true
  | _ => false

namespace Lockstep

variable {S : Lockstep} {w : S.World} {n : Nesting} {v v' : Value} {e e' : Engine}
  {forms forms' : List Value}

/-- One step of evaluation, if the second run cannot go deeper than the first. -/
theorem sim_step (he : S.Drives e e') (hv : (S.pairing w).Alike v v')
    (hdepth : v.nests = true → n.left < n.leftLimit ∨ ¬ n.right < n.rightLimit) :
    S.Simulates w n S.values (e.step v) (e'.step v') := by
  have halike := hv
  cases hv with
  | list hab => exact sim_copyList hab
  | struct hab =>
    refine sim_descend (hdepth rfl) (sim_bind (sim_fields hab) fun w' _ r t hr => ?_)
    exact sim_newStructOf he hr .nil List.nodup_nil
  | symbol path => exact sim_resolve path
  | expr hforms => exact sim_leavingCrumb halike (sim_descend (hdepth rfl) (sim_callForm he hforms))
  | _ => exact sim_pure halike

theorem sim_settled {form form' : Value} (hform : (S.pairing w).Alike form form')
    (hv : (S.pairing w).Alike v v') :
    S.Simulates w n S.values (settled form v) (settled form' v') := by
  have halike := hv
  cases hv with
  | leaving | breaking | goto | label => exact sim_leavingCrumb hform (sim_fail _)
  | _ => exact sim_pure halike

theorem sim_top (he : S.Drives e e') (hforms : (S.pairing w).AlikeAll forms forms')
    (hv : (S.pairing w).Alike v v') :
    S.Simulates w n S.values (e.top forms v) (e'.top forms' v') := by
  induction forms generalizing w forms' v v' with
  | nil =>
    cases hforms
    exact sim_pure hv
  | cons form rest ih =>
    cases hforms with
    | cons hform hrest =>
      refine sim_bind (he.evaluate hform) fun w₁ h₁ u u' hu => ?_
      refine sim_bind (sim_settled (hform.mono (S.within h₁)) hu) fun w₂ h₂ x x' hx => ?_
      exact ih (hrest.mono (S.within (S.trans h₁ h₂))) hx

/-- Whatever was read is evaluated in step. -/
theorem sim_topForms (he : S.Drives e e') (r : Reader) :
    S.Simulates w n S.values (e.topForms r.all.1) (e'.topForms r.all.1) := by
  refine sim_bind (sim_ofExcept _) fun w' _ forms forms' hforms => ?_
  cases hforms.1
  exact sim_bind (sim_load hforms.2) fun _ _ _ _ hvs => sim_top he hvs .nil

end Lockstep

/-! ## Watching -/

open Classical in
/-- A result after the check that follows its computation. -/
noncomputable def Eval.vetted (check : Interpreter → Hand → Prop) :
    EStateM.Result Halt Interpreter Value → EStateM.Result Halt Interpreter Value
  | .ok v j => if check j (v.carried.map (.datum, ·)) then .ok v j else .error .alarm j
  | .error h j => if check j [] then .error h j else .error .alarm j

open Classical in
theorem Eval.watched_apply (check : Interpreter → Hand → Prop) (hand : Hand) (act : Eval Value)
    (i : Interpreter) :
    watched check hand act i =
      if check i hand then vetted check (act i) else .error .alarm i := by
  unfold watched
  cases act i <;> rfl

namespace Lockstep

variable {S : Lockstep} {w : S.World} {n : Nesting} {P P' : Interpreter → Hand → Prop}

/-- A watch over the first run: its alarm is excused, or nothing is excused and there is never a
reason for the alarm. -/
def Minds (S : Lockstep) (P : Interpreter → Hand → Prop) : Prop :=
  S.excuses .alarm ∨
    (∀ h, ¬ S.excuses h) ∧ ∀ (w : S.World) (n : Nesting) i hand, S.Rel w n i i → P i hand

/-- At a state in step, a watch over the first run lets it pass or its alarm is excused. -/
theorem Minds.excuses (h : S.Minds P) {i : Interpreter} {hand : Hand} (hrel : S.Rel w n i i)
    (hP : ¬ P i hand) : S.excuses .alarm :=
  h.resolve_right fun hnever => hP (hnever.2 w n i hand hrel)

theorem Alone.vetted {t : EStateM.Result Halt Interpreter Value} (h : Alone w n S.values t) :
    Alone w n S.values (Eval.vetted P t) := by
  unfold Eval.vetted
  split
  · split
    · exact h
    · exact h.1
  · split
    · exact h
    · exact h

theorem Excused.vetted {h : Heap} {t : EStateM.Result Halt Interpreter Value}
    (hexcused : Excused w n S.values h t) : Excused w n S.values h (Eval.vetted P t) := by
  intro hfollows
  obtain ⟨u, v, hu, hh, hv, halone⟩ := hexcused hfollows
  exact ⟨u, v, hu, hh, hv, halone.vetted⟩

-- Where the first watch raises the alarm, the runs have been the same so far.
theorem Ends.vetted (hfollows : S.follows) (hminds : S.Minds P)
    (hle : ∀ i hand, P i hand → P' i hand) {r t : EStateM.Result Halt Interpreter Value}
    (h : Ends w n S.values r t) : Ends w n S.values (Eval.vetted P r) (Eval.vetted P' t) := by
  cases r with
  | ok v i =>
    cases t with
    | error h' j => exact h.elim
    | ok v' j =>
      obtain ⟨w', hw', hrel, hv⟩ := h
      obtain rfl := hrel.eq hfollows
      obtain rfl := S.values.eq hfollows hv
      by_cases hP : P i (v.carried.map (.datum, ·))
      · have hP' := hle _ _ hP
        simp only [Eval.vetted, hP, hP', if_true]
        exact ⟨w', hw', hrel, hv⟩
      · have halone : Alone w' n S.values (.ok v i) := ⟨hrel, hv⟩
        rw [Eval.vetted, if_neg hP]
        refine .inl ⟨hminds.excuses hrel hP, fun _ => ?_⟩
        exact ⟨w', w', hw', hrel.heap, S.refl w', halone.vetted⟩
  | error e i =>
    rcases h with ⟨he, hexcused⟩ | ⟨w', j, rfl, hw', hrel⟩
    · have halarm : S.excuses .alarm := hminds.resolve_right fun hnever => hnever.1 e he
      rw [Eval.vetted]
      split
      · exact .inl ⟨he, hexcused.vetted⟩
      · exact .inl ⟨halarm, hexcused.vetted⟩
    · obtain rfl := hrel.eq hfollows
      by_cases hP : P i []
      · have hP' := hle _ _ hP
        simp only [Eval.vetted, hP, hP', if_true]
        exact .inr ⟨w', i, rfl, hw', hrel⟩
      · have halone : Alone w' n S.values (.error e i) := hrel
        rw [Eval.vetted, if_neg hP]
        refine .inl ⟨hminds.excuses hrel hP, fun _ => ?_⟩
        exact ⟨w', w', hw', hrel.heap, S.refl w', halone.vetted⟩

theorem sim_watched (hfollows : S.follows) (hminds : S.Minds P)
    (hle : ∀ i hand, P i hand → P' i hand) (hand : Hand) {x y : Eval Value}
    (hx : S.Simulates w n S.values x y) :
    S.Simulates w n S.values (Eval.watched P hand x) (Eval.watched P' hand y) := by
  intro i j hrel
  obtain rfl := hrel.eq hfollows
  have hends := hx i i hrel
  rw [Eval.watched_apply, Eval.watched_apply]
  by_cases hP : P i hand
  · rw [if_pos hP, if_pos (hle i hand hP)]
    exact hends.vetted hfollows hminds hle
  · rw [if_neg hP]
    refine .inl ⟨hminds.excuses hrel hP, fun _ => ?_⟩
    split
    · obtain ⟨v, hv, halone⟩ := hends.alone hfollows
      exact ⟨w, v, S.refl w, hrel.heap, hv, halone.vetted⟩
    · exact ⟨w, w, S.refl w, hrel.heap, S.refl w, hrel⟩

/-- Two watches over the same run keep it in step with itself if the second lets pass whatever the
first does. -/
theorem drives_watched (hfollows : S.follows) (hminds : S.Minds P)
    (hle : ∀ i hand, P i hand → P' i hand)
    (hdepth : ∀ n, S.nests n → n.left < n.leftLimit ∨ ¬ n.right < n.rightLimit) (fuel : Nat) :
    S.Drives (.watched P fuel) (.watched P' fuel) := by
  have hpairing := S.pairing_eq hfollows
  induction fuel with
  | zero =>
    refine ⟨.inl rfl, fun _ => ?_, fun _ _ => ?_⟩
    · exact sim_outOfFuel (.inl rfl) fun _ => rfl
    · exact sim_outOfFuel (.inl rfl) fun _ => rfl
  | succ fuel ih =>
    refine ⟨.inl rfl, ?_, ?_⟩
    · intro w n v v' hv
      obtain rfl := hv.eq (hpairing w)
      refine sim_watched hfollows hminds hle _ fun i j hrel => ?_
      exact sim_step ih hv (fun _ => hdepth n hrel.nests) i j hrel
    · intro w n f f' vs vs' hf hvs
      obtain rfl := hf.eq (hpairing w)
      obtain rfl := hvs.eq (hpairing w)
      exact sim_watched hfollows hminds hle _ (sim_applyTo ih hf hvs)

end Lockstep

end Lisplet
