import Lisplet.Proofs.Data

/-!
# Where signals stop

A function takes up every signal of its body, and a block or loop all but the jumps to labels that
are not its own. What a return or break carries is data, so it is no signal again once it has been
unwrapped: this is where the layout of the state comes in. A signal from the head of a construct,
its locals, its condition or its bounds, is not taken up there. It leaves at once, in the very state
in which it came about; only a label is an error.
-/

namespace Lisplet

open Eval Builtin

/-! ## Steps of a run -/

section

variable {α β : Type} {x : Eval α} {f : α → Eval β} {i j k : Interpreter} {a : α} {b : β}

theorem Eval.exists_of_bind (h : (x >>= f) i = .ok b k) :
    ∃ a j, x i = .ok a j ∧ f a j = .ok b k := by
  change EStateM.bind x f i = .ok b k at h
  unfold EStateM.bind at h
  cases hr : x i with
  | error halt j =>
    rw [hr] at h
    cases h
  | ok a j =>
    rw [hr] at h
    exact ⟨a, j, rfl, h⟩

theorem Eval.exists_of_inFrame {frame : Record Value} (h : inFrame frame x i = .ok a k) :
    ∃ j, x { i with env := (i.env.scope frame).1 } = .ok a j := by
  unfold inFrame at h
  dsimp only at h
  split at h
  next b j hr =>
    cases h
    exact ⟨j, hr⟩
  next => cases h

theorem Layout.Safe.ok {L : Layout} {Q : Layout → α → Prop} (hx : L.Safe Q x) (hi : L.Holds i)
    (h : x i = .ok a j) : ∃ M : Layout, L.Grows M ∧ M.Holds j ∧ Q M a := by
  have hends := hx i hi
  rw [h] at hends
  exact hends

/-- What is known of the results of a computation may be added to its safety. -/
theorem Layout.Safe.and {L : Layout} {Q : Layout → α → Prop} {R : α → Prop} (hx : L.Safe Q x)
    (h : ∀ i a j, x i = .ok a j → R a) : L.Safe (fun M a => Q M a ∧ R a) x := by
  intro i hi
  have hends := hx i hi
  cases hr : x i with
  | error halt j =>
    rw [hr] at hends
    exact hends
  | ok a j =>
    rw [hr] at hends
    obtain ⟨M, hg, hj, ha⟩ := hends
    exact ⟨M, hg, hj, ha, h i a j hr⟩

end

section

variable {e : Engine} {form v w : Value} {next : Value → Eval Value} {i j k : Interpreter}

theorem eq_of_escalate (h : escalate v i = .ok w j) : w = v ∧ j = i := by
  cases v with
  | label => cases h
  | _ =>
    cases h
    exact ⟨rfl, rfl⟩

/-- A signal is escalated, in the state in which it came about. -/
theorem Engine.value_of_signal (h : e.evaluate form i = .ok v j) (hv : v.isSignal = true) :
    e.value form next i = escalate v j := by
  refine (bind_of_ok h).trans ?_
  rw [if_pos hv]

theorem Engine.value_of_not_signal (h : e.evaluate form i = .ok v j) (hv : v.isSignal = false) :
    e.value form next i = next v j := by
  refine (bind_of_ok h).trans ?_
  rw [if_neg (by simp [hv])]

theorem Engine.exists_of_value (h : e.value form next i = .ok w k) :
    ∃ v j, e.evaluate form i = .ok v j ∧
      (v.isSignal = true ∧ w = v ∧ k = j ∨ v.isSignal = false ∧ next v j = .ok w k) := by
  obtain ⟨v, j, hv, h⟩ := exists_of_bind h
  refine ⟨v, j, hv, ?_⟩
  cases hs : v.isSignal with
  | true =>
    rw [if_pos hs] at h
    exact .inl ⟨rfl, eq_of_escalate h⟩
  | false =>
    rw [if_neg (by simp [hs])] at h
    exact .inr ⟨rfl, h⟩

end

/-! ## Labels of a body -/

section

variable {name : String} {labels : Record Nat}

theorem Record.has_insert_self (r : Record Nat) (key : String) (n : Nat) :
    (Record.insert key n r).has key = true := by
  simp [Record.has, Record.get?_insert_self]

theorem Record.has_insert {r : Record Nat} (h : Record.has name r = true) (key : String) (n : Nat) :
    (Record.insert key n r).has name = true :=
  mem_keys_iff_has.mp (keys_subset_insert key n r (mem_keys_iff_has.mpr h))

/-- The labels written out among the forms are known from the start. -/
theorem has_literalLabels (labels : Record Nat) (forms : List Value) (pos : Nat)
    (h : labels.has name = true ∨ ∃ form ∈ forms, form.literalLabel? = some name) :
    (literalLabels labels pos forms).has name = true := by
  induction forms generalizing labels pos with
  | nil =>
    obtain h | ⟨form, hform, -⟩ := h
    · exact h
    · exact absurd hform List.not_mem_nil
  | cons form rest ih =>
    unfold literalLabels
    split
    next other hother =>
      apply ih
      obtain h | ⟨form', hform', hname⟩ := h
      · exact .inl (Record.has_insert h other pos)
      · rcases List.mem_cons.mp hform' with rfl | hrest
        · rw [hother] at hname
          cases hname
          exact .inl (Record.has_insert_self labels name pos)
        · exact .inr ⟨form', hrest, hname⟩
    next hnone =>
      apply ih
      obtain h | ⟨form', hform', hname⟩ := h
      · exact .inl h
      · rcases List.mem_cons.mp hform' with rfl | hrest
        · rw [hnone] at hname
          cases hname
        · exact .inr ⟨form', hrest, hname⟩

variable {e : Engine}

-- A label that is known stays known, and a jump to it does not leave the body.
theorem known_of_runLeg (hname : labels.has name = true) {forms : List Value} {pos : Nat}
    {result : Value} {leg : Leg} {i j : Interpreter}
    (h : e.runLeg labels pos result forms i = .ok leg j) :
    leg ≠ .ended (.goto name) ∧
      ∀ index known r, leg = .jump index known r → Record.has name known = true := by
  induction forms generalizing labels pos result i with
  | nil =>
    cases h
    exact ⟨nofun, nofun⟩
  | cons form rest ih =>
    obtain ⟨v, k, -, h⟩ := exists_of_bind h
    cases v with
    | leaving w | breaking w =>
      cases h
      exact ⟨nofun, nofun⟩
    | goto target =>
      cases hget : labels.get? target with
      | some index =>
        simp only [hget] at h
        cases h
        refine ⟨nofun, ?_⟩
        intro index known r heq
        cases heq
        exact hname
      | none =>
        simp only [hget] at h
        cases h
        refine ⟨?_, nofun⟩
        intro heq
        cases heq
        simp [Record.has, hget] at hname
    | label other => exact ih (Record.has_insert hname other pos) h
    | _ => exact ih hname h

theorem ne_goto_of_runLegs (hname : labels.has name = true) {forms : List Value} {legs pos : Nat}
    {result : Value} {flow : Flow} {i j : Interpreter}
    (h : e.runLegs forms legs labels pos result i = .ok flow j) : flow ≠ .goto name := by
  induction legs generalizing labels pos result i with
  | zero => cases h
  | succ legs ih =>
    obtain ⟨leg, k, hleg, h⟩ := exists_of_bind h
    obtain ⟨hended, hjump⟩ := known_of_runLeg hname hleg
    cases leg with
    | ended flow' =>
      cases h
      rintro rfl
      exact hended rfl
    | jump index known r => exact ih (hjump index known r rfl) h

end

/-! ## What leaves a body -/

/-- What may leave a block or loop with the given body: no signal but a jump, and no jump to a label
written out among the forms. -/
def Value.Leaves (body : List Value) (v : Value) : Prop :=
  v.isSignal = false ∨ ∃ target, v = .goto target ∧ ∀ form ∈ body, form.literalLabel? ≠ some target

namespace Layout

variable {L : Layout} {e : Engine} {body : List Value}

def FitsPass (body : List Value) (L : Layout) (flow : Flow) : Prop :=
  L.FitsFlow flow ∧ ∀ target, flow = .goto target → ∀ form ∈ body, form.literalLabel? ≠ some target

theorem FitsPass.leaves {flow : Flow} (h : L.FitsPass body flow) : flow.toValue.Leaves body := by
  obtain ⟨hfits, hgoto⟩ := h
  cases flow with
  | next v | leave v | exit v => exact .inl (Fits.not_signal hfits)
  | goto target => exact .inr ⟨target, rfl, hgoto target rfl⟩

theorem safe_pass (he : e.Tidy) {f : Record Value} (hf : L.FitsFields .datum f)
    (hbody : L.FitsAll .form body) : L.Safe (FitsPass body) (e.runIteration f body) := by
  refine (safe_runIteration he hf hbody).and ?_
  intro i flow j h target hflow form hform hlabel
  obtain ⟨k, hrun⟩ := exists_of_inFrame h
  have hknown := has_literalLabels [] body 0 (.inr ⟨form, hform, hlabel⟩)
  exact ne_goto_of_runLegs hknown hrun hflow

theorem leaves_afterPass {flow : Flow} (hflow : L.FitsPass body flow) {next : Value → Eval Value}
    (hnext : ∀ v, L.Fits .datum v → L.Safe (fun _ v => v.Leaves body) (next v)) :
    L.Safe (fun _ v => v.Leaves body) (afterPass flow next) := by
  cases flow with
  | next v => exact hnext v hflow.1
  | _ => exact safe_pure hflow.leaves

theorem leaves_block (he : e.Tidy) {locals : Value} (hlocals : L.Fits .datum locals)
    (hbody : L.FitsAll .form body) :
    L.Safe (fun _ v => v.Leaves body) (block e (locals :: body)) := by
  refine safe_bind (safe_blockFrame hlocals) fun M hM frame hframe => ?_
  refine safe_bind (safe_pass he hframe (hbody.mono hM)) fun N _ flow hflow => ?_
  exact safe_pure hflow.leaves

theorem leaves_repeatEndlessly (he : e.Tidy) (hbody : L.FitsAll .form body) (rounds : Nat) :
    L.Safe (fun _ v => v.Leaves body) (repeatEndlessly e body rounds) := by
  induction rounds generalizing L with
  | zero => exact safe_outOfFuel
  | succ rounds ih =>
    refine safe_bind (safe_pass he (f := []) trivial hbody) fun M hM flow hflow => ?_
    exact leaves_afterPass hflow fun _ _ => ih (hbody.mono hM)

theorem leaves_endlessLoop (he : e.Tidy) (hbody : L.FitsAll .form body) :
    L.Safe (fun _ v => v.Leaves body) (endlessLoop e body) := by
  cases body with
  | nil => exact safe_fail _
  | cons form rest => exact leaves_repeatEndlessly he hbody _

theorem leaves_countPasses (he : e.Tidy) (name : String) (hbody : L.FitsAll .form body)
    (passes : Nat) (k : Int) {result : Value} (hresult : L.Fits .datum result) :
    L.Safe (fun _ v => v.Leaves body) (countPasses e name body passes k result) := by
  induction passes generalizing L k result with
  | zero => exact safe_pure (.inl hresult.not_signal)
  | succ passes ih =>
    have hframe : L.FitsFields .datum [(name, .int (Int64.ofInt k))] := ⟨trivial, trivial⟩
    refine safe_bind (safe_pass he hframe hbody) fun M hM flow hflow => ?_
    exact leaves_afterPass hflow fun v hv => ih (hbody.mono hM) (k + 1) hv

theorem leaves_forLoop (he : e.Tidy) (var first bound : Value) (hbody : L.FitsAll .form body) :
    L.Safe (fun _ v => v.Leaves body) (forLoop e (var :: first :: bound :: body)) := by
  refine safe_bind (safe_loopVariable var) fun M hM name _ => ?_
  split
  · exact leaves_countPasses he name (hbody.mono hM) _ _ trivial
  · exact safe_failWith _ _

end Layout

/-! ## Passes between tests -/

/-- From state `i` with the value `result` so far, a loop that tests before each pass has made `n`
passes and is about to test again, in state `k` with the value `w`. -/
inductive Engine.PreTested (e : Engine) (expected : Bool) (condition : Value) (body : List Value) :
    Nat → Interpreter → Value → Interpreter → Value → Prop
  | none {i : Interpreter} {result : Value} : PreTested e expected condition body 0 i result i result
  | pass {i j k l : Interpreter} {result test u w : Value} {n : Nat} :
      e.evaluate condition i = .ok test j → test.isSignal = false → test.isTruthy = expected →
      e.runIteration [] body j = .ok (.next u) k →
      PreTested e expected condition body n k u l w →
      PreTested e expected condition body (n + 1) i result l w

/-- From state `i` a loop that tests after each pass has made `n` passes and is about to begin the
next one, in state `k`. -/
inductive Engine.PostTested (e : Engine) (condition : Value) (body : List Value) :
    Nat → Interpreter → Interpreter → Prop
  | none {i : Interpreter} : PostTested e condition body 0 i i
  | pass {i j k l : Interpreter} {test u : Value} {n : Nat} :
      e.runIteration [] body i = .ok (.next u) j → e.evaluate condition j = .ok test k →
      test.isSignal = false → test.isTruthy = true → PostTested e condition body n k l →
      PostTested e condition body (n + 1) i l

section

variable {e : Engine} {expected : Bool} {condition : Value} {body : List Value}

/-- A signal from a test ends the loop, and what is left of it is the signal alone. -/
theorem Engine.PreTested.repeatWhile {n rounds : Nat} {i k l : Interpreter} {result w s : Value}
    (h : e.PreTested expected condition body n i result k w) (hn : n < rounds)
    (hs : e.evaluate condition k = .ok s l) (hsignal : s.isSignal = true) :
    repeatWhile e expected condition body rounds result i = escalate s l := by
  induction h generalizing rounds with
  | none =>
    obtain ⟨rounds, rfl⟩ := Nat.exists_eq_add_of_lt hn
    exact Engine.value_of_signal hs hsignal
  | @pass i j k l result test u w n htest hsig htruthy hpass _ ih =>
    obtain ⟨rounds, rfl⟩ : ∃ m, rounds = m + 1 := ⟨rounds - 1, by omega⟩
    refine (Engine.value_of_not_signal htest hsig).trans ?_
    rw [if_neg (by simp [htruthy])]
    exact (bind_of_ok hpass).trans (ih (by omega) hs)

theorem Engine.PostTested.repeatDo {n rounds : Nat} {i j k l : Interpreter} {w s : Value}
    (h : e.PostTested condition body n i j) (hn : n < rounds)
    (hpass : e.runIteration [] body j = .ok (.next w) k) (hs : e.evaluate condition k = .ok s l)
    (hsignal : s.isSignal = true) : repeatDo e condition body rounds i = escalate s l := by
  induction h generalizing rounds with
  | none =>
    obtain ⟨rounds, rfl⟩ := Nat.exists_eq_add_of_lt hn
    exact (bind_of_ok hpass).trans (Engine.value_of_signal hs hsignal)
  | @pass i j k l test u n hfirst htest hsig htruthy _ ih =>
    obtain ⟨rounds, rfl⟩ : ∃ m, rounds = m + 1 := ⟨rounds - 1, by omega⟩
    refine (bind_of_ok hfirst).trans ?_
    refine (Engine.value_of_not_signal htest hsig).trans ?_
    rw [if_pos htruthy]
    exact ih (by omega) hpass

end

namespace Layout

variable {L : Layout} {e : Engine} {expected : Bool} {condition : Value} {body : List Value}

-- By induction on the rounds: each one ends the loop, or it is a pass in front of those to come.
theorem leaves_repeatWhile (he : e.Tidy) (hcondition : L.Fits .form condition)
    (hbody : L.FitsAll .form body) {rounds : Nat} {i l : Interpreter} {result v : Value}
    (hi : L.Holds i) (hresult : L.Fits .datum result)
    (h : repeatWhile e expected condition body rounds result i = .ok v l) :
    v.Leaves body ∨ ∃ n k w, e.PreTested expected condition body n i result k w ∧
      e.evaluate condition k = .ok v l ∧ v.isSignal = true := by
  induction rounds generalizing L i result with
  | zero => cases h
  | succ rounds ih =>
    obtain ⟨test, j, htest, h⟩ := Engine.exists_of_value h
    obtain ⟨hsignal, rfl, rfl⟩ | ⟨hsignal, h⟩ := h
    · exact .inr ⟨0, i, result, .none, htest, hsignal⟩
    · obtain ⟨M, hLM, hj, -⟩ := (he.evaluate hcondition).ok hi htest
      split at h
      next =>
        cases h
        exact .inl (.inl hresult.not_signal)
      next htruthy =>
        obtain ⟨flow, k, hpass, h⟩ := exists_of_bind h
        obtain ⟨N, hMN, hk, hflow⟩ :=
          (safe_pass he (f := []) trivial (hbody.mono hLM)).ok hj hpass
        cases flow with
        | next u =>
          have hg := hLM.trans hMN
          have hrest := ih (hcondition.mono hg) (hbody.mono hg) hk hflow.1 h
          refine hrest.imp id ?_
          rintro ⟨n, k', w, hn, hs⟩
          exact ⟨n + 1, k', w, .pass htest hsignal (by simpa using htruthy) hpass hn, hs⟩
        | leave u | exit u | goto u =>
          cases h
          exact .inl hflow.leaves

theorem leaves_repeatDo (he : e.Tidy) (hcondition : L.Fits .form condition)
    (hbody : L.FitsAll .form body) {rounds : Nat} {i l : Interpreter} {v : Value}
    (hi : L.Holds i) (h : repeatDo e condition body rounds i = .ok v l) :
    v.Leaves body ∨ ∃ n j k w, e.PostTested condition body n i j ∧
      e.runIteration [] body j = .ok (.next w) k ∧ e.evaluate condition k = .ok v l ∧
      v.isSignal = true := by
  induction rounds generalizing L i with
  | zero => cases h
  | succ rounds ih =>
    obtain ⟨flow, j, hpass, h⟩ := exists_of_bind h
    obtain ⟨M, hLM, hj, hflow⟩ := (safe_pass he (f := []) trivial hbody).ok hi hpass
    cases flow with
    | leave u | exit u | goto u =>
      cases h
      exact .inl hflow.leaves
    | next u =>
      obtain ⟨test, k, htest, h⟩ := Engine.exists_of_value h
      obtain ⟨hsignal, rfl, rfl⟩ | ⟨hsignal, h⟩ := h
      · exact .inr ⟨0, i, j, u, .none, hpass, htest, hsignal⟩
      · obtain ⟨N, hMN, hk, -⟩ := (he.evaluate (hcondition.mono hLM)).ok hj htest
        split at h
        next htruthy =>
          have hg := hLM.trans hMN
          refine (ih (hcondition.mono hg) (hbody.mono hg) hk h).imp id ?_
          rintro ⟨n, j', k', w, hn, hs⟩
          exact ⟨n + 1, j', k', w, .pass hpass htest hsignal htruthy hn, hs⟩
        next =>
          cases h
          exact .inl (.inl (Fits.not_signal hflow.1))

end Layout

/-! ## Heads of constructs -/

section

variable {e : Engine} {evaluate : Value → Eval Value} {further kind : Kind} {kinds : List Kind}
  {arg v w : Value} {more : List Value} {i j k : Interpreter}

theorem bindArgs_of_unevaluated (args : List Value) (hfurther : further.isUnevaluated = true)
    (hkinds : ∀ kind ∈ kinds, kind.isUnevaluated = true) :
    bindArgs evaluate further kinds args i = .ok (.args args) i := by
  induction args generalizing kinds with
  | nil => rfl
  | cons arg more ih =>
    have hkind : (kinds.headD further).isUnevaluated = true := by
      cases kinds with
      | nil => exact hfurther
      | cons kind kinds => exact hkinds kind List.mem_cons_self
    rw [bindArgs_cons]
    dsimp only
    rw [if_pos hkind]
    exact bind_of_ok (ih fun kind hmem => hkinds kind (List.mem_of_mem_tail hmem))

theorem bindArgs_of_signal (hkind : (kinds.headD further).isUnevaluated = false)
    (hv : evaluate arg i = .ok v j) (hsignal : v.isSignal = true) :
    bindArgs evaluate further kinds (arg :: more) i =
      (escalate v >>= fun s => pure (.signal s)) j := by
  rw [bindArgs_cons]
  dsimp only
  rw [if_neg (Bool.eq_false_iff.mp hkind)]
  refine (bind_of_ok hv).trans ?_
  rw [if_pos hsignal]

theorem bindArgs_of_accept (hkind : (kinds.headD further).isUnevaluated = false)
    (hv : evaluate arg i = .ok v j) (hsignal : v.isSignal = false)
    (haccept : (kinds.headD further).accept? v = some w) :
    bindArgs evaluate further kinds (arg :: more) i =
      (bindArgs evaluate further kinds.tail more >>= fun bound => pure (bound.cons w)) j := by
  have hw : accept (kinds.headD further) v j = .ok w j := by
    unfold accept
    rw [haccept]
    rfl
  rw [bindArgs_cons]
  dsimp only
  rw [if_neg (Bool.eq_false_iff.mp hkind)]
  refine (bind_of_ok hv).trans ?_
  rw [if_neg (Bool.eq_false_iff.mp hsignal)]
  exact bind_of_ok hw

theorem bindContract_of_rest {contract : List Kind} {name : String} {args : List Value}
    (hrest : restKind? contract = some kind) (hlen : (fixedKinds contract).length ≤ args.length) :
    bindContract evaluate name contract args =
      bindArgs evaluate kind (fixedKinds contract) args := by
  unfold bindContract
  dsimp only
  rw [if_neg (Nat.not_lt.mpr hlen), hrest]
  rfl

end

section

variable {e : Engine} {id : Nat} {name : String} {body : List Value} {i j k : Interpreter}

theorem call_of_unevaluated {contract : List Kind} {op : Operation} {args : List Value}
    (hrest : restKind? contract = some .restUnevaluated)
    (hfixed : ∀ kind ∈ fixedKinds contract, kind.isUnevaluated = true)
    (hlen : (fixedKinds contract).length ≤ args.length) :
    e.call (.checked id name contract op) args i = op.run e args i := by
  refine bind_of_ok (f := e.runBound op) (a := .args args) ?_
  rw [bindContract_of_rest hrest hlen]
  exact bindArgs_of_unevaluated args rfl hfixed

-- What binding comes to when a signal cuts it short. It goes through all that is still to be done.
theorem cons_of_signal {x : Eval Bound} {s : Value}
    (h : x i = (escalate s >>= fun s => pure (.signal s)) j) (v : Value) :
    (x >>= fun bound => pure (bound.cons v)) i = (escalate s >>= fun s => pure (.signal s)) j := by
  change EStateM.bind x _ i = _
  unfold EStateM.bind
  rw [h]
  cases s <;> rfl

theorem call_of_signal {contract : List Kind} {op : Operation} {args : List Value} {s : Value}
    (h : bindContract e.evaluate name contract args i =
      (escalate s >>= fun s => pure (.signal s)) j) :
    e.call (.checked id name contract op) args i = escalate s j := by
  change EStateM.bind (bindContract e.evaluate name contract args) _ i = _
  unfold EStateM.bind
  rw [h]
  cases s <;> rfl

/-! ### The locals of a block -/

theorem bindContract_block (locals : Value) :
    bindContract e.evaluate name [.any, .restUnevaluated] (locals :: body) =
      bindArgs e.evaluate .restUnevaluated [.any] (locals :: body) :=
  bindContract_of_rest rfl (Nat.succ_le_succ (Nat.zero_le _))

theorem call_block_of_signal {locals s : Value} (hs : e.evaluate locals i = .ok s j)
    (hsignal : s.isSignal = true) :
    e.call (.checked id name [.any, .restUnevaluated] .block) (locals :: body) i =
      escalate s j := by
  apply call_of_signal
  rw [bindContract_block]
  exact bindArgs_of_signal rfl hs hsignal

theorem call_block_of_not_signal {locals v : Value} (hv : e.evaluate locals i = .ok v j)
    (hsignal : v.isSignal = false) :
    e.call (.checked id name [.any, .restUnevaluated] .block) (locals :: body) i =
      block e (v :: body) j := by
  refine bind_of_ok (f := e.runBound .block) (a := .args (v :: body)) ?_
  rw [bindContract_block, bindArgs_of_accept rfl hv hsignal rfl]
  exact bind_of_ok (bindArgs_of_unevaluated body rfl (by simp))

/-! ### The bounds of a loop -/

theorem bindContract_for (var first bound : Value) :
    bindContract e.evaluate name [.unevaluated, .integer, .integer, .restUnevaluated]
        (var :: first :: bound :: body) =
      bindArgs e.evaluate .restUnevaluated [.integer, .integer] (first :: bound :: body) >>=
        fun b => pure (b.cons var) :=
  bindContract_of_rest rfl (Nat.le_add_left 3 _)

theorem call_for_of_first_signal {var first bound s : Value}
    (hs : e.evaluate first i = .ok s j) (hsignal : s.isSignal = true) :
    e.call (.checked id name [.unevaluated, .integer, .integer, .restUnevaluated] .forLoop)
      (var :: first :: bound :: body) i = escalate s j := by
  apply call_of_signal
  rw [bindContract_for]
  exact cons_of_signal (bindArgs_of_signal rfl hs hsignal) var

theorem call_for_of_bound_signal {var first bound s : Value} {m : Int64}
    (hm : e.evaluate first i = .ok (.int m) j) (hs : e.evaluate bound j = .ok s k)
    (hsignal : s.isSignal = true) :
    e.call (.checked id name [.unevaluated, .integer, .integer, .restUnevaluated] .forLoop)
      (var :: first :: bound :: body) i = escalate s k := by
  apply call_of_signal
  rw [bindContract_for]
  refine cons_of_signal ?_ var
  rw [bindArgs_of_accept rfl hm rfl rfl]
  exact cons_of_signal (bindArgs_of_signal rfl hs hsignal) _

theorem call_for_of_bounds {var first bound : Value} {m n : Int64}
    (hm : e.evaluate first i = .ok (.int m) j) (hn : e.evaluate bound j = .ok (.int n) k) :
    e.call (.checked id name [.unevaluated, .integer, .integer, .restUnevaluated] .forLoop)
      (var :: first :: bound :: body) i = forLoop e (var :: .int m :: .int n :: body) k := by
  refine bind_of_ok (f := e.runBound .forLoop) (a := .args (var :: .int m :: .int n :: body)) ?_
  have hbound : bindArgs e.evaluate .restUnevaluated [.integer] (bound :: body) j =
      .ok (.args (.int n :: body)) k := by
    rw [bindArgs_of_accept rfl hn rfl rfl]
    exact bind_of_ok (bindArgs_of_unevaluated body rfl (by simp))
  have hfirst : bindArgs e.evaluate .restUnevaluated [.integer, .integer]
      (first :: bound :: body) i = .ok (.args (.int m :: .int n :: body)) k := by
    rw [bindArgs_of_accept rfl hm rfl rfl]
    exact bind_of_ok hbound
  rw [bindContract_for]
  exact bind_of_ok hfirst

end

/-! ## The outermost level -/

theorem not_signal_of_settled {form v w : Value} {i j : Interpreter}
    (h : settled form v i = .ok w j) : w.isSignal = false := by
  have hstray : ∀ cause, stray cause form i ≠ .ok w j := by
    intro cause hok
    have hfail : (fail cause : Eval Value) i = .error (.error { cause }) i := rfl
    unfold stray leavingCrumb at hok
    rw [hfail] at hok
    dsimp only at hok
    split at hok <;> cases hok
  cases v with
  | leaving | breaking | goto | label => exact absurd h (hstray _)
  | _ =>
    cases h
    rfl

theorem not_signal_of_evalTop {fuel : Nat} {forms : List Value} {result v : Value}
    {i j : Interpreter} (hresult : result.isSignal = false)
    (h : evalTop fuel forms result i = .ok v j) : v.isSignal = false := by
  induction forms generalizing result i with
  | nil =>
    cases h
    exact hresult
  | cons form rest ih =>
    obtain ⟨w, k, -, h⟩ := exists_of_bind h
    obtain ⟨u, l, hu, h⟩ := exists_of_bind h
    exact ih (not_signal_of_settled hu) h

/-- A signal never comes out of a source, whatever the state. -/
theorem not_signal_of_evalForms {fuel : Nat} {forms : Except Error (List Form)} {v : Value}
    {i j : Interpreter} (h : evalForms fuel forms i = .ok v j) : v.isSignal = false := by
  obtain ⟨fs, k, -, h⟩ := exists_of_bind h
  obtain ⟨vs, l, -, h⟩ := exists_of_bind h
  exact not_signal_of_evalTop rfl h

/-! ## All constructs -/

/-- In state `i`, functions, blocks and loops take up the signals of their bodies. -/
structure Engine.TakesUpSignals (e : Engine) (L : Layout) (i : Interpreter) : Prop where
  /-- No signal comes out of a function. -/
  function {captured : Record Value} {params : List String} {body v : Value} {args : List Value}
    {j : Interpreter} : L.FitsFields .datum captured → L.Fits .form body → L.FitsAll .datum args →
    e.invoke captured params body args i = .ok v j → v.isSignal = false
  /-- A return from the body of a function is unwrapped, and any other signal is an error. -/
  functionBody {captured : Record Value} {params : List String} {body w : Value}
    {args : List Value} {k : Interpreter} :
    e.evaluate body { i with env := (i.env.scope (bindParams captured params args)).1 } = .ok w k →
    e.invoke captured params body args i =
      let k := { k with env := k.env.release (i.env.scope (bindParams captured params args)).2 }
      match w with
      | .leaving v => .ok v k
      | .breaking _ => .error (.error { cause := .strayBreak }) k
      | .goto target => .error (.error { cause := .gotoTargetNotFound target }) k
      | .label _ => .error (.error { cause := .improperLabels }) k
      | v => .ok v k
  /-- What leaves a block whose locals have been evaluated. -/
  block {locals v : Value} {body : List Value} {j : Interpreter} : L.Fits .datum locals →
    L.FitsAll .form body → Builtin.block e (locals :: body) i = .ok v j → v.Leaves body
  /-- What leaves a `while` or `until` loop, unless it is a signal from a test. -/
  conditionLoop {expected : Bool} {condition v : Value} {body : List Value} {j : Interpreter} :
    L.Fits .form condition → L.FitsAll .form body →
    Builtin.conditionLoop expected e (condition :: body) i = .ok v j →
    v.Leaves body ∨ ∃ n k w, e.PreTested expected condition body n i .nil k w ∧
      e.evaluate condition k = .ok v j ∧ v.isSignal = true
  /-- What leaves a `do` loop, unless it is a signal from a test. -/
  doLoop {condition v : Value} {body : List Value} {j : Interpreter} :
    L.Fits .form condition → L.FitsAll .form body →
    Builtin.doLoop e (condition :: body) i = .ok v j →
    v.Leaves body ∨ ∃ n l k w, e.PostTested condition body n i l ∧
      e.runIteration [] body l = .ok (.next w) k ∧ e.evaluate condition k = .ok v j ∧
      v.isSignal = true
  /-- What leaves a `loop`. -/
  endlessLoop {v : Value} {body : List Value} {j : Interpreter} : L.FitsAll .form body →
    Builtin.endlessLoop e body i = .ok v j → v.Leaves body
  /-- What leaves a `for` loop whose bounds have been evaluated. -/
  forLoop {var first bound v : Value} {body : List Value} {j : Interpreter} :
    L.FitsAll .form body → Builtin.forLoop e (var :: first :: bound :: body) i = .ok v j →
    v.Leaves body

/-- In state `i`, a signal from the head of a construct passes, and no form of the body is run after
it. If there is none, the construct goes on as `Engine.TakesUpSignals` has it. -/
structure Engine.LetsSignalsPass (e : Engine) (i : Interpreter) : Prop where
  /-- A signal from the locals of a block. -/
  locals {id : Nat} {name : String} {locals s : Value} {body : List Value} {j : Interpreter} :
    e.evaluate locals i = .ok s j → s.isSignal = true →
    e.call (.checked id name [.any, .restUnevaluated] .block) (locals :: body) i = escalate s j
  block {id : Nat} {name : String} {locals v : Value} {body : List Value} {j : Interpreter} :
    e.evaluate locals i = .ok v j → v.isSignal = false →
    e.call (.checked id name [.any, .restUnevaluated] .block) (locals :: body) i =
      Builtin.block e (v :: body) j
  /-- A signal from a test of a `while` or `until` loop, after any number of passes. -/
  condition {expected : Bool} {condition w s : Value} {body : List Value} {n : Nat}
    {k l : Interpreter} : n < e.fuel → e.PreTested expected condition body n i .nil k w →
    e.evaluate condition k = .ok s l → s.isSignal = true →
    Builtin.conditionLoop expected e (condition :: body) i = escalate s l
  /-- A signal from a test of a `do` loop, after any number of passes and one more. -/
  doCondition {condition w s : Value} {body : List Value} {n : Nat} {j k l : Interpreter} :
    n < e.fuel → e.PostTested condition body n i j → e.runIteration [] body j = .ok (.next w) k →
    e.evaluate condition k = .ok s l → s.isSignal = true →
    Builtin.doLoop e (condition :: body) i = escalate s l
  /-- The head of these loops is given to them as it is written. -/
  tested {id : Nat} {name : String} {op : Operation} {condition : Value} {body : List Value} :
    e.call (.checked id name [.unevaluated, .restUnevaluated] op) (condition :: body) i =
      op.run e (condition :: body) i
  untested {id : Nat} {name : String} {op : Operation} {body : List Value} :
    e.call (.checked id name [.restUnevaluated] op) body i = op.run e body i
  /-- A signal from the first bound of a `for` loop. -/
  first {id : Nat} {name : String} {var first bound s : Value} {body : List Value}
    {j : Interpreter} : e.evaluate first i = .ok s j → s.isSignal = true →
    e.call (.checked id name [.unevaluated, .integer, .integer, .restUnevaluated] .forLoop)
      (var :: first :: bound :: body) i = escalate s j
  /-- A signal from the second bound of a `for` loop. -/
  second {id : Nat} {name : String} {var first bound s : Value} {body : List Value} {m : Int64}
    {j k : Interpreter} : e.evaluate first i = .ok (.int m) j → e.evaluate bound j = .ok s k →
    s.isSignal = true →
    e.call (.checked id name [.unevaluated, .integer, .integer, .restUnevaluated] .forLoop)
      (var :: first :: bound :: body) i = escalate s k
  forLoop {id : Nat} {name : String} {var first bound : Value} {body : List Value} {m n : Int64}
    {j k : Interpreter} : e.evaluate first i = .ok (.int m) j →
    e.evaluate bound j = .ok (.int n) k →
    e.call (.checked id name [.unevaluated, .integer, .integer, .restUnevaluated] .forLoop)
      (var :: first :: bound :: body) i = Builtin.forLoop e (var :: .int m :: .int n :: body) k

theorem invoke_of_body {e : Engine} {captured : Record Value} {params : List String}
    {body w : Value} {args : List Value} {i k : Interpreter}
    (h : e.evaluate body { i with env := (i.env.scope (bindParams captured params args)).1 } =
      .ok w k) :
    e.invoke captured params body args i = closureResult w
      { k with env := k.env.release (i.env.scope (bindParams captured params args)).2 } := by
  have hrun := bind_of_ok (f := closureResult) h
  unfold Engine.invoke inFrame
  dsimp only
  rw [hrun]
  cases w <;> rfl

theorem Engine.Tidy.takesUpSignals {e : Engine} (he : e.Tidy) {L : Layout} {i : Interpreter}
    (hi : L.Holds i) : e.TakesUpSignals L i where
  function hcaptured hbody hargs h := by
    obtain ⟨M, -, -, hv⟩ := (Layout.safe_invoke he hcaptured _ hbody hargs).ok hi h
    exact hv.not_signal
  functionBody {_ _ _ w _ _} h := by
    rw [invoke_of_body h]
    cases w <;> rfl
  block hlocals hbody h := by
    obtain ⟨M, -, -, hv⟩ := (Layout.leaves_block he hlocals hbody).ok hi h
    exact hv
  conditionLoop hcondition hbody h :=
    Layout.leaves_repeatWhile he hcondition hbody hi trivial h
  doLoop hcondition hbody h := Layout.leaves_repeatDo he hcondition hbody hi h
  endlessLoop hbody h := by
    obtain ⟨M, -, -, hv⟩ := (Layout.leaves_endlessLoop he hbody).ok hi h
    exact hv
  forLoop hbody h := by
    obtain ⟨M, -, -, hv⟩ := (Layout.leaves_forLoop he _ _ _ hbody).ok hi h
    exact hv

theorem Engine.letsSignalsPass (e : Engine) (i : Interpreter) : e.LetsSignalsPass i where
  locals := call_block_of_signal
  block := call_block_of_not_signal
  condition hn h hs hsignal := h.repeatWhile hn hs hsignal
  doCondition hn h hpass hs hsignal := h.repeatDo hn hpass hs hsignal
  tested := call_of_unevaluated rfl (by decide) (Nat.succ_le_succ (Nat.zero_le _))
  untested := call_of_unevaluated rfl (by decide) (Nat.zero_le _)
  first := call_for_of_first_signal
  second := call_for_of_bound_signal
  forLoop := call_for_of_bounds

/-- Every state of every session has a layout, and at every moment of an evaluation the state and
the values at hand have one. In all states with a layout, signals stop where they should: no signal
leaves a function, and none but a jump to a foreign label leaves the body of a block or loop. Signals
from the head of a construct pass it untouched, and no signal comes out of a source. -/
theorem signals_stop_at_constructs :
    (∀ i : Interpreter, i.Reachable → (∃ L : Layout, L.Holds i) ∧
      ∀ fuel source answers, (i.run ((Engine.watched Interpreter.LaidOut fuel).topForms
        (Reader.ofSource source answers).all.1)).1 ≠ .error .alarm) ∧
    (∀ (fuel : Nat) (L : Layout) (i : Interpreter), L.Holds i →
      (Engine.ofFuel fuel).TakesUpSignals L i) ∧
    (∀ (fuel : Nat) (i : Interpreter), (Engine.ofFuel fuel).LetsSignalsPass i) ∧
    (∀ fuel source (i : Interpreter) v j, evalSource fuel source i = .ok v j →
      v.isSignal = false) := by
  refine ⟨?_, ?_, ?_, ?_⟩
  · intro i hi
    exact ⟨hi.exists_layout, fun fuel source answers => hi.never_alarmed (fun _ _ h => h) fuel _⟩
  · intro fuel L i hi
    exact (Layout.tidy_engine fuel).takesUpSignals hi
  · intro fuel i
    exact (Engine.ofFuel fuel).letsSignalsPass i
  · intro fuel source i v j h
    exact not_signal_of_evalForms h

def Value.returningFive : Value :=
  .expr [.primitive 0 "return" .leave, .int 5]

-- In a fresh state, a function takes up the return of its body.
theorem signals_stop_at_constructs_fresh :
    (∃ L : Layout, L.Holds (.fresh 9 {})) ∧
    ∃ v j, (Engine.ofFuel 9).invoke [] [] .returningFive [] (.fresh 9 {}) = .ok v j ∧
      v.isSignal = false := by
  obtain ⟨hlayout, htakes, -, -⟩ := signals_stop_at_constructs
  refine ⟨(hlayout _ (.fresh 9 {})).1, ?_⟩
  have hfits : Layout.bare.Fits .form .returningFive :=
    ⟨rfl, show Operation.Suits none .leave by decide, trivial, trivial⟩
  have hcaptured : Layout.bare.FitsFields .datum [] := trivial
  have hargs : Layout.bare.FitsAll .datum [] := trivial
  have hok : ((Interpreter.fresh 9 {}).run
      ((Engine.ofFuel 9).invoke [] [] .returningFive [])).1.isOk = true := by
    decide +kernel
  unfold Interpreter.run at hok
  cases hr : (Engine.ofFuel 9).invoke [] [] .returningFive [] (.fresh 9 {}) with
  | error h j =>
    rw [hr] at hok
    cases hok
  | ok v j =>
    have htakesUp := htakes 9 .bare _ (Layout.holds_fresh 9 {})
    exact ⟨v, j, rfl, htakesUp.function hcaptured hfits hargs hr⟩

end Lisplet
