import Lisplet.Proofs.Application
import Lisplet.Proofs.Trace

/-!
# Computations that settle

A computation that asks an engine for evaluations settles in a state if from some amount of fuel on
its result is always the same. That result may be that the fuel was not enough, but then the
computation hands it on from a runaway call, and there is no other explanation. Settling goes through
sequencing and through every bracket. The bound `d` is on how much deeper evaluation may nest; going
one level deeper lowers it by one.
-/

namespace Lisplet

open Eval Builtin

variable {α β : Type}

/-- From some amount of fuel on, the result is `r`. -/
def Tends (x : Nat → Eval α) (i : Interpreter) (r : EStateM.Result Halt Interpreter α) : Prop :=
  ∃ n, ∀ m, n ≤ m → x m i = r

/-! ## Answers in the place of stops -/

def Stopped (r : EStateM.Result Halt Interpreter α) : Prop :=
  ∃ h j, r = .error h j ∧ h.Stops

theorem stopped_error_iff {h : Halt} {i : Interpreter} :
    Stopped (.error h i : EStateM.Result Halt Interpreter α) ↔ h.Stops := by
  constructor
  · rintro ⟨h', j, heq, hstop⟩
    cases heq
    exact hstop
  · exact fun hstop => ⟨h, i, rfl, hstop⟩

theorem not_stopped_ok (a : α) (i : Interpreter) :
    ¬ Stopped (.ok a i : EStateM.Result Halt Interpreter α) := by
  rintro ⟨h, j, heq, -⟩
  cases heq

theorem not_stopped_error (err : Error) (i : Interpreter) :
    ¬ Stopped (.error (.error err) i : EStateM.Result Halt Interpreter α) :=
  fun h => stopped_error_iff.mp h err rfl

namespace Engine

/-- Where the first engine is not stopped, the second one gives the same answers. -/
structure Agrees (e e' : Engine) : Prop where
  fuel : e'.fuel = e.fuel
  ask : ∀ q i, ¬ Stopped (e.ask q i) → e'.ask q i = e.ask q i

variable {e : Engine} {q : Request} {x : Engine → Eval α} {y : Engine → Eval β}
  {i j k l l' m : Interpreter} {h : Halt}

theorem Agrees.refl (e : Engine) : e.Agrees e :=
  ⟨rfl, fun _ _ _ => rfl⟩

/-- Another stop in the place of one that there is leaves all other answers as they are. -/
theorem agrees_tagged (hstop : h.Stops) (hask : e.ask q j = .error h k) {φ : Tags}
    (hφ : φ.Single q j) : e.Agrees (e.tagged φ) := by
  refine ⟨rfl, fun q' i' hrest => ?_⟩
  rw [ask_tagged]
  cases hr : e.ask q' i' with
  | ok v l => rfl
  | error h' l =>
    have hne : ¬ (q' = q ∧ i' = j) := by
      rintro ⟨rfl, rfl⟩
      exact hrest ⟨h, k, hask, hstop⟩
    rw [retag, hφ.others q' i' h' hne]

theorem HandsOn.lift (hx : e.HandsOn x i q j l) (hask : e.ask q j = .error h m)
    (hheap : l'.heap = l.heap)
    (hy : ∀ φ : Tags, φ.Single q j → x (e.tagged φ) i = .error (φ q j h) l →
      y (e.tagged φ) k = .error (φ q j h) l') : e.HandsOn y k q j l' := by
  obtain ⟨h', m', hask', hheap', hends⟩ := hx
  cases hask.symm.trans hask'
  exact ⟨h, m, hask, hheap.trans hheap', fun φ hφ => hy φ hφ (hends φ hφ)⟩

theorem handsOn_ask (hask : e.ask q i = .error h j) : e.HandsOn (fun e => e.ask q) i q i j := by
  refine ⟨h, j, hask, rfl, fun φ _ => ?_⟩
  have htagged := e.ask_tagged φ q i
  rw [hask] at htagged
  exact htagged

end Engine

/-! ## Settling -/

/-- With enough fuel the computation hands on what a request halts with that comes to a runaway call
of allowed values, and it does so however much fuel is left for that call. -/
def RunsAway (P : Policy) (x : Engine → Eval α) (i : Interpreter) : Prop :=
  ∃ f vs k, P.Allows f ∧ P.AllowsAll vs ∧ k.uses = [] ∧ k.heap.Runaway f vs ∧
    ∃ n N, ∀ m, N ≤ m → ∃ q j l, j.uses = [] ∧ (Engine.ofFuel (m + n)).HandsOn x i q j l ∧
      ComesTo (m + n) q j m (.apply f vs) k

-- What `x` hands on, `y` hands on, given enough fuel.
theorem RunsAway.lift {P : Policy} {x : Engine → Eval α} {y : Engine → Eval β} {i k : Interpreter}
    (hx : RunsAway P x i) (n : Nat)
    (hlift : ∀ m, n ≤ m → ∀ q j l l', (Engine.ofFuel m).ask q j = .error .outOfFuel l' →
      (Engine.ofFuel m).HandsOn x i q j l → ∃ l, (Engine.ofFuel m).HandsOn y k q j l) :
    RunsAway P y k := by
  obtain ⟨f, vs, k', hf, hvs, hidle, hrun, d, N, hN⟩ := hx
  refine ⟨f, vs, k', hf, hvs, hidle, hrun, d, max n N, fun m hm => ?_⟩
  obtain ⟨q, j, l, hj, hhand, hcome⟩ := hN m (by omega)
  obtain ⟨l', hask⟩ :=
    hcome.stops hj Halt.stops_outOfFuel ⟨k', apply_of_runaway hidle hrun m⟩
  obtain ⟨l'', hhand'⟩ := hlift (m + d) (by omega) q j l l' hask hhand
  exact ⟨q, j, l'', hj, hhand', hcome⟩

-- What stops `x` stops `y` as well, and in the same way.
theorem RunsAway.handed {P : Policy} {x : Engine → Eval α} {y : Engine → Eval β} {i k : Interpreter}
    {back : Interpreter → Interpreter} (hx : RunsAway P x i)
    (hy : ∀ e h l, Halt.Stops h → x e i = .error h l → y e k = .error h (back l))
    (hheap : ∀ l, (back l).heap = l.heap) : RunsAway P y k := by
  refine hx.lift 0 fun m _ q j l l' hask hhand => ⟨back l, hhand.lift hask (hheap l) ?_⟩
  exact fun φ hφ hends => hy _ _ l (hφ.stops _ Halt.stops_outOfFuel) hends

/-- The computation tends to a result, and no fuel is enough only for a runaway call. -/
def Settled (P : Policy) (x : Engine → Eval α) (i : Interpreter) : Prop :=
  ∃ r n, (∀ m, n ≤ m → x (.ofFuel m) i = r) ∧ ∀ j, r = .error .outOfFuel j → RunsAway P x i

/-- A computation settles if, from some amount of fuel on, it goes on as one that does. -/
theorem Settled.ahead {P : Policy} {x y : Engine → Eval α} {i j : Interpreter} (n : Nat)
    (h : ∀ m e, n ≤ m → (Engine.ofFuel m).Agrees e → y e i = x e j) (hx : Settled P x j) :
    Settled P y i := by
  obtain ⟨r, k, hk, haway⟩ := hx
  refine ⟨r, max n k, fun m hm => ?_, fun l hl => ?_⟩
  · exact (h m _ (by omega) (.refl _)).trans (hk m (by omega))
  · refine (haway l hl).lift n fun m hm q j l l' hask hhand => ?_
    -- Another stop in the place of the one that is handed on makes no difference before.
    refine ⟨l, hhand.lift hask rfl fun φ hφ hends => ?_⟩
    exact (h m _ hm (Engine.agrees_tagged Halt.stops_outOfFuel hask hφ)).trans hends

/-- A request whose program runs away comes to a runaway call of allowed values, with any large
amount of fuel left for it. -/
theorem RunsAway.comesTo {P : Policy} {q : Request} {i : Interpreter}
    (h : RunsAway P q.program i) :
    ∃ f vs k, P.Allows f ∧ P.AllowsAll vs ∧ k.uses = [] ∧ k.heap.Runaway f vs ∧
      ∃ n N, ∀ m, N ≤ m → ComesTo (m + n) q i m (.apply f vs) k := by
  obtain ⟨f, vs, k, hf, hvs, hk, hrun, n, N, hN⟩ := h
  refine ⟨f, vs, k, hf, hvs, hk, hrun, n + 1, N, fun m hm => ?_⟩
  obtain ⟨q', j, l, hj, hhand, hcome⟩ := hN m hm
  exact .through hj hhand hcome

/-- A request settles if its program does. -/
theorem Settled.ask {P : Policy} {q : Request} {i : Interpreter} (hidle : i.uses = [])
    (hq : Settled P q.program i) : Settled P (fun e => e.ask q) i := by
  obtain ⟨r, n, hn, haway⟩ := hq
  have hask : ∀ m, n + 1 ≤ m → (Engine.ofFuel m).ask q i = leaving q.left r := by
    intro m hm
    obtain ⟨m, rfl⟩ : ∃ m', m = m' + 1 := ⟨m - 1, by omega⟩
    exact (ask_succ hidle q m).trans (congrArg _ (hn m (by omega)))
  refine ⟨leaving q.left r, n + 1, hask, fun j hj => ?_⟩
  have hr : r = .error .outOfFuel j := (leaving_of_stops Halt.stops_outOfFuel).mp hj
  obtain ⟨f, vs, k, hf, hvs, hk, hrun, d, N, hcome⟩ := (haway j hr).comesTo
  refine ⟨f, vs, k, hf, hvs, hk, hrun, d, max (n + 1) N, fun m hm => ?_⟩
  exact ⟨q, i, j, hidle, Engine.handsOn_ask ((hask (m + d) (by omega)).trans hj),
    hcome m (by omega)⟩

namespace Policy

/-- A sound computation that settles wherever evaluation may nest at most `d` levels deeper, and that
depends on the answers of its engine only. -/
structure Settles (P : Policy) (d : Nat) (Q : α → Prop) (x : Engine → Eval α) : Prop where
  sound : ∀ n, P.Sound Q (x (.ofFuel n))
  firm : ∀ n e i, (Engine.ofFuel n).Agrees e → P.Admits i → i.maxDepth - i.depth ≤ d →
    ¬ Stopped (x (.ofFuel n) i) → x e i = x (.ofFuel n) i
  settled : ∀ i, P.Admits i → i.uses = [] → i.maxDepth - i.depth ≤ d → Settled P x i

variable {P : Policy} {d : Nat} {Q : α → Prop} {R : β → Prop}

/-! ## Computations without requests -/

theorem ne_outOfFuel_of_patient {x : Eval α} (hx : patient.Sound Q x) (i j : Interpreter) :
    x i ≠ .error .outOfFuel j := by
  intro hr
  have hxi := hx i (patient_permissive.admits i)
  rw [hr] at hxi
  exact hxi.2

theorem settles_const {Q' : α → Prop} {x : Eval α} (hx : P.Sound Q x) (hp : patient.Sound Q' x) :
    P.Settles d Q fun _ => x where
  sound _ := hx
  firm _ _ _ _ _ _ _ := rfl
  settled i _ _ _ :=
    ⟨x i, 0, fun _ _ => rfl, fun j hj => absurd hj (ne_outOfFuel_of_patient hp i j)⟩

theorem settles_pure {a : α} (h : Q a) : P.Settles d Q fun _ => pure a :=
  settles_const (sound_pure h) (sound_pure (Q := fun _ => True) trivial)

theorem settles_fail (cause : Cause) : P.Settles d Q fun _ => fail cause :=
  settles_const (sound_fail cause) (sound_fail (Q := Q) cause)

theorem settles_failWith (cause : String → Cause) (v : Value) :
    P.Settles d Q fun _ => failWith cause v :=
  settles_const (sound_failWith cause v) (sound_failWith (Q := Q) cause v)

theorem settles_tooMany (v : Value) : P.Settles d Q fun _ => tooMany v :=
  settles_failWith _ v

theorem settles_missingArgument (h : P.crash .missingArgument) :
    P.Settles d Q fun _ => missingArgument :=
  settles_const (sound_missingArgument h) (sound_missingArgument (Q := Q) trivial)

/-! ## Sequencing -/

-- Effects leave the room for nesting as it is, so what comes after them settles as well.
theorem Reaches.room {i j : Interpreter} (hij : P.Reaches i j)
    (hdepth : i.maxDepth - i.depth ≤ d) : j.maxDepth - j.depth ≤ d := by
  rw [hij.keeps.maxDepth, hij.keeps.depth]
  exact hdepth

theorem Settles.after {x : Engine → Eval α} (hx : P.Settles d Q x) {i j : Interpreter}
    (hi : P.Admits i) (hidle : i.uses = []) (hdepth : i.maxDepth - i.depth ≤ d)
    (hij : P.Reaches i j) : Settled P x j :=
  hx.settled j (hij.admits hi) (hij.keeps.uses.trans hidle) (hij.room hdepth)

theorem Settles.firm_eq {x : Engine → Eval α} (hx : P.Settles d Q x) {n : Nat} {e : Engine}
    {i : Interpreter} {r : EStateM.Result Halt Interpreter α} (he : (Engine.ofFuel n).Agrees e)
    (hi : P.Admits i) (hdepth : i.maxDepth - i.depth ≤ d) (hr : x (.ofFuel n) i = r)
    (hrest : ¬ Stopped r) : x e i = r := by
  subst hr
  exact hx.firm n e i he hi hdepth hrest

theorem settles_bind {x : Engine → Eval α} {f : Engine → α → Eval β} (hx : P.Settles d Q x)
    (hf : ∀ a, Q a → P.Settles d R fun e => f e a) : P.Settles d R fun e => x e >>= f e := by
  refine ⟨fun n => sound_bind (hx.sound n) fun a ha => (hf a ha).sound n, ?_, ?_⟩
  · intro n e i he hi hdepth hrest
    have hend := hx.sound n i hi
    cases hr : x (.ofFuel n) i with
    | error h j =>
      rw [bind_of_error hr, stopped_error_iff] at hrest
      have hfirm := hx.firm_eq he hi hdepth hr (stopped_error_iff.not.mpr hrest)
      exact (bind_of_error hfirm).trans (bind_of_error hr).symm
    | ok a j =>
      rw [hr] at hend
      rw [bind_of_ok hr] at hrest ⊢
      rw [bind_of_ok (hx.firm_eq he hi hdepth hr (not_stopped_ok a j))]
      exact (hf a hend.2).firm n e j he (hend.1.admits hi) (hend.1.room hdepth) hrest
  · intro i hi hidle hdepth
    obtain ⟨r, n, hn, hr⟩ := hx.settled i hi hidle hdepth
    have hend := hx.sound n i hi
    rw [hn n (Nat.le_refl n)] at hend
    cases r with
    | error h j =>
      -- Nothing follows, so what the first part hands on is handed on by the whole.
      refine ⟨.error h j, n, fun m hm => bind_of_error (hn m hm), ?_⟩
      intro k hk
      cases hk
      exact (hr j rfl).handed (fun _ _ _ _ => bind_of_error) fun _ => rfl
    | ok a j =>
      refine ((hf a hend.2).after hi hidle hdepth hend.1).ahead n fun m e hm he => ?_
      exact bind_of_ok (hx.firm_eq he hi hdepth (hn m hm) (not_stopped_ok a j))

theorem Settles.mono {Q' : α → Prop} {x : Engine → Eval α} (hx : P.Settles d Q x)
    (h : ∀ a, Q a → Q' a) : P.Settles d Q' x :=
  ⟨fun n => (hx.sound n).mono h, hx.firm, hx.settled⟩

theorem settles_ite {c : Prop} [Decidable c] {x y : Engine → Eval α} (hx : c → P.Settles d Q x)
    (hy : ¬ c → P.Settles d Q y) : P.Settles d Q fun e => if c then x e else y e := by
  by_cases hc : c
  · simp only [if_pos hc]
    exact hx hc
  · simp only [if_neg hc]
    exact hy hc

/-- It does not matter that nothing can be done with an engine which has no fuel. -/
theorem settles_of_pos {x y : Engine → Eval α} (hexhaust : P.exhaust)
    (hzero : ∀ e, e.fuel = 0 → x e = outOfFuel) (hpos : ∀ e, e.fuel ≠ 0 → x e = y e)
    (hy : P.Settles d Q y) : P.Settles d Q x := by
  refine ⟨?_, ?_, ?_⟩
  · intro n
    cases n with
    | zero =>
      rw [hzero _ rfl]
      exact sound_outOfFuel hexhaust
    | succ n =>
      rw [hpos _ (Nat.succ_ne_zero n)]
      exact hy.sound (n + 1)
  · intro n e i he hi hdepth hrest
    cases n with
    | zero =>
      rw [hzero _ rfl] at hrest
      exact absurd (stopped_error_iff.mpr Halt.stops_outOfFuel) hrest
    | succ n =>
      have hfuel : e.fuel ≠ 0 := by
        rw [he.fuel]
        exact Nat.succ_ne_zero n
      have hsucc : (Engine.ofFuel (n + 1)).fuel ≠ 0 := Nat.succ_ne_zero n
      rw [hpos _ hsucc] at hrest ⊢
      rw [hpos e hfuel]
      exact hy.firm (n + 1) e i he hi hdepth hrest
  · intro i hi hidle hdepth
    refine (hy.settled i hi hidle hdepth).ahead 1 fun m e hm he => ?_
    have hfuel : e.fuel ≠ 0 := by
      rw [he.fuel]
      exact Nat.ne_of_gt hm
    rw [hpos e hfuel]

theorem settles_ask {q : Request} (hsound : ∀ n, P.Sound P.Allows ((Engine.ofFuel n).ask q))
    (hq : P.Settles d P.Allows q.program) : P.Settles d P.Allows fun e => e.ask q where
  sound := hsound
  firm _ _ i he _ _ := he.ask q i
  settled i hi hidle hdepth := (hq.settled i hi hidle hdepth).ask hidle

/-! ## Brackets -/

-- A bracket changes nothing but the frames and the depth of the state that it is left in.
theorem Settled.closing {x y : Engine → Eval α} {i j : Interpreter}
    {back : Interpreter → Interpreter} (hx : Settled P x j)
    (hy : ∀ e, y e i = Lockstep.closing back (x e j)) (hheap : ∀ k, (back k).heap = k.heap) :
    Settled P y i := by
  obtain ⟨r, n, hn, haway⟩ := hx
  refine ⟨Lockstep.closing back r, n, fun m hm => (hy _).trans (congrArg _ (hn m hm)), ?_⟩
  intro k hk
  cases r with
  | ok a l => cases hk
  | error h l =>
    cases hk
    refine (haway l rfl).handed (fun e h l _ hends => ?_) hheap
    rw [hy, hends]
    rfl

theorem firm_closing {x y : Engine → Eval α} {e e' : Engine} {i j : Interpreter}
    {back : Interpreter → Interpreter} (hy : ∀ e, y e i = Lockstep.closing back (x e j))
    (hx : ¬ Stopped (x e j) → x e' j = x e j) (hrest : ¬ Stopped (y e i)) : y e' i = y e i := by
  rw [hy] at hrest
  rw [hy, hy, hx]
  rintro ⟨h, k, hk, hstop⟩
  rw [hk] at hrest
  exact hrest ⟨h, back k, rfl, hstop⟩

theorem settles_inFrame {f : Record Value} (hf : P.AllowsFields f) {x : Engine → Eval α}
    (hx : P.Settles d Q x) : P.Settles d Q fun e => inFrame f (x e) := by
  have hclosing := fun i e => Lockstep.inFrame_eq_closing f (x e) i
  refine ⟨fun n => sound_inFrame hf (hx.sound n), ?_, ?_⟩
  · intro n e i he hi hdepth
    exact firm_closing (hclosing i) (hx.firm n e _ he (hi.scope hf) hdepth)
  · intro i hi hidle hdepth
    exact Settled.closing (hx.settled _ (hi.scope hf) hidle hdepth) (hclosing i) fun _ => rfl

-- With no level left the bracket is refused, so nothing is asked of the computation then.
theorem settles_descend {x : Engine → Eval α} (hsound : ∀ n, P.Sound Q (x (.ofFuel n)))
    (hx : ∀ k, k < d → P.Settles k Q x) : P.Settles d Q fun e => descend (x e) := by
  have hrefuse : ∀ i : Interpreter, ¬ i.depth < i.maxDepth →
      ∀ e, descend (x e) i = .error (.error { cause := .depthExceeded }) i :=
    fun i hdepth e => if_neg hdepth
  have hdeeper : ∀ i : Interpreter, P.Admits i → P.Admits { i with depth := i.depth + 1 } :=
    fun i hi => ⟨hi.globals, hi.frames, hi.heap, hi.idle⟩
  refine ⟨fun n => sound_descend (hsound n), ?_, ?_⟩
  · intro n e i he hi hdepth hrest
    by_cases hlt : i.depth < i.maxDepth
    · have hclosing := fun e => Lockstep.descend_eq_closing (x e) hlt
      have hdepth' : i.maxDepth - (i.depth + 1) ≤ d - 1 := by omega
      have hfirm := (hx (d - 1) (by omega)).firm n e _ he (hdeeper i hi) hdepth'
      exact firm_closing hclosing hfirm hrest
    · exact (hrefuse i hlt e).trans (hrefuse i hlt _).symm
  · intro i hi hidle hdepth
    by_cases hlt : i.depth < i.maxDepth
    · have hclosing := fun e => Lockstep.descend_eq_closing (x e) hlt
      have hdepth' : i.maxDepth - (i.depth + 1) ≤ d - 1 := by omega
      have hinside := (hx (d - 1) (by omega)).settled _ (hdeeper i hi) hidle hdepth'
      exact Settled.closing hinside hclosing fun _ => rfl
    · refine ⟨_, 0, fun m _ => hrefuse i hlt _, ?_⟩
      intro k hk
      cases hk

theorem settles_rescue {x : Engine → Eval α} {handler : Engine → Error → Eval α}
    (hx : P.Settles d Q x) (hh : ∀ e, P.Settles d Q fun n => handler n e) :
    P.Settles d Q fun e => rescue (x e) (handler e) := by
  refine ⟨fun n => sound_rescue (hx.sound n) fun e => (hh e).sound n, ?_, ?_⟩
  · intro n e i he hi hdepth hrest
    have hend := hx.sound n i hi
    cases hr : x (.ofFuel n) i with
    | ok a j =>
      have hsame := hx.firm_eq he hi hdepth hr (not_stopped_ok a j)
      simp only [rescue, hr, hsame]
    | error h j =>
      rw [hr] at hend
      rcases h.stops_or_error with hstop | ⟨err, rfl⟩
      · exact absurd ⟨h, j, rescue_of_stops hstop hr, hstop⟩ hrest
      · have hsame := hx.firm_eq he hi hdepth hr (not_stopped_error err j)
        rw [rescue_of_error hr] at hrest ⊢
        rw [rescue_of_error hsame]
        exact (hh err).firm n e j he (hend.1.admits hi) (hend.1.room hdepth) hrest
  · intro i hi hidle hdepth
    obtain ⟨r, n, hn, hr⟩ := hx.settled i hi hidle hdepth
    have hend := hx.sound n i hi
    rw [hn n (Nat.le_refl n)] at hend
    cases r with
    | ok a j =>
      refine ⟨.ok a j, n, fun m hm => ?_, ?_⟩
      · simp only [rescue, hn m hm]
      · intro k hk
        cases hk
    | error h j =>
      rcases h.stops_or_error with hstop | ⟨err, rfl⟩
      · refine ⟨.error h j, n, fun m hm => rescue_of_stops hstop (hn m hm), ?_⟩
        intro k hk
        cases hk
        exact (hr j rfl).handed (fun _ _ _ => rescue_of_stops) fun _ => rfl
      · refine ((hh err).after hi hidle hdepth hend.1).ahead n fun m e hm he => ?_
        exact rescue_of_error (hx.firm_eq he hi hdepth (hn m hm) (not_stopped_error err j))

end Policy

end Lisplet
