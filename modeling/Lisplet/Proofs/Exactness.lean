import Lisplet.Interpreter.Prelude
import Lisplet.Proofs.Binding

/-!
# Exact arithmetic

Sums, products, differences and quotients of integers are made step by step, from the first operand
to the last. The reference is arithmetic on the mathematical integers: the partial result after each
step is exact, and as long as all of them fit in a word the last one is the result. The first step
that cannot be made raises an error, even if a later one would lead back into the range.
-/

namespace Lisplet

open Eval Builtin

/-! ## Words and the integers they hold -/

namespace Integer

def Fits (n : Int) : Prop :=
  least ≤ n ∧ n ≤ greatest

instance (n : Int) : Decidable (Fits n) :=
  inferInstanceAs (Decidable (_ ∧ _))

variable {n : Int} {w a b : Int64}

theorem fits_toInt (w : Int64) : Fits w.toInt :=
  ⟨Int64.le_toInt w, Int.le_of_lt_add_one (Int64.toInt_lt w)⟩

theorem ofInt?_of_fits (h : Fits n) : ∃ w, ofInt? n = some w ∧ w.toInt = n := by
  have hw : ofInt? n = some (Int64.ofInt n) := if_pos h
  exact ⟨_, hw, toInt_of_ofInt? hw⟩

theorem ofInt?_of_not_fits (h : ¬ Fits n) : ofInt? n = none :=
  if_neg h

/-- There is one division whose quotient does not fit: the least integer by minus one. -/
theorem fits_tdiv_iff : Fits (a.toInt.tdiv b.toInt) ↔ ¬ (a.toInt = least ∧ b.toInt = -1) := by
  obtain ⟨hleast, hgreatest⟩ := fits_toInt a
  simp only [Fits, least, greatest] at *
  by_cases hb : b.toInt = -1
  · rw [hb, Int.tdiv_neg, Int.tdiv_one]
    omega
  · -- A divisor that is neither 1 nor -1 brings the dividend closer to zero.
    have habs : (a.toInt.tdiv b.toInt).natAbs = a.toInt.natAbs / b.toInt.natAbs := Int.natAbs_tdiv ..
    by_cases hone : b.toInt = 1
    · rw [hone, Int.tdiv_one]
      omega
    · have hhalf : a.toInt.natAbs / b.toInt.natAbs ≤ a.toInt.natAbs / 2 := by
        by_cases hzero : b.toInt = 0
        · rw [hzero, Int.natAbs_zero, Nat.div_zero]
          exact Nat.zero_le _
        · exact Nat.div_le_div_left (by omega) (by decide)
      omega

/-- A remainder lies between zero and the dividend. -/
theorem fits_tmod (a b : Int64) : Fits (a.toInt.tmod b.toInt) := by
  obtain ⟨hleast, hgreatest⟩ := fits_toInt a
  have habs : (a.toInt.tmod b.toInt).natAbs = a.toInt.natAbs % b.toInt.natAbs := Int.natAbs_tmod ..
  have hle : a.toInt.natAbs % b.toInt.natAbs ≤ a.toInt.natAbs := Nat.mod_le _ _
  simp only [Fits, least, greatest] at *
  rcases Int.le_total 0 a.toInt with hpos | hneg
  · have hsign := Int.tmod_nonneg b.toInt hpos
    omega
  · have hsign := Int.tmod_nonneg b.toInt (Int.neg_nonneg_of_nonpos hneg)
    rw [Int.neg_tmod] at hsign
    omega

end Integer

/-! ## Steps and partial results -/

inductive Reckoning where
  | sum
  | product
  | difference
  | quotient
  deriving DecidableEq

namespace Reckoning

def operation : Reckoning → Operation
  | .sum => .add
  | .product => .multiply
  | .difference => .subtract
  | .quotient => .divide

/-- One step on the mathematical integers. A quotient is truncated toward zero. -/
def exact : Reckoning → Int → Int → Int
  | .sum => (· + ·)
  | .product => (· * ·)
  | .difference => (· - ·)
  | .quotient => Int.tdiv

/-- What the partial results start from, and the operand of each step. -/
def steps? : Reckoning → List Int64 → Option (Int64 × List Int64)
  | .sum, ns => some (0, ns)
  | .product, ns => some (1, ns)
  | .difference, [n] => some (0, [n])
  | .difference, n :: ns | .quotient, n :: ns => some (n, ns)
  | .difference, [] | .quotient, [] => none

def partialResult (r : Reckoning) (start : Int64) (operands : List Int64) (k : Nat) : Int :=
  (operands.take k).foldl (fun p n => r.exact p n.toInt) start.toInt

/-- The step with the operand at `k` can be made: it divides by no zero, and what it comes to fits in
a word. -/
structure Goes (r : Reckoning) (start : Int64) (operands : List Int64) (k : Nat) : Prop where
  divisor : r = .quotient → operands[k]? ≠ some 0
  fits : Integer.Fits (r.partialResult start operands (k + 1))

variable {r : Reckoning} {p q n w : Int64} {ns operands : List Int64} {k : Nat}

theorem partialResult_zero (r : Reckoning) (p : Int64) (ns : List Int64) :
    r.partialResult p ns 0 = p.toInt :=
  rfl

/-- After the first step, the partial results are those of the operands that are left. -/
theorem partialResult_succ (h : q.toInt = r.exact p.toInt n.toInt) (ns : List Int64) (k : Nat) :
    r.partialResult p (n :: ns) (k + 1) = r.partialResult q ns k := by
  simp only [partialResult, List.take_succ_cons, List.foldl_cons, h]

theorem goes_zero_iff : r.Goes p (n :: ns) 0 ↔
    (r = .quotient → n ≠ 0) ∧ Integer.Fits (r.exact p.toInt n.toInt) := by
  constructor
  · rintro ⟨hdivisor, hfits⟩
    exact ⟨fun hr hn => hdivisor hr (by rw [hn]; rfl), hfits⟩
  · rintro ⟨hdivisor, hfits⟩
    exact ⟨fun hr hn => hdivisor hr (Option.some.inj hn), hfits⟩

theorem goes_succ_iff (h : q.toInt = r.exact p.toInt n.toInt) :
    r.Goes p (n :: ns) (k + 1) ↔ r.Goes q ns k := by
  constructor
  · rintro ⟨hdivisor, hfits⟩
    exact ⟨hdivisor, partialResult_succ h ns (k + 1) ▸ hfits⟩
  · rintro ⟨hdivisor, hfits⟩
    exact ⟨hdivisor, (partialResult_succ h ns (k + 1)).symm ▸ hfits⟩

/-! ## All steps together -/

/-- The last partial result, or why the first step that cannot be made is refused. -/
def outcome (r : Reckoning) : Int64 → List Int64 → Except Cause Int64
  | p, [] => .ok p
  | p, n :: ns =>
    if r = .quotient ∧ n = 0 then .error .divisionByZero
    else
      match Integer.ofInt? (r.exact p.toInt n.toInt) with
      | some q => outcome r q ns
      | none => .error (.integerOverflow p n)

theorem outcome_of_goes (hgoes : r.Goes p (n :: ns) 0) :
    ∃ q : Int64, q.toInt = r.exact p.toInt n.toInt ∧ r.outcome p (n :: ns) = r.outcome q ns := by
  obtain ⟨hdivisor, hfits⟩ := goes_zero_iff.mp hgoes
  obtain ⟨q, hq, hexact⟩ := Integer.ofInt?_of_fits hfits
  refine ⟨q, hexact, ?_⟩
  rw [outcome, if_neg fun h => hdivisor h.1 h.2, hq]

theorem outcome_of_not_goes (hgoes : ¬ r.Goes p (n :: ns) 0) :
    r.outcome p (n :: ns) =
      .error (if r = .quotient ∧ n = 0 then .divisionByZero else .integerOverflow p n) := by
  by_cases hzero : r = .quotient ∧ n = 0
  · rw [outcome, if_pos hzero, if_pos hzero]
  · have hfits : ¬ Integer.Fits (r.exact p.toInt n.toInt) := fun hfits =>
      hgoes (goes_zero_iff.mpr ⟨fun hr hn => hzero ⟨hr, hn⟩, hfits⟩)
    rw [outcome, if_neg hzero, if_neg hzero, Integer.ofInt?_of_not_fits hfits]

theorem outcome_eq_ok_iff : r.outcome p ns = .ok w ↔
    (∀ k < ns.length, r.Goes p ns k) ∧ w.toInt = r.partialResult p ns ns.length := by
  induction ns generalizing p with
  | nil =>
    rw [outcome, List.length_nil, partialResult_zero, Except.ok.injEq, eq_comm, ← Int64.toInt_inj]
    simp
  | cons n ns ih =>
    by_cases hgoes : r.Goes p (n :: ns) 0
    · obtain ⟨q, hexact, houtcome⟩ := outcome_of_goes hgoes
      rw [houtcome, ih, List.length_cons, partialResult_succ hexact]
      refine and_congr_left fun _ => ⟨fun h k hk => ?_, fun h k hk => ?_⟩
      · cases k with
        | zero => exact hgoes
        | succ k => exact (goes_succ_iff hexact).mpr (h k (by omega))
      · exact (goes_succ_iff hexact).mp (h (k + 1) (by omega))
    · rw [outcome_of_not_goes hgoes]
      simp only [reduceCtorEq, false_iff, not_and]
      intro h
      exact absurd (h 0 (by simp)) hgoes

theorem outcome_of_first (hn : ns[k]? = some n) (hbefore : ∀ l < k, r.Goes p ns l)
    (hgoes : ¬ r.Goes p ns k) :
    ∃ q : Int64, q.toInt = r.partialResult p ns k ∧ r.outcome p ns =
      .error (if r = .quotient ∧ n = 0 then .divisionByZero else .integerOverflow q n) := by
  induction ns generalizing p k with
  | nil => simp at hn
  | cons first ns ih =>
    cases k with
    | zero =>
      obtain rfl : first = n := Option.some.inj hn
      exact ⟨p, rfl, outcome_of_not_goes hgoes⟩
    | succ k =>
      obtain ⟨q, hexact, houtcome⟩ := outcome_of_goes (hbefore 0 (by omega))
      rw [houtcome, partialResult_succ hexact]
      refine ih hn (fun l hl => ?_) fun hk => hgoes ((goes_succ_iff hexact).mpr hk)
      exact (goes_succ_iff hexact).mp (hbefore (l + 1) (by omega))

/-! ## What the operations do -/

def settle {α : Type} (f : Int64 → α) (i : Interpreter) :
    Except Cause Int64 → EStateM.Result Halt Interpreter α
  | .ok w => .ok (f w) i
  | .error cause => .error (.error { cause }) i

variable {i : Interpreter}

theorem fold_ints {op : Arithmetic} (hr : r ≠ .quotient)
    (hop : ∀ a b, op.onInts a b = Integer.ofInt? (r.exact a.toInt b.toInt)) :
    fold op (.int p) (ns.map .int) i = settle .int i (r.outcome p ns) := by
  induction ns generalizing p with
  | nil => rfl
  | cons n ns ih =>
    have hstep : op.combine (.int p) (.int n) =
        match Integer.ofInt? (r.exact p.toInt n.toInt) with
        | some q => .ok (.int q)
        | none => .error { cause := .integerOverflow p n } := by
      cases hq : Integer.ofInt? (r.exact p.toInt n.toInt) <;>
        simp only [Arithmetic.combine, hop, hq]
    change (Eval.ofExcept (op.combine (.int p) (.int n)) >>= fun total =>
      fold op total (ns.map .int)) i = _
    rw [hstep, outcome, if_neg fun h => hr h.1]
    cases Integer.ofInt? (r.exact p.toInt n.toInt) with
    | some q => exact ih
    | none => rfl

theorem quotient_ints :
    Builtin.quotient (.int p) (ns.map .int) i = settle .int i (outcome .quotient p ns) := by
  induction ns generalizing p with
  | nil => rfl
  | cons n ns ih =>
    change (if n == 0 then fail .divisionByZero
      else Eval.ofExcept (Arithmetic.div.combine (.int p) (.int n)) >>=
        fun total => Builtin.quotient total (ns.map .int)) i = _
    by_cases hzero : n = 0
    · rw [hzero]
      rfl
    · have hdiv : Arithmetic.div.onInts p n =
          Integer.ofInt? (Reckoning.quotient.exact p.toInt n.toInt) := if_neg hzero
      rw [if_neg (by simpa using hzero), outcome, if_neg fun h => hzero h.2, Arithmetic.combine, hdiv]
      cases Integer.ofInt? (Reckoning.quotient.exact p.toInt n.toInt) with
      | some q => exact ih
      | none => rfl

/-- The operation comes to what its steps come to. -/
theorem run_eq (e : Engine) (h : r.steps? ns = some (p, operands)) (i : Interpreter) :
    r.operation.run e (ns.map .int) i = settle .int i (r.outcome p operands) := by
  have hvalue : ∀ {x : Eval Number} {o : Except Cause Int64}, x i = settle .int i o →
      (x >>= fun total => pure total.toValue) i = settle .int i o := by
    intro x o hx
    change EStateM.bind x _ i = _
    unfold EStateM.bind
    rw [hx]
    cases o <;> rfl
  cases r with
  | sum =>
    cases h
    exact hvalue (fold_ints nofun fun _ _ => rfl)
  | product =>
    cases h
    exact hvalue (fold_ints nofun fun _ _ => rfl)
  | difference =>
    match ns with
    | [] => cases h
    | [n] =>
      cases h
      have hfold : fold .sub (.int 0) ([n].map .int) i = settle .int i (outcome .difference 0 [n]) :=
        fold_ints nofun fun _ _ => rfl
      refine hvalue (Eq.trans ?_ hfold)
      change Eval.ofExcept (Arithmetic.sub.combine (.int 0) (.int n)) i =
        (Eval.ofExcept (Arithmetic.sub.combine (.int 0) (.int n)) >>= pure) i
      rw [bind_pure]
    | n :: m :: ns =>
      cases h
      exact hvalue (fold_ints nofun fun _ _ => rfl)
  | quotient =>
    cases ns with
    | nil => cases h
    | cons n ns =>
      cases h
      exact hvalue quotient_ints

theorem run_eq_ok_iff (e : Engine) (h : r.steps? ns = some (p, operands)) (i : Interpreter) :
    r.operation.run e (ns.map .int) i = .ok (.int w) i ↔
      (∀ k < operands.length, r.Goes p operands k) ∧
        w.toInt = r.partialResult p operands operands.length := by
  rw [run_eq e h, ← outcome_eq_ok_iff]
  cases r.outcome p operands with
  | ok q => simp [settle]
  | error cause => simp [settle]

/-- The first step that cannot be made is the error. -/
theorem run_of_first (e : Engine) (h : r.steps? ns = some (p, operands)) (i : Interpreter)
    (hn : operands[k]? = some n) (hbefore : ∀ l < k, r.Goes p operands l)
    (hgoes : ¬ r.Goes p operands k) :
    ∃ (q : Int64) (err : Error), q.toInt = r.partialResult p operands k ∧
      r.operation.run e (ns.map .int) i = .error (.error err) i ∧ err.trail = [] ∧
      err.message = if r = .quotient ∧ n = 0 then "division by zero"
        else "integer overflow [" ++ Integer.text q ++ " " ++ Integer.text n ++ "]" := by
  obtain ⟨q, hq, houtcome⟩ := outcome_of_first hn hbefore hgoes
  refine ⟨q, _, hq, by rw [run_eq e h, houtcome]; rfl, rfl, ?_⟩
  by_cases hzero : r = .quotient ∧ n = 0
  · rw [if_pos hzero, if_pos hzero]
    rfl
  · rw [if_neg hzero, if_neg hzero]
    rfl

end Reckoning

/-! ## Remainders -/

section

variable {a b q m : Int64} {i : Interpreter}

theorem rem?_of_fits (hb : b ≠ 0) (h : ¬ (a.toInt = Integer.least ∧ b = -1)) :
    ∃ m : Int64, Integer.rem? a b = some m ∧ m.toInt = a.toInt.tmod b.toInt := by
  have hminus : b.toInt = -1 → b = -1 := fun hb => Int64.toInt_inj.mp hb
  have hfits : Integer.Fits (a.toInt.tdiv b.toInt) :=
    Integer.fits_tdiv_iff.mpr fun hlast => h ⟨hlast.1, hminus hlast.2⟩
  obtain ⟨q, hq, -⟩ := Integer.ofInt?_of_fits hfits
  obtain ⟨m, hm, hexact⟩ := Integer.ofInt?_of_fits (Integer.fits_tmod a b)
  refine ⟨m, ?_, hexact⟩
  rw [Integer.rem?, Integer.div?, if_neg hb, hq, Option.map_some, ← hexact, Int64.ofInt_toInt]

theorem rem?_of_least (ha : a.toInt = Integer.least) (hb : b = -1) : Integer.rem? a b = none := by
  subst hb
  have hfits : ¬ Integer.Fits (a.toInt.tdiv (-1 : Int64).toInt) := fun hfits =>
    Integer.fits_tdiv_iff.mp hfits ⟨ha, rfl⟩
  rw [Integer.rem?, Integer.div?, if_neg (by decide), Integer.ofInt?_of_not_fits hfits,
    Option.map_none]

/-- Quotient and remainder make up the dividend; the remainder is smaller than the divisor and has
the sign of the dividend. -/
theorem tdiv_tmod_laws (a b : Int) (hb : b ≠ 0) :
    a.tdiv b * b + a.tmod b = a ∧ (a.tmod b).natAbs < b.natAbs ∧
      (a.tmod b = 0 ∨ (a.tmod b).sign = a.sign) := by
  refine ⟨Int.tdiv_mul_add_tmod a b, ?_, ?_⟩
  · rw [Int.natAbs_tmod]
    exact Nat.mod_lt _ (Int.natAbs_pos.mpr hb)
  · by_cases hzero : a.tmod b = 0
    · exact .inl hzero
    · right
      rcases Int.lt_trichotomy a 0 with hneg | rfl | hpos
      · have hsign := Int.tmod_nonneg b (Int.neg_nonneg_of_nonpos (Int.le_of_lt hneg))
        rw [Int.neg_tmod] at hsign
        rw [Int.sign_eq_neg_one_of_neg hneg, Int.sign_eq_neg_one_of_neg (by omega)]
      · rw [Int.zero_tmod]
      · have hsign := Int.tmod_nonneg b (Int.le_of_lt hpos)
        rw [Int.sign_eq_one_of_pos hpos, Int.sign_eq_one_of_pos (by omega)]

theorem run_modulo_of_fits (e : Engine) (hb : b ≠ 0) (h : ¬ (a.toInt = Integer.least ∧ b = -1))
    (i : Interpreter) : ∃ m : Int64,
      Operation.modulo.run e [.int a, .int b] i = .ok (.int m) i ∧
        m.toInt = a.toInt.tmod b.toInt := by
  obtain ⟨m, hm, hexact⟩ := rem?_of_fits hb h
  refine ⟨m, ?_, hexact⟩
  simp only [Operation.run, Builtin.modulo, hb, if_false, hm]
  rfl

theorem run_modulo_of_least (e : Engine) (ha : a.toInt = Integer.least) (hb : b = -1)
    (i : Interpreter) : Operation.modulo.run e [.int a, .int b] i =
      .error (.error { cause := .integerOverflow a b }) i := by
  have hzero : b ≠ 0 := by
    rw [hb]
    decide
  simp only [Operation.run, Builtin.modulo, hzero, if_false, rem?_of_least ha hb]
  rfl

/-- A quotient that is found is exact, and its divisor is not zero. -/
theorem run_divide_pair {e : Engine}
    (h : Operation.divide.run e [.int a, .int b] i = .ok (.int q) i) :
    b ≠ 0 ∧ q.toInt = a.toInt.tdiv b.toInt := by
  have hsteps : Reckoning.quotient.steps? [a, b] = some (a, [b]) := rfl
  obtain ⟨hgoes, hq⟩ := (Reckoning.run_eq_ok_iff e hsteps i).mp h
  obtain ⟨hdivisor, -⟩ := Reckoning.goes_zero_iff.mp (hgoes 0 Nat.zero_lt_one)
  exact ⟨hdivisor rfl, hq⟩

end

/-! ## Calls with integers -/

/-- Arguments that evaluate to themselves and are accepted as they are, are bound to themselves. -/
theorem binds_self {evaluate : Value → Eval Value} {i : Interpreter} {pairs : List (Kind × Value)}
    (h : ∀ pair ∈ pairs, pair.1.isUnevaluated = false ∧ evaluate pair.2 i = .ok pair.2 i ∧
      pair.2.isSignal = false ∧ pair.1.accept? pair.2 = some pair.2) :
    Binds evaluate pairs i (pairs.map Prod.snd) i := by
  induction pairs with
  | nil => exact .nil i
  | cons pair rest ih =>
    obtain ⟨hkind, heval, hsignal, haccept⟩ := h pair List.mem_cons_self
    exact .evaluated hkind heval hsignal haccept (ih fun q hq => h q (List.mem_cons_of_mem _ hq))

theorem mem_kindsFor {contract : List Kind} {n : Nat} {kind : Kind} (h : kind ∈ kindsFor contract n) :
    kind ∈ contract ∨ kind = .any := by
  rcases List.mem_append.mp h with hfixed | hfurther
  · exact .inl (mem_of_mem_fixedKinds hfixed)
  · rw [(List.mem_replicate.mp hfurther).2]
    exact restKind_mem contract

theorem call_ints {contract : List Kind} {op : Operation} {ns : List Int64}
    (hkinds : ∀ kind ∈ contract, kind ∈ [Kind.integer, Kind.number, Kind.rest])
    (hadmits : Admits contract ns.length) (fuel id : Nat) (name : String) (i : Interpreter) :
    (Engine.ofFuel (fuel + 1)).call (.checked id name contract op) (ns.map .int) i =
      op.run (.ofFuel (fuel + 1)) (ns.map .int) i := by
  have hlength : Admits contract (ns.map Value.int).length := by rwa [List.length_map]
  have hself : Binds (Engine.ofFuel (fuel + 1)).evaluate (kinded contract (ns.map .int)) i
      ((kinded contract (ns.map .int)).map Prod.snd) i := by
    refine binds_self fun pair hpair => ?_
    obtain ⟨kind, v⟩ := pair
    obtain ⟨hkind, hv⟩ := List.of_mem_zip hpair
    obtain ⟨n, -, rfl⟩ := List.mem_map.mp hv
    rcases mem_kindsFor hkind with hmem | rfl
    · have haccepts := hkinds kind hmem
      simp only [List.mem_cons, List.not_mem_nil, or_false] at haccepts
      rcases haccepts with rfl | rfl | rfl <;> exact ⟨rfl, rfl, rfl, rfl⟩
    · exact ⟨rfl, rfl, rfl, rfl⟩
  have hargs : (kinded contract (ns.map .int)).map Prod.snd = ns.map .int := by
    have henough := length_kinded hlength
    refine List.map_snd_zip ?_
    rw [kinded, List.length_zip] at henough
    omega
  rw [hargs] at hself
  exact call_of_binds hlength hself

/-- Arithmetic on integers is exact or an error. A sum, product, difference or quotient is the last of
the exact partial results if all steps can be made, and only then. If there is a step that cannot be
made, the first such step is the error: a division by zero, or else an overflow of the last partial
result that fits with the operand of that step. The remainder is that of truncating division, with
two exceptions that are errors, and it goes with the quotient. Nothing else of the state changes. Of
the primitives behind which these operations stand, each is called with as many integers as its
contract admits and runs its operation on them. -/
theorem integer_arithmetic_is_exact (e : Engine) (i : Interpreter) :
    (∀ (r : Reckoning) (ns operands : List Int64) (p : Int64), r.steps? ns = some (p, operands) →
      (∀ w, r.operation.run e (ns.map .int) i = .ok (.int w) i ↔
        (∀ k < operands.length, r.Goes p operands k) ∧
          w.toInt = r.partialResult p operands operands.length) ∧
      ∀ k n, operands[k]? = some n → (∀ l < k, r.Goes p operands l) → ¬ r.Goes p operands k →
        ∃ (q : Int64) (err : Error), q.toInt = r.partialResult p operands k ∧
          r.operation.run e (ns.map .int) i = .error (.error err) i ∧ err.trail = [] ∧
          err.message = if r = .quotient ∧ n = 0 then "division by zero"
            else "integer overflow [" ++ Integer.text q ++ " " ++ Integer.text n ++ "]") ∧
    (∀ a b : Int64,
      (b ≠ 0 → ¬ (a.toInt = Integer.least ∧ b = -1) → ∃ m : Int64,
        Operation.modulo.run e [.int a, .int b] i = .ok (.int m) i ∧
          m.toInt = a.toInt.tmod b.toInt) ∧
      (b = 0 → ∃ err : Error, Operation.modulo.run e [.int a, .int b] i = .error (.error err) i ∧
        err.trail = [] ∧ err.message = "division by zero") ∧
      (a.toInt = Integer.least ∧ b = -1 → ∃ err : Error,
        Operation.modulo.run e [.int a, .int b] i = .error (.error err) i ∧ err.trail = [] ∧
        err.message = "integer overflow [" ++ Integer.text a ++ " " ++ Integer.text b ++ "]") ∧
      ∀ q m : Int64, Operation.divide.run e [.int a, .int b] i = .ok (.int q) i →
        Operation.modulo.run e [.int a, .int b] i = .ok (.int m) i →
        q.toInt * b.toInt + m.toInt = a.toInt ∧ m.toInt.natAbs < b.toInt.natAbs ∧
          (m = 0 ∨ m.toInt.sign = a.toInt.sign)) ∧
    ∀ d ∈ Prelude.definitions, ∀ contract, d.contract = some contract →
      d.op ∈ [Operation.add, .multiply, .subtract, .divide, .modulo] →
      ∀ (ns : List Int64) (fuel id : Nat), Admits contract ns.length →
        (Engine.ofFuel (fuel + 1)).call (.checked id d.name contract d.op) (ns.map .int) i =
          d.op.run (.ofFuel (fuel + 1)) (ns.map .int) i := by
  refine ⟨?_, ?_, ?_⟩
  · intro r ns operands p h
    refine ⟨fun w => Reckoning.run_eq_ok_iff e h i, ?_⟩
    intro k n hn hbefore hgoes
    exact Reckoning.run_of_first e h i hn hbefore hgoes
  · intro a b
    refine ⟨fun hb h => run_modulo_of_fits e hb h i, ?_, ?_, ?_⟩
    · rintro rfl
      exact ⟨{ cause := .divisionByZero }, rfl, rfl, rfl⟩
    · rintro ⟨ha, hb⟩
      exact ⟨_, run_modulo_of_least e ha hb i, rfl, rfl⟩
    · intro q m hq hm
      obtain ⟨hb, hquotient⟩ := run_divide_pair hq
      have hremainder : m.toInt = a.toInt.tmod b.toInt := by
        by_cases hleast : a.toInt = Integer.least ∧ b = -1
        -- This pair has no remainder, but one was given.
        · cases (run_modulo_of_least e hleast.1 hleast.2 i).symm.trans hm
        · obtain ⟨m', hm', hexact⟩ := run_modulo_of_fits e hb hleast i
          cases hm'.symm.trans hm
          exact hexact
      have hzero : b.toInt ≠ 0 := fun h => hb (Int64.toInt_inj.mp h)
      obtain ⟨hsum, hlt, hsign⟩ := tdiv_tmod_laws a.toInt b.toInt hzero
      rw [hquotient, hremainder]
      refine ⟨hsum, hlt, hsign.imp (fun h => Int64.toInt_inj.mp ?_) id⟩
      rw [hremainder, h]
      rfl
  · intro d hd contract hcontract hop ns fuel id hadmits
    have hkinds : ∀ d ∈ Prelude.definitions,
        d.op ∈ [Operation.add, .multiply, .subtract, .divide, .modulo] →
        ∀ kind ∈ d.contract.getD [], kind ∈ [Kind.integer, Kind.number, Kind.rest] := by
      decide
    refine call_ints (fun kind hkind => hkinds d hd hop kind ?_) hadmits fuel id d.name i
    rwa [hcontract]

-- The sum of all three operands would fit, but the sum of the first two does not.
theorem integer_arithmetic_is_exact_overflow :
    ∃ err : Error, Operation.add.run (.ofFuel 0)
        [.int 9223372036854775807, .int 1, .int (-1)] { maxDepth := 9 } =
      .error (.error err) { maxDepth := 9 } ∧
      err.message = "integer overflow [9223372036854775807 1]" := by
  obtain ⟨hreckoning, -⟩ := integer_arithmetic_is_exact (.ofFuel 0) { maxDepth := 9 }
  obtain ⟨-, hfirst⟩ :=
    hreckoning .sum [9223372036854775807, 1, -1] [9223372036854775807, 1, -1] 0 rfl
  have hgoes : ∀ l < 1, Reckoning.sum.Goes 0 [9223372036854775807, 1, -1] l := by
    intro l hl
    obtain rfl : l = 0 := by omega
    exact ⟨nofun, by decide⟩
  obtain ⟨q, err, hq, hrun, -, hmessage⟩ := hfirst 1 1 rfl hgoes fun hone =>
    absurd hone.fits (by decide)
  obtain rfl : q = 9223372036854775807 := Int64.toInt_inj.mp hq
  refine ⟨err, hrun, hmessage.trans ?_⟩
  decide

end Lisplet
