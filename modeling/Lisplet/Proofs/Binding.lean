import Mathlib.Data.List.Infix
import Lisplet.Proofs.Reachable
import Lisplet.Proofs.Signals

/-!
# Arguments under a contract

A checked primitive takes its arguments by a contract. Their number is looked at first. If it is
right the arguments are taken one after the other, each in the state that the one before it has left:
one that is asked for as it is written is passed on, any other is evaluated, once, and must come to a
value that its kind accepts. The first argument that does not stops the call where it is.

`Binds` is a run through arguments of which none stops the call, `Stops` the ways in which one does.
-/

namespace Lisplet

open Eval

/-! ## Kinds and numbers of arguments -/

/-- The kind of each of `n` arguments: the fixed kinds, then the one for all further arguments. -/
def kindsFor (contract : List Kind) (n : Nat) : List Kind :=
  fixedKinds contract ++
    List.replicate (n - (fixedKinds contract).length) ((restKind? contract).getD .any)

def kinded (contract : List Kind) (args : List Value) : List (Kind × Value) :=
  (kindsFor contract args.length).zip args

/-- The contract has a place for each of `n` arguments, and needs no more. -/
structure Admits (contract : List Kind) (n : Nat) : Prop where
  enough : (fixedKinds contract).length ≤ n
  places : restKind? contract = none → n ≤ (fixedKinds contract).length

variable {evaluate : Value → Eval Value} {further kind : Kind} {kinds contract : List Kind}
  {name : String} {arg s u v : Value} {more args vs : List Value} {i j k : Interpreter}

theorem mem_of_mem_fixedKinds (h : kind ∈ fixedKinds contract) : kind ∈ contract := by
  unfold fixedKinds at h
  split at h
  · exact List.mem_of_mem_dropLast h
  · exact h

theorem restKind_mem (contract : List Kind) :
    (restKind? contract).getD .any ∈ contract ∨ (restKind? contract).getD .any = .any := by
  cases hrest : restKind? contract with
  | none => exact .inr rfl
  | some kind =>
    obtain ⟨hlast, -⟩ := Option.filter_eq_some_iff.mp hrest
    exact .inl (List.mem_of_getLast? hlast)

-- The arguments with their kinds, as the binding goes through them.
theorem zip_kinds_cons (further : Kind) (kinds : List Kind) (arg : Value) (more : List Value) :
    (kinds ++ List.replicate ((arg :: more).length - kinds.length) further).zip (arg :: more) =
      (kinds.headD further, arg) ::
        (kinds.tail ++ List.replicate (more.length - kinds.tail.length) further).zip more := by
  cases kinds with
  | nil => simp [List.replicate_succ]
  | cons kind kinds => simp

theorem length_kinded (h : Admits contract args.length) :
    (kinded contract args).length = args.length := by
  have henough := h.enough
  simp only [kinded, kindsFor, List.length_zip, List.length_append, List.length_replicate]
  omega

/-! ## Going through arguments -/

/-- Arguments taken one after the other, from a first state to a last one, with what each of them is
bound to: those that are asked for unevaluated to themselves, the others to what their kind makes of
their value. -/
inductive Binds (evaluate : Value → Eval Value) :
    List (Kind × Value) → Interpreter → List Value → Interpreter → Prop
  | nil (i : Interpreter) : Binds evaluate [] i [] i
  | unevaluated {kind : Kind} {arg : Value} {rest : List (Kind × Value)} {vs : List Value}
      {i j : Interpreter} : kind.isUnevaluated = true → Binds evaluate rest i vs j →
      Binds evaluate ((kind, arg) :: rest) i (arg :: vs) j
  | evaluated {kind : Kind} {arg u v : Value} {rest : List (Kind × Value)} {vs : List Value}
      {i j k : Interpreter} : kind.isUnevaluated = false → evaluate arg i = .ok u j →
      u.isSignal = false → kind.accept? u = some v → Binds evaluate rest j vs k →
      Binds evaluate ((kind, arg) :: rest) i (v :: vs) k

/-- An argument that stops the call, with the result of the call: its evaluation fails, or comes to a
signal, which travels on unless it is a label, or to a value that its kind does not accept. -/
inductive Stops (evaluate : Value → Eval Value) (kind : Kind) (arg : Value) (i : Interpreter) :
    EStateM.Result Halt Interpreter Value → Prop
  | failed {h : Halt} {j : Interpreter} : kind.isUnevaluated = false →
      evaluate arg i = .error h j → Stops evaluate kind arg i (.error h j)
  | signal {s : Value} {j : Interpreter} : kind.isUnevaluated = false →
      evaluate arg i = .ok s j → s.isSignal = true → (∀ name, s ≠ .label name) →
      Stops evaluate kind arg i (.ok s j)
  | label {name : String} {j : Interpreter} : kind.isUnevaluated = false →
      evaluate arg i = .ok (.label name) j →
      Stops evaluate kind arg i (.error (.error { cause := .improperLabels }) j)
  | mismatch {u : Value} {j : Interpreter} : kind.isUnevaluated = false →
      evaluate arg i = .ok u j → u.isSignal = false → kind.accept? u = none →
      Stops evaluate kind arg i
        (.error (.error { cause := .typeMismatch kind (j.heap.text u) }) j)

theorem Binds.length_eq {pairs : List (Kind × Value)} (h : Binds evaluate pairs i vs j) :
    vs.length = pairs.length := by
  induction h with
  | nil => rfl
  | unevaluated _ _ ih => rw [List.length_cons, List.length_cons, ih]
  | evaluated _ _ _ _ _ ih => rw [List.length_cons, List.length_cons, ih]

/-! ## No cell in use -/

/-- An engine whose evaluations end with no cell in use if they begin so. -/
def Engine.Idles (e : Engine) : Prop :=
  ∀ (v : Value) (i : Interpreter), i.uses = [] → (i.run (e.evaluate v)).2.uses = []

theorem Engine.idles_ofFuel (fuel : Nat) : (Engine.ofFuel fuel).Idles := by
  intro v i hidle
  exact (keeps_evaluate fuel v i).uses.trans hidle

theorem Engine.Idles.of_ok {e : Engine} (he : e.Idles) (hidle : i.uses = [])
    (h : e.evaluate arg i = .ok v j) : j.uses = [] := by
  have huses := he arg i hidle
  rw [Interpreter.run, h] at huses
  exact huses

/-! ## Binding and its parts -/

def stoppedWith : EStateM.Result Halt Interpreter Value → EStateM.Result Halt Interpreter Bound
  | .ok s j => .ok (.signal s) j
  | .error h j => .error h j

-- Nothing is added to what has been stopped.
theorem cons_of_stoppedWith {x : Eval Bound} {r : EStateM.Result Halt Interpreter Value}
    (h : x i = stoppedWith r) (v : Value) :
    (x >>= fun bound => pure (bound.cons v)) i = stoppedWith r := by
  change EStateM.bind x _ i = _
  unfold EStateM.bind
  rw [h]
  cases r <;> rfl

theorem bindArgs_unevaluated (hkind : (kinds.headD further).isUnevaluated = true) :
    bindArgs evaluate further kinds (arg :: more) i =
      (bindArgs evaluate further kinds.tail more >>= fun bound => pure (bound.cons arg)) i := by
  rw [bindArgs_cons]
  dsimp only
  rw [if_pos hkind]

theorem bindArgs_of_stops {r : EStateM.Result Halt Interpreter Value}
    (h : Stops evaluate (kinds.headD further) arg i r)
    (hidle : ∀ u j, evaluate arg i = .ok u j → j.uses = []) :
    bindArgs evaluate further kinds (arg :: more) i = stoppedWith r := by
  cases h with
  | @failed h j hkind heval =>
    rw [bindArgs_cons]
    dsimp only
    rw [if_neg (Bool.eq_false_iff.mp hkind)]
    change EStateM.bind (evaluate arg) _ i = _
    simp only [EStateM.bind, heval, stoppedWith]
  | @signal s j hkind heval hsignal hlabel =>
    rw [bindArgs_of_signal hkind heval hsignal]
    cases s with
    | label name => exact absurd rfl (hlabel name)
    | _ => rfl
  | label hkind heval => exact bindArgs_of_signal hkind heval rfl
  | @mismatch u j hkind heval hsignal haccept =>
    have hfail : accept (kinds.headD further) u j =
        .error (.error { cause := .typeMismatch (kinds.headD further) (j.heap.text u) }) j := by
      unfold accept
      rw [haccept]
      exact failWith_of_idle (hidle u j heval) _ u
    rw [bindArgs_cons]
    dsimp only
    rw [if_neg (Bool.eq_false_iff.mp hkind)]
    refine (bind_of_ok heval).trans ?_
    rw [if_neg (Bool.eq_false_iff.mp hsignal)]
    change EStateM.bind (accept (kinds.headD further) u) _ j = _
    simp only [EStateM.bind, hfail, stoppedWith]

-- By induction on the arguments, which the binding goes through as they are paired with their kinds.
theorem bindArgs_of_binds
    (h : Binds evaluate ((kinds ++ List.replicate (args.length - kinds.length) further).zip args)
      i vs j) :
    bindArgs evaluate further kinds args i = .ok (.args vs) j := by
  induction args generalizing kinds i vs with
  | nil =>
    rw [List.zip_nil_right] at h
    cases h
    rfl
  | cons arg more ih =>
    rw [zip_kinds_cons] at h
    cases h with
    | unevaluated hkind hrest =>
      rw [bindArgs_unevaluated hkind]
      exact bind_of_ok (ih hrest)
    | evaluated hkind heval hsignal haccept hrest =>
      rw [bindArgs_of_accept hkind heval hsignal haccept]
      exact bind_of_ok (ih hrest)

theorem bindArgs_of_stopped {e : Engine} (he : e.Idles) (hidle : i.uses = [])
    {before after : List (Kind × Value)} {r : EStateM.Result Halt Interpreter Value}
    (hpairs : (kinds ++ List.replicate (args.length - kinds.length) further).zip args =
      before ++ (kind, arg) :: after)
    (hbefore : Binds e.evaluate before i vs j) (hstops : Stops e.evaluate kind arg j r) :
    bindArgs e.evaluate further kinds args i = stoppedWith r := by
  induction args generalizing kinds before i vs with
  | nil =>
    rw [List.zip_nil_right] at hpairs
    cases before <;> cases hpairs
  | cons first more ih =>
    rw [zip_kinds_cons] at hpairs
    cases hbefore with
    | nil =>
      cases hpairs
      exact bindArgs_of_stops hstops fun u j heval => he.of_ok hidle heval
    | unevaluated hkind hrest =>
      obtain ⟨hfirst, hmore⟩ := List.cons.inj hpairs
      cases hfirst
      rw [bindArgs_unevaluated hkind]
      exact cons_of_stoppedWith (ih hidle hmore hrest) _
    | evaluated hkind heval hsignal haccept hrest =>
      obtain ⟨hfirst, hmore⟩ := List.cons.inj hpairs
      cases hfirst
      rw [bindArgs_of_accept hkind heval hsignal haccept]
      exact cons_of_stoppedWith (ih (he.of_ok hidle heval) hmore hrest) _

/-- Arguments are all bound, or there is a first one that stops the call. -/
theorem binds_or_stops (evaluate : Value → Eval Value) (pairs : List (Kind × Value))
    (i : Interpreter) :
    (∃ vs j, Binds evaluate pairs i vs j) ∨
      ∃ before kind arg after vs j r, pairs = before ++ (kind, arg) :: after ∧
        Binds evaluate before i vs j ∧ Stops evaluate kind arg j r := by
  induction pairs generalizing i with
  | nil => exact .inl ⟨[], i, .nil i⟩
  | cons pair rest ih =>
    obtain ⟨kind, arg⟩ := pair
    have hstop : ∀ {r}, Stops evaluate kind arg i r →
        ∃ before kind' arg' after vs j r, (kind, arg) :: rest = before ++ (kind', arg') :: after ∧
          Binds evaluate before i vs j ∧ Stops evaluate kind' arg' j r := by
      intro r hr
      exact ⟨[], kind, arg, rest, [], i, r, rfl, .nil i, hr⟩
    cases hkind : kind.isUnevaluated with
    | true =>
      rcases ih i with ⟨vs, j, hrest⟩ | ⟨before, kind', arg', after, vs, j, r, rfl, hbefore, hr⟩
      · exact .inl ⟨arg :: vs, j, .unevaluated hkind hrest⟩
      · exact .inr ⟨(kind, arg) :: before, kind', arg', after, arg :: vs, j, r, rfl,
          .unevaluated hkind hbefore, hr⟩
    | false =>
      cases heval : evaluate arg i with
      | error h j => exact .inr (hstop (.failed hkind heval))
      | ok u j =>
        cases hsignal : u.isSignal with
        | true =>
          cases u with
          | label name => exact .inr (hstop (.label hkind heval))
          | _ => exact .inr (hstop (.signal hkind heval hsignal nofun))
        | false =>
          cases haccept : kind.accept? u with
          | none => exact .inr (hstop (.mismatch hkind heval hsignal haccept))
          | some v =>
            rcases ih j with ⟨vs, k, hrest⟩ | ⟨before, kind', arg', after, vs, k, r, rfl, hbefore, hr⟩
            · exact .inl ⟨v :: vs, k, .evaluated hkind heval hsignal haccept hrest⟩
            · exact .inr ⟨(kind, arg) :: before, kind', arg', after, v :: vs, k, r, rfl,
                .evaluated hkind heval hsignal haccept hbefore, hr⟩

/-! ## The number of arguments -/

theorem bindContract_of_few (h : args.length < (fixedKinds contract).length) :
    bindContract evaluate name contract args = fail (.tooFewArguments name) := by
  unfold bindContract
  dsimp only
  rw [if_pos h]

theorem bindContract_of_many (hrest : restKind? contract = none)
    (hmany : (fixedKinds contract).length < args.length) :
    bindContract evaluate name contract args = tooMany args[(fixedKinds contract).length] := by
  unfold bindContract
  dsimp only
  rw [if_neg (by omega), hrest, List.drop_eq_getElem_cons hmany]

theorem bindContract_of_admits (h : Admits contract args.length) :
    bindContract evaluate name contract args =
      bindArgs evaluate ((restKind? contract).getD .any) (fixedKinds contract) args := by
  have henough := h.enough
  unfold bindContract
  dsimp only
  rw [if_neg (by omega)]
  cases hrest : restKind? contract with
  | some kind => rfl
  | none => rw [List.drop_eq_nil_of_le (h.places hrest)]

/-- Contracts refuse too few arguments, or too many of them, and no other number. -/
theorem few_or_many_or_admits (contract : List Kind) (n : Nat) :
    n < (fixedKinds contract).length ∨
      (fixedKinds contract).length < n ∧ restKind? contract = none ∨ Admits contract n := by
  by_cases hfew : n < (fixedKinds contract).length
  · exact .inl hfew
  · by_cases hmany : (fixedKinds contract).length < n ∧ restKind? contract = none
    · exact .inr (.inl hmany)
    · refine .inr (.inr ⟨by omega, fun hrest => ?_⟩)
      exact Nat.not_lt.mp fun hlt => hmany ⟨hlt, hrest⟩

-- An evaluation that never comes to anything tells the errors of the binding from those of arguments.
theorem bindArgs_outOfFuel {e : Error} :
    bindArgs (fun _ => outOfFuel) further kinds args i ≠ .error (.error e) j := by
  induction args generalizing kinds with
  | nil => exact nofun
  | cons arg more ih =>
    intro h
    rw [bindArgs_cons] at h
    dsimp only at h
    split at h
    · change EStateM.bind _ _ i = _ at h
      unfold EStateM.bind at h
      cases hrest : bindArgs (fun _ => outOfFuel) further kinds.tail more i with
      | ok bound k =>
        rw [hrest] at h
        cases h
      | error halt k =>
        rw [hrest] at h
        cases h
        exact ih hrest
    · cases h

/-! ## Calls -/

section

variable {e : Engine} {id : Nat} {op : Operation}

theorem call_of_bound {b : Bound}
    (h : bindContract e.evaluate name contract args i = .ok b j) :
    e.call (.checked id name contract op) args i = e.runBound op b j :=
  bind_of_ok h

theorem call_of_unbound {h : Halt}
    (hbind : bindContract e.evaluate name contract args i = .error h j) :
    e.call (.checked id name contract op) args i = .error h j := by
  change EStateM.bind (bindContract e.evaluate name contract args) _ i = _
  simp only [EStateM.bind, hbind]

/-- If no argument stops the call, the operation is run on what they are bound to. -/
theorem call_of_binds (hadmits : Admits contract args.length)
    (h : Binds e.evaluate (kinded contract args) i vs j) :
    e.call (.checked id name contract op) args i = op.run e vs j := by
  refine call_of_bound (b := .args vs) ?_
  rw [bindContract_of_admits hadmits]
  exact bindArgs_of_binds h

/-- An argument that stops the call gives its result. -/
theorem call_of_stops (he : e.Idles) (hidle : i.uses = [])
    (hadmits : Admits contract args.length) {before after : List (Kind × Value)}
    {r : EStateM.Result Halt Interpreter Value}
    (hpairs : kinded contract args = before ++ (kind, arg) :: after)
    (hbefore : Binds e.evaluate before i vs j) (hstops : Stops e.evaluate kind arg j r) :
    e.call (.checked id name contract op) args i = r := by
  have hbind : bindContract e.evaluate name contract args i = stoppedWith r := by
    rw [bindContract_of_admits hadmits]
    exact bindArgs_of_stopped he hidle hpairs hbefore hstops
  cases r with
  | ok s k => exact call_of_bound hbind
  | error h k => exact call_of_unbound hbind

end

/-- A call of a checked primitive. Whatever evaluation may do, the binding raises `too few arguments`
in the state it was given if there are fewer arguments than fixed kinds, and `too many arguments` if
there are more and no kind takes them, and it does so in no other case; what the binding raises is
what the call raises. With the right number of arguments the call is this and nothing else: all
arguments are bound, from the first to the last, and the operation is run once on as many values, in
the state that the last of them has left; or there is a first argument that stops the call, and its
result is the result of the call, in the state that this argument has left. -/
theorem checked_call_binds_by_contract {e : Engine} (he : e.Idles) {i : Interpreter}
    (hidle : i.uses = []) (id : Nat) (name : String) (contract : List Kind) (op : Operation)
    (args : List Value) :
    (args.length < (fixedKinds contract).length ↔
      ∀ evaluate, bindContract evaluate name contract args i =
        .error (.error { cause := .tooFewArguments name }) i) ∧
    ((fixedKinds contract).length < args.length ∧ restKind? contract = none ↔
      ∀ evaluate, ∃ extra, args[(fixedKinds contract).length]? = some extra ∧
        bindContract evaluate name contract args i =
          .error (.error { cause := .tooManyArguments (i.heap.text extra) }) i) ∧
    (∀ h j, bindContract e.evaluate name contract args i = .error h j →
      e.call (.checked id name contract op) args i = .error h j) ∧
    (Admits contract args.length → ∀ r,
      e.call (.checked id name contract op) args i = r ↔
        (∃ vs j, Binds e.evaluate (kinded contract args) i vs j ∧ vs.length = args.length ∧
          op.run e vs j = r) ∨
        ∃ before kind arg after vs j, kinded contract args = before ++ (kind, arg) :: after ∧
          Binds e.evaluate before i vs j ∧ Stops e.evaluate kind arg j r) := by
  have hfew : args.length < (fixedKinds contract).length → ∀ evaluate,
      bindContract evaluate name contract args i =
        .error (.error { cause := .tooFewArguments name }) i := by
    intro h evaluate
    rw [bindContract_of_few h]
    rfl
  have hmany : (fixedKinds contract).length < args.length ∧ restKind? contract = none →
      ∀ evaluate, ∃ extra, args[(fixedKinds contract).length]? = some extra ∧
        bindContract evaluate name contract args i =
          .error (.error { cause := .tooManyArguments (i.heap.text extra) }) i := by
    rintro ⟨h, hrest⟩ evaluate
    refine ⟨_, List.getElem?_eq_getElem h, ?_⟩
    rw [bindContract_of_many hrest h]
    exact failWith_of_idle hidle _ _
  refine ⟨⟨hfew, fun h => ?_⟩, ⟨hmany, fun h => ?_⟩, fun _ _ hbind => call_of_unbound hbind, ?_⟩
  -- Evaluations that never end tell the errors raised before any evaluation from all others.
  · have hraised := h fun _ => outOfFuel
    rcases few_or_many_or_admits contract args.length with hlt | hgt | hadmits
    · exact hlt
    · obtain ⟨extra, -, hextra⟩ := hmany hgt fun _ => outOfFuel
      cases hextra.symm.trans hraised
    · rw [bindContract_of_admits hadmits] at hraised
      exact absurd hraised bindArgs_outOfFuel
  · obtain ⟨extra, -, hraised⟩ := h fun _ => outOfFuel
    rcases few_or_many_or_admits contract args.length with hlt | hgt | hadmits
    · cases (hfew hlt fun _ => outOfFuel).symm.trans hraised
    · exact hgt
    · rw [bindContract_of_admits hadmits] at hraised
      exact absurd hraised bindArgs_outOfFuel
  · intro hadmits r
    constructor
    · rintro rfl
      rcases binds_or_stops e.evaluate (kinded contract args) i with
        ⟨vs, j, hbinds⟩ | ⟨before, kind, arg, after, vs, j, r, hpairs, hbefore, hstops⟩
      · refine .inl ⟨vs, j, hbinds, ?_, (call_of_binds hadmits hbinds).symm⟩
        rw [hbinds.length_eq, length_kinded hadmits]
      · refine .inr ⟨before, kind, arg, after, vs, j, hpairs, hbefore, ?_⟩
        rwa [call_of_stops he hidle hadmits hpairs hbefore hstops]
    · rintro (⟨vs, j, hbinds, -, hrun⟩ | ⟨before, kind, arg, after, vs, j, hpairs, hbefore, hstops⟩)
      · exact (call_of_binds hadmits hbinds).trans hrun
      · exact call_of_stops he hidle hadmits hpairs hbefore hstops

-- The first argument is passed on as it is written, the second is no integer, and the third, which
-- has no value at all, is never looked at.
theorem checked_call_binds_by_contract_mismatch :
    (Engine.ofFuel 1).call (.checked 0 "f" [.unevaluated, .integer, .rest] .list)
        [.symbol "boom", .str "no", .symbol "boom"] { maxDepth := 9 } =
      .error (.error { cause := .typeMismatch .integer "\"no\"" }) { maxDepth := 9 } := by
  have hadmits : Admits [.unevaluated, .integer, .rest] 3 := ⟨by decide, nofun⟩
  have htext : (({} : Heap).text (.str "no")) = "\"no\"" := by cbv
  obtain ⟨-, -, -, hcall⟩ := checked_call_binds_by_contract (Engine.idles_ofFuel 1)
    (i := { maxDepth := 9 }) rfl 0 "f" [.unevaluated, .integer, .rest] .list
    [.symbol "boom", .str "no", .symbol "boom"]
  refine (hcall hadmits _).mpr (.inr ⟨[(.unevaluated, .symbol "boom")], .integer, .str "no",
    [(.rest, .symbol "boom")], [.symbol "boom"], _, rfl, .unevaluated rfl (.nil _), ?_⟩)
  rw [← htext]
  exact Stops.mismatch (u := .str "no") (j := { maxDepth := 9 }) rfl rfl rfl rfl

end Lisplet
