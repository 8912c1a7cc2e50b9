import Lisplet.Proofs.DepthLimit
import Lisplet.Proofs.RoundTrip
import Lisplet.Proofs.Signals

/-!
# Sources in quotes

A source can be written between quotes and handed to `eval`. That is the same as to evaluate the
source itself with one level less: every level inside is one further in, so every level that is
refused in one run is refused in the other. What an error has left behind is followed by the
expression in which the source was quoted.

At the outermost level a signal is an error, which it is not inside an expression. So the forms of
the source must not come to one.
-/

namespace Lisplet

open Eval Lockstep

/-! ## One level further in -/

/-- Runs of which the first is one level further in, and may go one level further. -/
def Levels.shifted : Levels where
  nests n := n.left = n.right + 1 ∧ n.leftLimit = n.rightLimit + 1
  excuses _ := False
  not_excuses _ := id
  follows := False
  nests_eq := False.elim
  deeper := by
    rintro n ⟨hlevel, hlimit⟩ hlt
    exact ⟨by omega, congrArg (· + 1) hlevel, hlimit⟩

/-- An engine keeps in step with itself if the runs are refused levels together. -/
theorem Lockstep.drives_self {S : Lockstep}
    (hdepth : ∀ n, S.nests n → n.left < n.leftLimit ∨ ¬ n.right < n.rightLimit) {fuel fuel₂ : Nat}
    (hfuel : S.Fuels fuel fuel₂) : S.Drives (.ofFuel fuel) (.ofFuel fuel₂) := by
  induction fuel generalizing fuel₂ with
  | zero =>
    refine ⟨hfuel, fun _ => ?_, fun _ _ => ?_⟩
    · exact sim_outOfFuel hfuel fun hzero => by rw [hzero]; rfl
    · exact sim_outOfFuel hfuel fun hzero => by rw [hzero]; rfl
  | succ fuel ih =>
    obtain ⟨k, rfl, hk⟩ := hfuel.pred
    refine ⟨hfuel, ?_, fun hf hvs => sim_applyTo (ih hk) hf hvs⟩
    intro w n v v' hv i j hrel
    exact sim_step (ih hk) hv (fun _ => hdepth n hrel.nests) i j hrel

def resultWithLimit (d : Nat) :
    EStateM.Result Halt Interpreter Value → EStateM.Result Halt Interpreter Value
  | .ok v i => .ok v (i.withLimit d)
  | .error h i => .error h (i.withLimit d)

-- The state one level further in, back on its level and under its limit.
theorem Levels.eq_withLimit_of_shifted {n : Nesting} {i j : Interpreter}
    (h : Levels.shifted.lockstep.Rel () n i j) :
    { i with depth := i.depth - 1 } = j.withLimit n.leftLimit := by
  obtain ⟨⟨hlevel, hlimit⟩, hdepth, hmax, rfl⟩ := Levels.rel_iff.mp h
  rw [Interpreter.withLimit, ← hmax, hdepth, hlevel, Nat.add_sub_cancel]

/-- The forms of a source come to the same one level further in, with one level more to go. -/
theorem descend_eval {i : Interpreter} {d : Nat} (hd : i.depth < d) (fuel : Nat)
    (source : String) :
    descend (Builtin.eval (.ofFuel fuel) [.str source]) (i.withLimit d) =
      resultWithLimit d (Builtin.eval (.ofFuel fuel) [.str source] (i.withLimit (d - 1))) := by
  have hdepth : ∀ n, Levels.shifted.lockstep.nests n →
      n.left < n.leftLimit ∨ ¬ n.right < n.rightLimit := by
    rintro n ⟨hlevel, hlimit⟩
    omega
  -- As many levels are left inside of `eval` under `d` as there are outside under `d - 1`.
  have hrel : Levels.shifted.lockstep.Rel () ⟨i.depth + 1, d, i.depth, d - 1⟩
      { i.withLimit d with depth := i.depth + 1 } (i.withLimit (d - 1)) :=
    Levels.rel_iff.mpr ⟨⟨rfl, (Nat.sub_add_cancel (Nat.one_le_of_lt hd)).symm⟩, rfl, rfl, rfl⟩
  have hfuel : Levels.shifted.lockstep.Fuels fuel fuel := .inl rfl
  have hends := sim_eval (drives_self hdepth hfuel) (.refl [.str source]) _ _ hrel
  have hentered : (i.withLimit d).depth < (i.withLimit d).maxDepth := hd
  unfold descend
  rw [if_pos hentered]
  change Ends () _ _ (Builtin.eval (.ofFuel fuel) [.str source]
    { i.withLimit d with depth := (i.withLimit d).depth + 1 }) _ at hends
  generalize Builtin.eval (.ofFuel fuel) [.str source]
    { i.withLimit d with depth := (i.withLimit d).depth + 1 } = r at hends ⊢
  generalize Builtin.eval (.ofFuel fuel) [.str source] (i.withLimit (d - 1)) = t at hends ⊢
  cases r with
  | ok v i' =>
    cases t with
    | ok v' j' =>
      obtain ⟨_, -, hrel', hv⟩ := hends
      obtain rfl := Pairing.Alike.eq (.refl _) hv
      exact congrArg (EStateM.Result.ok v) (Levels.eq_withLimit_of_shifted hrel')
    | error e j' => exact hends.elim
  | error e i' =>
    rcases hends with ⟨he, -⟩ | ⟨_, j', rfl, -, hrel'⟩
    · exact he.elim
    · exact congrArg (EStateM.Result.error e) (Levels.eq_withLimit_of_shifted hrel')

/-! ## Forms that come to no signal -/

/-- None of the forms comes to a signal, when they are evaluated one after the other. -/
def Unsignalled (fuel : Nat) : List Value → Interpreter → Prop
  | [], _ => True
  | form :: rest, i =>
    ∀ v j, evaluate fuel form i = .ok v j → v.isSignal = false ∧ Unsignalled fuel rest j

def Interpreter.Unsignalled (i : Interpreter) (fuel : Nat) (source : String) : Prop :=
  ∀ forms, read source = .ok forms →
    Lisplet.Unsignalled fuel (i.heap.loadAll forms).1 { i with heap := (i.heap.loadAll forms).2 }

theorem settled_of_not_signal {form v : Value} (hv : v.isSignal = false) :
    settled form v = pure v := by
  cases v with
  | leaving | breaking | goto | label => cases hv
  | _ => rfl

/-- Without signals, the outermost level is like any other. -/
theorem evalTop_eq_sequence {fuel : Nat} {forms : List Value} {i : Interpreter} (v : Value)
    (h : Unsignalled fuel forms i) :
    evalTop fuel forms v i = (Engine.ofFuel fuel).sequence forms v i := by
  induction forms generalizing v i with
  | nil => rfl
  | cons form rest ih =>
    cases hform : evaluate fuel form i with
    | error e j =>
      have htop : evalTop fuel (form :: rest) v i = .error e j := bind_of_error hform
      have hsequence : (Engine.ofFuel fuel).sequence (form :: rest) v i = .error e j :=
        bind_of_error hform
      rw [htop, hsequence]
    | ok u j =>
      obtain ⟨hu, hrest⟩ := h u j hform
      have htop : evalTop fuel (form :: rest) v i = evalTop fuel rest u j := by
        refine (bind_of_ok hform).trans ?_
        rw [settled_of_not_signal hu]
        rfl
      rw [htop, ih u hrest]
      exact (Engine.value_of_not_signal hform hu).symm

theorem evalSource_eq_eval {i : Interpreter} {fuel : Nat} {source : String}
    (h : i.Unsignalled fuel source) :
    evalSource fuel source i = Builtin.eval (.ofFuel fuel) [.str source] i := by
  change (ofExcept (read source) >>= fun forms => load forms >>= fun vs => evalTop fuel vs .nil) i =
    (ofExcept (read source) >>= fun forms =>
      load forms >>= fun vs => (Engine.ofFuel fuel).sequence vs .nil) i
  cases hread : read source with
  | error e => rfl
  | ok forms => exact evalTop_eq_sequence .nil (h forms hread)

/-! ## The expression that quotes a source -/

/-- The expression that evaluates a source in quotes. -/
def quotation (source : String) : Value :=
  .expr [.symbol "eval", .str source]

theorem text_quotation (h : Heap) (source : String) :
    h.text (quotation source) = "(eval " ++ h.text (.str source) ++ ")" := by
  show "(" ++ " ".intercalate ["eval", Text.quote source] ++ ")" = _
  rw [String.intercalate_cons_cons, String.intercalate_singleton, ← String.append_assoc,
    ← String.append_assoc]
  rfl

-- No cell is shown, so it does not matter whether one is in use.
theorem eval_text_quotation (source : String) (i : Interpreter) :
    Eval.text (quotation source) i = .ok ("(eval " ++ i.heap.text (.str source) ++ ")") i := by
  have hbarred : i.barred (fun cell => i.heap.shows cell (quotation source)) = false := by
    have hshows : ∀ cell, i.heap.shows cell (quotation source) = false := fun _ => rfl
    simp [Interpreter.barred, hshows]
  unfold Eval.text looking
  rw [if_neg (by rw [hbarred]; exact Bool.false_ne_true), ← text_quotation]

theorem read_quotation (source : String) :
    read ("(eval " ++ Text.quote source ++ ")") =
      .ok [.expr [.symbol "eval", .str source]] := by
  have hname : SymbolName "eval".toList :=
    ⟨⟨⟨'e', ['v', 'a', 'l'], rfl, by decide +kernel, List.all_eq_true.mp (by decide +kernel)⟩,
      nofun⟩, by rfl⟩
  have hreadable : (Form.expr [.symbol "eval", .str source]).Readable Reader.maxNesting :=
    ⟨by decide, by simp, hname, trivial, trivial⟩
  have hexact : (Form.expr [.symbol "eval", .str source]).HasNoDouble := by
    rintro d (_ | _ | ⟨hpart, h⟩ | _)
    rcases List.mem_pair.mp hpart with rfl | rfl
    · cases h
    · cases h
  have htext : (Form.expr [.symbol "eval", .str source]).text =
      "(eval " ++ Text.quote source ++ ")" := text_quotation {} source
  rw [← htext]
  exact all_text hreadable hexact []

theorem callForm_eval {i : Interpreter} {id : Nat} {name : String}
    (heval : i.env.get? "eval" = some (.checked id name [.any] .eval)) (fuel : Nat)
    (source : String) :
    (Engine.ofFuel (fuel + 1)).callForm [.symbol "eval", .str source] i =
      Builtin.eval (.ofFuel (fuel + 1)) [.str source] i := by
  have hhead : (Engine.ofFuel (fuel + 1)).evaluate (.symbol "eval") i =
      .ok (.checked id name [.any] .eval) i := by
    change resolve "eval" i = _
    have hsegments : Path.segments "eval" = ["eval"] := by decide +kernel
    have hlookup : lookup "eval" i = .ok (.checked id name [.any] .eval) i := by
      simp only [lookup, Environment.lookup, heval]
    unfold resolve
    rw [hsegments]
    exact bind_of_ok hlookup
  refine (Engine.value_of_not_signal hhead rfl).trans ?_
  exact bind_of_ok (a := Bound.args [.str source]) rfl

/-- To evaluate a quotation is to evaluate the source with one level less, and to leave a crumb. -/
theorem evaluate_quotation {i : Interpreter} {d id : Nat} {name : String}
    (heval : i.env.get? "eval" = some (.checked id name [.any] .eval)) (hd : i.depth < d)
    (fuel : Nat) (source : String) :
    evaluate (fuel + 2) (quotation source) (i.withLimit d) =
      leavingCrumb (quotation source)
        (fun _ => resultWithLimit d
          (Builtin.eval (.ofFuel (fuel + 1)) [.str source] (i.withLimit (d - 1))))
        (i.withLimit d) := by
  have hcall : descend ((Engine.ofFuel (fuel + 1)).callForm [.symbol "eval", .str source])
      (i.withLimit d) = descend (Builtin.eval (.ofFuel (fuel + 1)) [.str source])
      (i.withLimit d) := by
    unfold descend
    rw [callForm_eval (i := { i.withLimit d with depth := (i.withLimit d).depth + 1 }) heval]
  rw [← descend_eval hd, ← hcall]
  rfl

/-- A quotation is read as such, and brings no cell into the heap. -/
theorem evalSource_quotation (fuel : Nat) (source : String) (i : Interpreter) :
    evalSource fuel ("(eval " ++ i.heap.text (.str source) ++ ")") i =
      evalTop fuel [quotation source] .nil i := by
  have hread : read ("(eval " ++ i.heap.text (.str source) ++ ")") =
      .ok [.expr [.symbol "eval", .str source]] := read_quotation source
  rw [evalSource, hread]
  rfl

/-- A halt after leaving one more expression: an error has one more breadcrumb. -/
def Halt.withCrumb (crumb : String) : Halt → Halt
  | .error e => .error (e.withCrumb crumb)
  | h => h

theorem leavingCrumb_quotation (source : String) (h : Halt) (i j : Interpreter) :
    leavingCrumb (α := Value) (quotation source) (fun _ => .error h j) i =
      .error (h.withCrumb ("(eval " ++ j.heap.text (.str source) ++ ")")) j := by
  cases h with
  | error e =>
    simp only [leavingCrumb, eval_text_quotation, Halt.withCrumb]
  | crash c => rfl
  | outOfFuel => rfl

theorem run_quotation {i : Interpreter} {d id : Nat} {name : String}
    (heval : i.env.get? "eval" = some (.checked id name [.any] .eval)) (hd : i.depth < d)
    (fuel : Nat) (source : String)
    (hsignals : (i.withLimit (d - 1)).Unsignalled (fuel + 1) source) :
    (i.withLimit d).run (evalSource (fuel + 2) ("(eval " ++ i.heap.text (.str source) ++ ")")) =
      (((i.withLimit (d - 1)).run (evalSource (fuel + 1) source)).1.mapError
          (Halt.withCrumb ("(eval " ++ i.heap.text (.str source) ++ ")")),
        ((i.withLimit (d - 1)).run (evalSource (fuel + 1) source)).2.withLimit d) := by
  have hstep := evaluate_quotation heval hd fuel source
  rw [← evalSource_eq_eval hsignals] at hstep
  have hquoted : evalSource (fuel + 2) ("(eval " ++ i.heap.text (.str source) ++ ")")
      (i.withLimit d) = evalTop (fuel + 2) [quotation source] .nil (i.withLimit d) :=
    evalSource_quotation (fuel + 2) source (i.withLimit d)
  unfold Interpreter.run
  rw [hquoted]
  cases hrun : evalSource (fuel + 1) source (i.withLimit (d - 1)) with
  | ok v j =>
    rw [hrun] at hstep
    have htop : evalTop (fuel + 2) [quotation source] .nil (i.withLimit d) =
        .ok v (j.withLimit d) := by
      refine (bind_of_ok hstep).trans ?_
      rw [settled_of_not_signal (not_signal_of_evalForms hrun)]
      rfl
    rw [htop]
    rfl
  | error h j =>
    rw [hrun] at hstep
    have hcrumb := leavingCrumb_quotation source h (i.withLimit d) (j.withLimit d)
    have htop : evalTop (fuel + 2) [quotation source] .nil (i.withLimit d) =
        .error (h.withCrumb ("(eval " ++ i.heap.text (.str source) ++ ")")) (j.withLimit d) :=
      bind_of_error (hstep.trans hcrumb)
    rw [htop]
    rfl

theorem context_withCrumb (e : Error) (crumb : String) :
    (e.withCrumb crumb).context = e.context ++ " ### " ++ crumb := by
  simp [Error.context, Error.withCrumb, String.append_assoc]

/-- Wherever `eval` is the operation of that name, a source in quotes that is evaluated comes to what
the source itself comes to with one level less, in a state that differs in nothing but the limit. An
error is the same but for the quotation, which is its last breadcrumb. A source that cannot be read
is no exception. The forms of the source must not come to signals. The quotation needs one unit of
fuel more than the source. -/
theorem quoted_source_is_one_level_deeper {i : Interpreter} {d id : Nat} {name : String}
    (heval : i.env.get? "eval" = some (.checked id name [.any] .eval)) (hd : i.depth < d)
    (fuel : Nat) (source : String)
    (hsignals : (i.withLimit (d - 1)).Unsignalled (fuel + 1) source) :
    let quotation := "(eval " ++ i.heap.text (.str source) ++ ")"
    let quoted := (i.withLimit d).run (evalSource (fuel + 2) quotation)
    let plain := (i.withLimit (d - 1)).run (evalSource (fuel + 1) source)
    quoted.2 = plain.2.withLimit d ∧
    (∀ v, plain.1 = .ok v → quoted.1 = .ok v) ∧
    (∀ e, plain.1 = .error (.error e) → ∃ e', quoted.1 = .error (.error e') ∧
      e'.message = e.message ∧ e'.context = e.context ++ " ### " ++ quotation) ∧
    ∀ h, (∀ e, h ≠ .error e) → plain.1 = .error h → quoted.1 = .error h := by
  intro quotation quoted plain
  have hrun : quoted = (plain.1.mapError (Halt.withCrumb quotation), plain.2.withLimit d) :=
    run_quotation heval hd fuel source hsignals
  rw [hrun]
  refine ⟨rfl, ?_, ?_, ?_⟩
  · intro v hv
    rw [hv]
    rfl
  · intro e he
    rw [he]
    exact ⟨e.withCrumb quotation, rfl, rfl, context_withCrumb e quotation⟩
  · intro h hne hh
    rw [hh]
    cases h with
    | error e => exact absurd rfl (hne e)
    | crash c => rfl
    | outOfFuel => rfl

def evalOnly : Interpreter :=
  { maxDepth := 9, env := { globals := [("eval", .checked 0 "eval" [.any] .eval)] } }

-- The quotation takes the first of two levels, the expression in it the second one.
theorem quoted_source_is_one_level_deeper_unbound :
    ∃ e, ((evalOnly.withLimit 2).run (evalSource 8 "(eval \"(eval boom)\")")).1 =
        .error (.error e) ∧
      e.message = "unbound symbol [boom]" ∧
      e.context = " ### (eval boom) ### (eval \"(eval boom)\")" := by
  have hread : read "(eval boom)" = .ok [.expr [.symbol "eval", .symbol "boom"]] := by
    cbv
  have hform : ((evalOnly.withLimit 1).run
      (evaluate 7 (.expr [.symbol "eval", .symbol "boom"]))).1 =
        .error (.error { cause := .unboundSymbol "boom", trail := ["(eval boom)"] }) := by
    cbv
  have hsignals : (evalOnly.withLimit (2 - 1)).Unsignalled 7 "(eval boom)" := by
    intro forms hforms
    cases hread.symm.trans hforms
    intro v j hv
    change evaluate 7 (.expr [.symbol "eval", .symbol "boom"]) (evalOnly.withLimit 1) =
      .ok v j at hv
    rw [Interpreter.run, hv] at hform
    cases hform
  have hplain : ((evalOnly.withLimit 1).run (evalSource 7 "(eval boom)")).1 =
      .error (.error { cause := .unboundSymbol "boom", trail := ["(eval boom)"] }) := by
    cbv
  obtain ⟨-, -, herror, -⟩ :=
    quoted_source_is_one_level_deeper rfl (by decide) 6 "(eval boom)" hsignals
  exact herror _ hplain

end Lisplet
