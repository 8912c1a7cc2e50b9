import Lisplet.Proofs.Application
import Lisplet.Proofs.Assignment
import Lisplet.Proofs.Binding
import Lisplet.Proofs.Insertion
import Lisplet.Proofs.Literals
import Lisplet.Proofs.Quotation

/-!
# Calls and applications

A function that evaluates its arguments can be called with forms, or applied to values. The first comes
to the same as to evaluate the forms, one after the other, and then to apply the function to what they
have come to.

In the language, this is to call `apply` with the function and a list of the arguments. The arguments
are one level further in there, and the list takes a cell, which no one but `apply` gets to see. What
the application does is what the call does, with one cell more in the heap.
-/

namespace Lisplet

open Eval

/-! ## Arguments and their values -/

/-- Forms that are evaluated one after the other, from a first state to a last one, with their values,
none of which is a signal. -/
inductive Values (evaluate : Value → Eval Value) :
    List Value → Interpreter → List Value → Interpreter → Prop
  | nil (i : Interpreter) : Values evaluate [] i [] i
  | cons {form v : Value} {rest vs : List Value} {i j k : Interpreter} :
      evaluate form i = .ok v j → v.isSignal = false → Values evaluate rest j vs k →
      Values evaluate (form :: rest) i (v :: vs) k

/-- Closures, and checked primitives that ask for none of their arguments unevaluated. -/
def Value.evaluatesArguments : Value → Bool
  | .closure .. => Bool.true
  | .checked _ _ contract _ => contract.all fun kind => !kind.isUnevaluated
  | _ => false

/-- A closure takes any values as arguments, a checked primitive those that its contract accepts. -/
def Value.accepts (vs : List Value) : Value → Bool
  | .closure .. => Bool.true
  | .checked _ _ contract _ => (acceptContract contract vs).isSome
  | _ => false

section

variable {evaluate : Value → Eval Value} {e : Engine} {forms vs ws values : List Value}
  {i j k : Interpreter} {further : Kind} {kinds contract : List Kind} {callee : Value}

theorem Values.length_eq (h : Values evaluate forms i vs j) : vs.length = forms.length := by
  induction h with
  | nil => rfl
  | cons _ _ _ ih => rw [List.length_cons, List.length_cons, ih]

theorem isUnevaluated_headD (hfurther : further.isUnevaluated = false)
    (hkinds : ∀ kind ∈ kinds, kind.isUnevaluated = false) :
    (kinds.headD further).isUnevaluated = false := by
  cases kinds with
  | nil => exact hfurther
  | cons kind kinds => exact hkinds kind List.mem_cons_self

theorem acceptAll_cons {v : Value} (hkind : (kinds.headD further).isUnevaluated = false)
    (hsignal : v.isSignal = false) :
    acceptAll further kinds (v :: vs) = ((kinds.headD further).accept? v).bind fun w =>
      (acceptAll further kinds.tail vs).map (w :: ·) := by
  simp only [acceptAll, hkind, hsignal, Bool.false_eq_true, if_false]
  cases (kinds.headD further).accept? v <;> rfl

theorem bindArgs_of_refused {form v : Value} (hkind : (kinds.headD further).isUnevaluated = false)
    (heval : evaluate form i = .ok v j) (hsignal : v.isSignal = false)
    (haccept : (kinds.headD further).accept? v = none) :
    ∃ halt k, bindArgs evaluate further kinds (form :: forms) i = .error halt k := by
  obtain ⟨halt, hfail⟩ := exists_failWith_eq (α := Value) (.typeMismatch (kinds.headD further)) v j
  have hrefused : accept (kinds.headD further) v j = .error halt j := by
    unfold accept
    rw [haccept]
    exact hfail
  refine ⟨halt, j, ?_⟩
  rw [bindArgs_cons]
  dsimp only
  rw [if_neg (Bool.eq_false_iff.mp hkind)]
  refine (bind_of_ok heval).trans ?_
  rw [if_neg (Bool.eq_false_iff.mp hsignal)]
  exact bind_of_error hrefused

/-- Arguments are bound to what their kinds make of their values, if the kinds accept them. Otherwise
they are not bound. -/
theorem bindArgs_of_values (h : Values evaluate forms i vs j)
    (hfurther : further.isUnevaluated = false)
    (hkinds : ∀ kind ∈ kinds, kind.isUnevaluated = false) :
    (∃ ws, acceptAll further kinds vs = some ws ∧
      bindArgs evaluate further kinds forms i = .ok (.args ws) j) ∨
    acceptAll further kinds vs = none ∧
      ∃ halt k, bindArgs evaluate further kinds forms i = .error halt k := by
  induction h generalizing kinds with
  | nil i => exact .inl ⟨[], rfl, rfl⟩
  | @cons form v rest vs i j k heval hsignal _ ih =>
    have hkind := isUnevaluated_headD hfurther hkinds
    have htail : ∀ kind ∈ kinds.tail, kind.isUnevaluated = false :=
      fun kind hmem => hkinds kind (List.mem_of_mem_tail hmem)
    rw [acceptAll_cons hkind hsignal]
    cases haccept : (kinds.headD further).accept? v with
    | none => exact .inr ⟨rfl, bindArgs_of_refused hkind heval hsignal haccept⟩
    | some w =>
      rw [Option.bind_some, bindArgs_of_accept hkind heval hsignal haccept]
      rcases ih htail with ⟨ws, hws, hbind⟩ | ⟨hnone, halt, l, hbind⟩
      · refine .inl ⟨w :: ws, ?_, bind_of_ok hbind⟩
        rw [hws, Option.map_some]
      · refine .inr ⟨?_, halt, l, bind_of_error hbind⟩
        rw [hnone, Option.map_none]

theorem acceptContract_of_few (h : vs.length < (fixedKinds contract).length) :
    acceptContract contract vs = none := by
  unfold acceptContract
  dsimp only
  rw [if_pos h]

theorem acceptContract_of_many (hrest : restKind? contract = none)
    (hmany : (fixedKinds contract).length < vs.length) : acceptContract contract vs = none := by
  unfold acceptContract
  dsimp only
  rw [if_neg (by omega), hrest, List.drop_eq_getElem_cons hmany]

theorem acceptContract_of_admits (h : Admits contract vs.length) :
    acceptContract contract vs =
      acceptAll ((restKind? contract).getD .any) (fixedKinds contract) vs := by
  have henough := h.enough
  unfold acceptContract
  dsimp only
  rw [if_neg (by omega)]
  cases hrest : restKind? contract with
  | some kind => rfl
  | none => rw [List.drop_eq_nil_of_le (h.places hrest)]

theorem isUnevaluated_restKind (h : ∀ kind ∈ contract, kind.isUnevaluated = false) :
    ((restKind? contract).getD .any).isUnevaluated = false := by
  rcases restKind_mem contract with hmem | hany
  · exact h _ hmem
  · rw [hany]
    rfl

/-- A contract that has all arguments evaluated binds them to what it makes of their values, if it
accepts them. Otherwise they are not bound. -/
theorem bindContract_of_values (name : String) (h : Values evaluate forms i vs j)
    (hcontract : ∀ kind ∈ contract, kind.isUnevaluated = false) :
    (∃ ws, acceptContract contract vs = some ws ∧
      bindContract evaluate name contract forms i = .ok (.args ws) j) ∨
    acceptContract contract vs = none ∧
      ∃ halt k, bindContract evaluate name contract forms i = .error halt k := by
  have hlength := h.length_eq
  rcases few_or_many_or_admits contract forms.length with hfew | ⟨hmany, hrest⟩ | hadmits
  · rw [bindContract_of_few hfew, acceptContract_of_few (hlength ▸ hfew)]
    exact .inr ⟨rfl, _, i, rfl⟩
  · rw [bindContract_of_many hrest hmany, acceptContract_of_many hrest (hlength ▸ hmany)]
    obtain ⟨halt, hfail⟩ := exists_failWith_eq (α := Bound) .tooManyArguments _ i
    exact .inr ⟨rfl, halt, i, hfail⟩
  · rw [bindContract_of_admits hadmits, acceptContract_of_admits (hlength ▸ hadmits)]
    refine bindArgs_of_values h (isUnevaluated_restKind hcontract) fun kind hmem => ?_
    exact hcontract kind (mem_of_mem_fixedKinds hmem)

theorem arguments_of_values {next : List Value → Eval Value} (h : Values e.evaluate forms i vs j)
    (values : List Value) : e.arguments next forms values i = next (values.reverse ++ vs) j := by
  induction h generalizing values with
  | nil i => rw [Engine.arguments, List.append_nil]
  | cons heval hsignal _ ih =>
    rw [Engine.arguments, Engine.value_of_not_signal heval hsignal, ih, List.reverse_cons,
      List.append_assoc, List.singleton_append]

/-- To call a function with forms is to evaluate them, and then to apply it to their values. -/
theorem call_eq_applyTo (h : Values e.evaluate forms i vs j)
    (hcallee : callee.evaluatesArguments = true) (haccepts : callee.accepts vs = true) :
    e.call callee forms i = e.applyTo callee vs j := by
  cases callee with
  | closure id captured params body => exact arguments_of_values h []
  | checked id name contract op =>
    obtain ⟨ws, hws⟩ := Option.isSome_iff_exists.mp haccepts
    have hcontract : ∀ kind ∈ contract, kind.isUnevaluated = false := by
      simpa [Value.evaluatesArguments] using hcallee
    have happlied : bindContract pure name contract vs j = .ok (.args ws) j :=
      bindContract_pure_iff.mpr ⟨hws, rfl⟩
    rcases bindContract_of_values name h hcontract with ⟨_, hws', hbind⟩ | ⟨hnone, -⟩
    · cases hws.symm.trans hws'
      exact (call_of_bound hbind).trans (bind_of_ok happlied).symm
    · cases hws.symm.trans hnone
  | _ => cases hcallee

/-- A call that comes to a result was made with values that the function accepts. -/
theorem accepts_of_call {v : Value} (h : Values e.evaluate forms i vs j)
    (hcallee : callee.evaluatesArguments = true) (hcall : e.call callee forms i = .ok v k) :
    callee.accepts vs = true := by
  cases callee with
  | closure id captured params body => rfl
  | checked id name contract op =>
    have hcontract : ∀ kind ∈ contract, kind.isUnevaluated = false := by
      simpa [Value.evaluatesArguments] using hcallee
    rcases bindContract_of_values name h hcontract with
      ⟨ws, hws, -⟩ | ⟨-, halt, l, hbind⟩
    · rw [Value.accepts, hws]
      rfl
    · cases (call_of_unbound hbind).symm.trans hcall
  | _ => cases hcallee

end

/-! ## Levels that stay apart -/

def Interpreter.deeper (i : Interpreter) (d : Nat) : Interpreter :=
  { i with depth := i.depth + d }

/-- Runs under the same limit, of which the first is `d` levels further in. It is excused when it
raises the alarm or runs out of fuel. -/
def Levels.apart (d : Nat) : Levels where
  nests n := n.left = n.right + d ∧ n.leftLimit = n.rightLimit
  excuses h := h = .alarm ∨ h = .outOfFuel
  not_excuses := Lockstep.insertion.not_excuses
  follows := False
  nests_eq := False.elim
  deeper := by
    rintro n ⟨hlevel, hlimit⟩ hlt
    refine ⟨by omega, ?_, hlimit⟩
    show n.left + 1 = n.right + 1 + d
    omega

section

open Lockstep

variable {α : Type} {d m n : Nat} {i j k : Interpreter} {u v w : Value} {forms vs : List Value}

/-- What the first run comes to, the second comes to at its own level. -/
theorem Levels.ok_of_simulates {Q : (apart d).lockstep.Link α}
    (hQ : ∀ {a b : α}, Q.rel () a b → a = b) {x y : Eval α}
    (hsim : ∀ n, (apart d).lockstep.Simulates () n Q x y) {a : α} (h : x (i.deeper d) = .ok a k) :
    ∃ j, y i = .ok a j ∧ k = j.deeper d := by
  have hrel : (apart d).lockstep.Rel () ⟨i.depth + d, i.maxDepth, i.depth, i.maxDepth⟩ (i.deeper d) i :=
    rel_iff.mpr ⟨⟨rfl, rfl⟩, rfl, rfl, rfl⟩
  have hends := hsim _ _ _ hrel
  rw [h] at hends
  cases hy : y i with
  | error e j =>
    rw [hy] at hends
    exact hends.elim
  | ok b j =>
    rw [hy] at hends
    obtain ⟨_, -, hrel', hq⟩ := hends
    obtain rfl := hQ hq
    obtain ⟨⟨hlevel, hlimit⟩, hleft, hmax, rfl⟩ := rel_iff.mp hrel'
    refine ⟨_, rfl, ?_⟩
    rw [Interpreter.deeper, ← hlevel, ← hleft, ← hlimit, ← hmax]

theorem Levels.drives_apart (d : Nat) (hle : m ≤ n) :
    (apart d).lockstep.Drives (.strict m) (.ofFuel n) :=
  drives_strict (S := (apart d).lockstep) (.inl rfl) id (.inr ⟨.inr rfl, id, hle⟩)

theorem evaluate_of_strict (hle : m ≤ n)
    (h : (Engine.strict m).evaluate v (i.deeper d) = .ok u k) :
    ∃ j, evaluate n v i = .ok u j ∧ k = j.deeper d :=
  Levels.ok_of_simulates (Pairing.Alike.eq (.refl _))
    (fun _ => (Levels.drives_apart d hle).evaluate (.refl v)) h

/-- A result that was found with some fuel is found with any larger amount. -/
theorem evaluate_of_le (hle : m ≤ n) (h : evaluate m v i = .ok u j) : evaluate n v i = .ok u j := by
  have hdepth : ∀ n, (Levels.apart 0).lockstep.nests n →
      n.left < n.leftLimit ∨ ¬ n.right < n.rightLimit := by
    rintro n ⟨hlevel, hlimit⟩
    omega
  have hdrives : (Levels.apart 0).lockstep.Drives (.ofFuel m) (.ofFuel n) :=
    drives_self (S := (Levels.apart 0).lockstep) hdepth (.inr ⟨.inr rfl, id, hle⟩)
  obtain ⟨k, hk, rfl⟩ := Levels.ok_of_simulates (d := 0) (Pairing.Alike.eq (.refl _))
    (fun _ => hdrives.evaluate (.refl v)) h
  exact hk

/-- A strict engine that does not raise the alarm comes to what the plain one comes to. -/
theorem strict_of_evaluate (h : evaluate m v i = .ok u j)
    (hrefused : ∀ k, (Engine.strict m).evaluate v i ≠ .error .alarm k) :
    (Engine.strict m).evaluate v i = .ok u j := by
  let l := Levels.limits (Nat.le_refl i.maxDepth) (· = .alarm) nofun
  have hdrives : l.lockstep.Drives (.strict m) (.ofFuel m) := drives_strict rfl id (.inl rfl)
  have hends := hdrives.evaluate (.refl v) _ _ (Levels.limits_rel _ _ _ i)
  change Ends () _ _ ((Engine.strict m).evaluate v i) (evaluate m v i) at hends
  rw [h] at hends
  cases hstrict : (Engine.strict m).evaluate v i with
  | ok u' j' =>
    rw [hstrict] at hends
    obtain ⟨_, -, hrel, hu⟩ := hends
    obtain ⟨hmax, rfl⟩ := Levels.eq_withLimit_of_rel hrel
    rw [Pairing.Alike.eq (.refl _) hu, Interpreter.withLimit_eq_self hmax]
  | error e k =>
    rw [hstrict] at hends
    rcases hends with ⟨rfl, -⟩ | ⟨_, _, heq, -⟩
    · exact absurd hstrict (hrefused k)
    · cases heq

end

/-! ## The parts of a call -/

section

variable {e : Engine} {m n : Nat} {i j k l : Interpreter} {f u v w callee : Value}
  {args forms vs : List Value} {id : Nat} {name title : String} {contract : List Kind}
  {op : Operation}

theorem exists_of_step_expr (h : e.step (.expr forms) i = .ok v j) :
    ∃ k, e.callForm forms (i.deeper 1) = .ok v k ∧ j = { k with depth := k.depth - 1 } := by
  change leavingCrumb (.expr forms) (descend (e.callForm forms)) i = .ok v j at h
  unfold leavingCrumb at h
  split at h
  next hdescend =>
    cases h
    exact exists_of_descend hdescend
  next =>
    split at h
    · cases h
    · cases h
  next => cases h

theorem exists_of_strict_expr (h : (Engine.strict m).evaluate (.expr forms) i = .ok v j) :
    ∃ m' k, m = m' + 1 ∧ (Engine.strict m').callForm forms (i.deeper 1) = .ok v k ∧
      j = { k with depth := k.depth - 1 } := by
  cases m with
  | zero => cases h
  | succ m =>
    change unlessRefused (.expr forms) ((Engine.strict m).step (.expr forms)) i = .ok v j at h
    unfold unlessRefused at h
    split at h
    · cases h
    · obtain ⟨k, hk, hj⟩ := exists_of_step_expr h
      exact ⟨m, k, rfl, hk, hj⟩

theorem strict_symbol (hsimple : Path.isSimple name = true) (hget : i.env.get? name = some u)
    (h : (Engine.strict m).evaluate (.symbol name) i = .ok v j) : v = u ∧ j = i := by
  have hresolve : resolve name i = .ok u i :=
    resolve_of_at ⟨name, [], u, Path.segments_of_isSimple hsimple, hget, .nil u⟩
  cases m with
  | zero => cases h
  | succ m =>
    change unlessRefused (.symbol name) (resolve name) i = .ok v j at h
    unfold unlessRefused at h
    rw [if_neg nofun, hresolve] at h
    cases h
    exact ⟨rfl, rfl⟩

/-- A call by the name of a checked primitive. -/
theorem call_of_strict (hsimple : Path.isSimple name = true)
    (hget : i.env.get? name = some (.checked id title contract op))
    (h : (Engine.strict m).callForm (.symbol name :: args) i = .ok v j) :
    (Engine.strict m).call (.checked id title contract op) args i = .ok v j := by
  obtain ⟨u, k, hu, hcall⟩ := Engine.exists_of_value h
  obtain ⟨rfl, rfl⟩ := strict_symbol hsimple hget hu
  rcases hcall with ⟨hsignal, -⟩ | ⟨-, hcall⟩
  · cases hsignal
  · exact hcall

theorem exists_of_bindArgs {evaluate : Value → Eval Value} {further : Kind} {kinds : List Kind}
    {arg : Value} {more : List Value} {b : Bound}
    (hkind : (kinds.headD further).isUnevaluated = false)
    (h : bindArgs evaluate further kinds (arg :: more) i = .ok b j) :
    ∃ u k, evaluate arg i = .ok u k := by
  rw [bindArgs_cons] at h
  dsimp only at h
  rw [if_neg (Bool.eq_false_iff.mp hkind)] at h
  obtain ⟨u, k, hu, -⟩ := exists_of_bind h
  exact ⟨u, k, hu⟩

/-- A call of `apply` that comes to a result has evaluated the function and then the list. -/
theorem exists_of_call_apply {list : Value}
    (h : e.call (.checked id title [.function, .any] .apply) [f, list] i = .ok v j) :
    ∃ u k, e.evaluate f i = .ok u k ∧ (u.isSignal = false → u.isCallable = true →
      ∃ w l, e.evaluate list k = .ok w l ∧
        (w.isSignal = false → Builtin.apply e [u, w] l = .ok v j)) := by
  obtain ⟨b, k₁, hbind, hrun⟩ := exists_of_bind h
  have hadmits : Admits [.function, .any] 2 := ⟨Nat.le_refl 2, fun _ => Nat.le_refl 2⟩
  rw [bindContract_of_admits hadmits] at hbind
  change bindArgs e.evaluate .any [.function, .any] [f, list] i = .ok b k₁ at hbind
  obtain ⟨u, k, hu⟩ := exists_of_bindArgs rfl hbind
  refine ⟨u, k, hu, fun hsignal hcallable => ?_⟩
  have haccept : (([.function, .any] : List Kind).headD .any).accept? u = some u := if_pos hcallable
  rw [bindArgs_of_accept rfl hu hsignal haccept] at hbind
  obtain ⟨b', k₂, hrest, -⟩ := exists_of_bind hbind
  obtain ⟨w, l, hw⟩ := exists_of_bindArgs rfl hrest
  refine ⟨w, l, hw, fun hsignal' => ?_⟩
  have hbinds : Binds e.evaluate (kinded [.function, .any] [f, list]) i [u, w] l :=
    .evaluated rfl hu hsignal haccept (.evaluated rfl hw hsignal' rfl (.nil l))
  rw [call_of_binds hadmits hbinds] at h
  exact h

/-- To apply a function to a new list is to apply it to the items, though there is one cell more. -/
theorem apply_newList (hidle : l.uses = []) (callee : Value) (vs : List Value) :
    Builtin.apply e [callee, (l.heap.newList vs).1] { l with heap := (l.heap.newList vs).2 } =
      e.apply callee vs { l with heap := (l.heap.newList vs).2 } := by
  cases vs with
  | nil => rfl
  | cons v vs =>
    have hitems : items l.heap.size { l with heap := (l.heap.newList (v :: vs)).2 } =
        .ok (v :: vs) { l with heap := (l.heap.newList (v :: vs)).2 } := by
      refine (looking_of_idle (i := { l with heap := (l.heap.newList (v :: vs)).2 }) hidle _ _).trans ?_
      exact congrArg (EStateM.Result.ok · _) (Heap.items_alloc l.heap (v :: vs))
    exact bind_of_ok hitems

theorem acceptAll_rest (h : ∀ v ∈ vs, v.isSignal = false) : acceptAll .rest [] vs = some vs := by
  induction vs with
  | nil => rfl
  | cons v vs ih =>
    obtain ⟨hv, hvs⟩ := List.forall_mem_cons.mp h
    rw [acceptAll_cons rfl hv]
    show (acceptAll .rest [] vs).map (v :: ·) = some (v :: vs)
    rw [ih hvs, Option.map_some]

theorem Values.not_signal {evaluate : Value → Eval Value} (h : Values evaluate forms i vs j) :
    ∀ v ∈ vs, v.isSignal = false := by
  induction h with
  | nil => exact nofun
  | cons _ hsignal _ ih => exact List.forall_mem_cons.mpr ⟨hsignal, ih⟩

/-- A list of arguments one level further in comes to a new list of their values. -/
theorem strict_list (hle : m ≤ n)
    (hlist : k.env.get? "list" = some (.checked id title [.rest] .list))
    (hvalues : Values (evaluate n) args k vs l)
    (h : (Engine.strict m).evaluate (.expr (.symbol "list" :: args)) k = .ok w j) :
    w = (l.heap.newList vs).1 ∧ j = { l with heap := (l.heap.newList vs).2 } := by
  obtain ⟨m, k₁, rfl, hcall, rfl⟩ := exists_of_strict_expr h
  have hcall := call_of_strict (i := k.deeper 1) (by decide +kernel) hlist hcall
  obtain ⟨b, k₂, hbind, hrun⟩ := exists_of_bind hcall
  -- The level is all that the arguments of the list differ in from those of the call.
  obtain ⟨l', hbind', rfl⟩ := Levels.ok_of_simulates (Pairing.AlikeBound.eq (.refl _))
    (fun _ => Lockstep.sim_bindContract (Levels.drives_apart 1 (Nat.le_of_succ_le hle)).evaluate
      title [.rest] (.refl args)) hbind
  have hrest : ∀ kind ∈ ([.rest] : List Kind), kind.isUnevaluated = false := by decide
  rcases bindContract_of_values title hvalues hrest with
    ⟨ws, hws, hbound⟩ | ⟨-, halt, _, hbound⟩
  · cases hbound.symm.trans hbind'
    have hadmits : Admits [.rest] vs.length :=
      ⟨Nat.zero_le _, fun hnone => absurd hnone (by decide)⟩
    rw [acceptContract_of_admits hadmits] at hws
    cases (acceptAll_rest hvalues.not_signal).symm.trans hws
    cases hrun
    exact ⟨rfl, rfl⟩
  · cases hbound.symm.trans hbind'

end

/-! ## What evaluation keeps -/

section

variable {m n : Nat} {i j : Interpreter} {u v : Value} {forms vs : List Value}

theorem Interpreter.Coherent.evaluate (hi : i.Coherent) (hidle : i.uses = [])
    (hv : i.heap.self.Alike v v) (h : Lisplet.evaluate n v i = .ok u j) :
    j.Coherent ∧ j.uses = [] ∧ i.heap.Evolves j.heap ∧ j.heap.self.Alike u u := by
  have hdepth : ∀ n, Lockstep.evolution.nests n →
      n.left < n.leftLimit ∨ ¬ n.right < n.rightLimit := by
    rintro n ⟨hlevel, hlimit⟩
    omega
  have hdrives : Lockstep.evolution.Drives (.ofFuel n) (.ofFuel n) :=
    Lockstep.drives_self hdepth (.inl rfl)
  have hrel : Lockstep.evolution.Rel i.heap ⟨i.depth, i.maxDepth, i.depth, i.maxDepth⟩ i i :=
    ⟨⟨rfl, rfl, hi.heap⟩, hi.env, rfl, rfl, rfl, by rw [hidle]; exact .nil, ⟨rfl, rfl⟩, rfl, rfl,
      rfl, rfl⟩
  have hends := hdrives.evaluate hv i i hrel
  change Lockstep.Ends (S := .evolution) i.heap _ _ (Lisplet.evaluate n v i)
    (Lisplet.evaluate n v i) at hends
  rw [h] at hends
  obtain ⟨w, hevolves, hrel', hu⟩ := hends
  obtain ⟨rfl, hj⟩ := hrel'.coherent
  exact ⟨hj, (Engine.idles_ofFuel n).of_ok hidle h, hevolves, hu⟩

theorem Values.coherent (h : Values (evaluate n) forms i vs j) (hi : i.Coherent)
    (hidle : i.uses = []) (hforms : i.heap.self.AlikeAll forms forms) :
    j.Coherent ∧ j.uses = [] ∧ i.heap.Evolves j.heap ∧ j.heap.self.AlikeAll vs vs := by
  induction h with
  | nil i => exact ⟨hi, hidle, .refl _, .nil⟩
  | cons heval _ _ ih =>
    cases hforms with
    | cons hform hrest =>
      obtain ⟨hj, hidle', hevolves, hv⟩ := hi.evaluate hidle hform heval
      obtain ⟨hk, hidle'', hevolves', hvs⟩ := ih hj hidle' (hrest.mono hevolves.within)
      exact ⟨hk, hidle'', hevolves.trans hevolves', .cons (hv.mono hevolves'.within) hvs⟩

theorem Values.of_le (hle : m ≤ n) (h : Values (evaluate m) forms i vs j) :
    Values (evaluate n) forms i vs j := by
  induction h with
  | nil i => exact .nil i
  | cons heval hsignal _ ih => exact .cons (evaluate_of_le hle heval) hsignal ih

end

/-! ## Calls and applications -/

/-- The expression that applies a function to a list of arguments. -/
def application (f : Value) (args : List Value) : Value :=
  .expr [.symbol "apply", f, .expr (.symbol "list" :: args)]

section

variable {m n : Nat} {i j j' k l : Interpreter} {f v v' callee : Value} {args vs : List Value}

theorem callable_of_evaluatesArguments (h : callee.evaluatesArguments = true) :
    callee.isSignal = false ∧ callee.isCallable = true := by
  cases callee with
  | closure | checked => exact ⟨rfl, rfl⟩
  | _ => cases h

/-- A call that comes to a result applies the function to the values of the arguments. -/
theorem exists_of_call (hcallee : callee.evaluatesArguments = true)
    (hf : evaluate n f (i.deeper 1) = .ok callee k) (hvalues : Values (evaluate n) args k vs l)
    (h : evaluate (n + 1) (.expr (f :: args)) i = .ok v j) :
    ∃ j₁, (Engine.ofFuel n).applyTo callee vs l = .ok v j₁ ∧
      j = { j₁ with depth := j₁.depth - 1 } := by
  obtain ⟨hsignal, -⟩ := callable_of_evaluatesArguments hcallee
  obtain ⟨j₁, hcall, hj⟩ := exists_of_step_expr h
  refine ⟨j₁, ?_, hj⟩
  change (Engine.ofFuel n).value f (fun u => (Engine.ofFuel n).call u args) (i.deeper 1) = .ok v j₁
    at hcall
  rw [Engine.value_of_not_signal hf hsignal] at hcall
  have haccepts := accepts_of_call (e := .ofFuel n) hvalues hcallee hcall
  rw [← call_eq_applyTo (e := .ofFuel n) hvalues hcallee haccepts, hcall]

/-- An application that comes to a result applies the function to the values of the arguments, with
the cell of the list in the heap. -/
theorem exists_of_application (hcallee : callee.evaluatesArguments = true) {id id' : Nat}
    {title title' : String} (hidle : l.uses = [])
    (happly : i.env.get? "apply" = some (.checked id title [.function, .any] .apply))
    (hlist : k.env.get? "list" = some (.checked id' title' [.rest] .list))
    (hf : evaluate n f (i.deeper 1) = .ok callee k) (hvalues : Values (evaluate n) args k vs l)
    (hle : m ≤ n) (h : (Engine.strict m).evaluate (application f args) i = .ok v j) :
    ∃ m' j₁, m' ≤ n ∧ (Engine.strict m').applyTo callee vs
        { l with heap := (l.heap.newList vs).2 } = .ok v j₁ ∧
      j = { j₁ with depth := j₁.depth - 1 } := by
  obtain ⟨hsignal, hcallable⟩ := callable_of_evaluatesArguments hcallee
  obtain ⟨m, j₁, rfl, hcall, hj⟩ := exists_of_strict_expr h
  have hcall := call_of_strict (i := i.deeper 1) (by decide +kernel) happly hcall
  obtain ⟨u, k', hu, hcall⟩ := exists_of_call_apply hcall
  obtain ⟨_, hk', rfl⟩ := evaluate_of_strict (d := 0) (i := i.deeper 1) (Nat.le_of_succ_le hle) hu
  cases hk'.symm.trans hf
  obtain ⟨w, l', hw, hcall⟩ := hcall hsignal hcallable
  obtain ⟨rfl, rfl⟩ := strict_list (Nat.le_of_succ_le hle) hlist hvalues hw
  have hsignal' : (l.heap.newList vs).1.isSignal = false := by
    cases vs <;> rfl
  have hcall := hcall hsignal'
  rw [apply_newList hidle] at hcall
  cases m with
  | zero => cases hcall
  | succ m => exact ⟨m, j₁, by omega, hcall, hj⟩

/-- With one cell more in the heap, a function that is applied does what it does without it. -/
theorem applyTo_inserts (hl : l.Coherent) (hidle : l.uses = [])
    (hcallee : l.heap.self.Alike callee callee) (hvs : l.heap.self.AlikeAll vs vs) (hne : vs ≠ [])
    (hle : m ≤ n)
    (happlied : (Engine.strict m).applyTo callee vs { l with heap := (l.heap.newList vs).2 } =
      .ok v' j')
    (hcalled : (Engine.ofFuel n).applyTo callee vs l = .ok v j) :
    ∃ n, Lockstep.insertion.Rel (l.heap.size, .list vs) n j' j ∧
      (Pairing.along (shift l.heap.size)).Alike v' v := by
  have hwithin := l.heap.self_within_along
  have hnewList : (l.heap.newList vs).2 = (l.heap.alloc (.list vs)).2 := by
    cases vs with
    | nil => exact absurd rfl hne
    | cons => rfl
  rw [hnewList] at happlied
  have hrel : Lockstep.insertion.Rel (l.heap.size, .list vs)
      ⟨l.depth, l.maxDepth, l.depth, l.maxDepth⟩
      { l with heap := (l.heap.alloc (.list vs)).2 } l :=
    ⟨hl.heap.inserts_alloc _, hl.env.mono hwithin, rfl, rfl, rfl, by rw [hidle]; exact .nil,
      ⟨rfl, rfl⟩, rfl, rfl, rfl, rfl⟩
  have hdrives : Lockstep.insertion.Drives (.strict m) (.ofFuel n) :=
    Lockstep.drives_strict (S := .insertion) (.inl rfl) id (.inr ⟨.inr rfl, id, hle⟩)
  have hends := Lockstep.sim_applyTo (S := .insertion) (w := (l.heap.size, .list vs)) hdrives
    (hcallee.mono hwithin) (hvs.mono hwithin) _ _ hrel
  rw [happlied, hcalled] at hends
  obtain ⟨_, rfl, hrel', hv⟩ := hends
  exact ⟨_, hrel', hv⟩

/-- Without arguments there is no cell more: the application does the very same as the call. -/
theorem applyTo_nil (hle : m ≤ n)
    (happlied : (Engine.strict m).applyTo callee [] l = .ok v' j')
    (hcalled : (Engine.ofFuel n).applyTo callee [] l = .ok v j) : v' = v ∧ j' = j := by
  obtain ⟨_, hcalled', rfl⟩ := Levels.ok_of_simulates (d := 0) (i := l) (Pairing.Alike.eq (.refl _))
    (fun _ => Lockstep.sim_applyTo (Levels.drives_apart 0 hle) (.refl callee) .nil) happlied
  cases hcalled'.symm.trans hcalled
  exact ⟨rfl, rfl⟩

end

/-- A function that evaluates all its arguments, called with forms that come to values which it
accepts, does from the first state what it does applied to these values in the state that the forms
have left.

Wherever `apply` and `list` are the operations of these names, the expression that calls such a
function and the one that applies it to a list of the arguments come to the same, if both come to a
result and the second, which goes one level deeper than the first, is never refused a level. Without
arguments nothing at all is different. Otherwise the second leaves one cell more, the list, at the
first address that was free when the arguments had been evaluated, and what was made afterwards is one
address further along. -/
theorem calls_agree_with_applications {callee : Value} (hcallee : callee.evaluatesArguments = true) :
    (∀ (e : Engine) forms i vs j, Values e.evaluate forms i vs j → callee.accepts vs = true →
      e.call callee forms i = e.applyTo callee vs j) ∧
    ∀ (i : Interpreter) (f : Value) (args : List Value), i.Coherent → i.uses = [] →
      i.heap.self.AlikeAll (f :: args) (f :: args) →
      (∃ id title, i.env.get? "apply" = some (.checked id title [.function, .any] .apply)) →
      ∀ n k vs l, evaluate n f (i.deeper 1) = .ok callee k →
        (∃ id title, k.env.get? "list" = some (.checked id title [.rest] .list)) →
        Values (evaluate n) args k vs l →
        ∀ m v j v' j', evaluate (n + 1) (.expr (f :: args)) i = .ok v j →
          evaluate m (application f args) i = .ok v' j' →
          (∀ k, (Engine.strict m).evaluate (application f args) i ≠ .error .alarm k) →
          (args = [] → v' = v ∧ j' = j) ∧
          (args ≠ [] → (Pairing.along (shift l.heap.size)).Alike v' v ∧
            j'.Inserts l.heap.size (.list vs) j) := by
  refine ⟨fun e forms i vs j h haccepts => call_eq_applyTo h hcallee haccepts, ?_⟩
  rintro i f args hi hidle hforms ⟨id, title, happly⟩ n k vs l hf ⟨id', title', hlist⟩ hvalues m v j
    v' j' hcalled happlied hrefused
  -- With the same amount of fuel for both, which is enough for either.
  have hn : n ≤ max n m := Nat.le_max_left n m
  have hcalled := evaluate_of_le (Nat.succ_le_succ hn) hcalled
  have hf := evaluate_of_le hn hf
  have hvalues := hvalues.of_le hn
  cases hforms with
  | cons hform hargs =>
    have hi₁ : (i.deeper 1).Coherent := ⟨hi.heap, hi.env⟩
    obtain ⟨hk, hkidle, hevolves, hself⟩ := hi₁.evaluate hidle hform hf
    obtain ⟨hl, hlidle, hevolves', hvs⟩ := hvalues.coherent hk hkidle (hargs.mono hevolves.within)
    obtain ⟨-, hjidle, -⟩ := hi.evaluate hidle (.expr (.cons hform hargs)) hcalled
    obtain ⟨j₁, hcall, rfl⟩ := exists_of_call hcallee hf hvalues hcalled
    obtain ⟨m', j₁', hle, happly, rfl⟩ := exists_of_application hcallee hlidle happly hlist hf
      hvalues (Nat.le_max_right n m) (strict_of_evaluate happlied hrefused)
    constructor
    · rintro rfl
      cases hvalues
      obtain ⟨rfl, rfl⟩ := applyTo_nil hle happly hcall
      exact ⟨rfl, rfl⟩
    · intro hne
      have hne : vs ≠ [] := by
        rintro rfl
        cases hvalues
        exact hne rfl
      obtain ⟨_, hrel, hv⟩ := applyTo_inserts hl hlidle (hself.mono hevolves'.within) hvs hne hle
        happly hcall
      have hinserts := hrel.inserts hjidle
      have hdepth : j₁'.depth = j₁.depth := by rw [hinserts.rest]
      rw [hdepth]
      exact ⟨hv, hinserts.withDepth _⟩

def pairBody : Value :=
  .expr [.symbol "list", .symbol "x", .int 1]

/-- A state in which `apply` and `list` are bound, and such a function. -/
def Interpreter.listing : Interpreter :=
  { maxDepth := 9,
    env := { globals := [("apply", .checked 0 "apply" [.function, .any] .apply),
      ("list", .checked 1 "list" [.rest] .list), ("g", .closure 2 [] ["x"] pairBody)] } }

theorem Interpreter.coherent_listing : Interpreter.listing.Coherent := by
  have hbody : Interpreter.listing.heap.self.Alike pairBody pairBody :=
    .expr (.cons (.symbol _) (.cons (.symbol _) (.cons (.int 1) .nil)))
  refine ⟨⟨nofun, nofun⟩, .cons "apply" (.checked ..) (.cons "list" (.checked ..) ?_), .nil⟩
  exact .cons "g" (.closure _ _ .nil hbody) .nil

-- The list of the arguments is made first, so that the one that the function makes comes second.
theorem calls_agree_with_applications_listed :
    ∃ j j', evaluate 5 (.expr [.symbol "g", .int 5]) .listing = .ok (.list 0) j ∧
      evaluate 7 (application (.symbol "g") [.int 5]) .listing = .ok (.list 1) j' ∧
      j'.Inserts 0 (.list [.int 5]) j := by
  let j : Interpreter := { Interpreter.listing with heap := ⟨#[.list [.int 5, .int 1]]⟩ }
  let j' : Interpreter :=
    { Interpreter.listing with heap := ⟨#[.list [.int 5], .list [.int 5, .int 1]]⟩ }
  have hcalled : evaluate 5 (.expr [.symbol "g", .int 5]) .listing = .ok (.list 0) j := by cbv
  have happlied : evaluate 7 (application (.symbol "g") [.int 5]) .listing = .ok (.list 1) j' := by
    cbv
  have hstrict : (Engine.strict 7).evaluate (application (.symbol "g") [.int 5]) .listing =
      .ok (.list 1) j' := by
    cbv
  have hf : evaluate 4 (.symbol "g") (Interpreter.listing.deeper 1) =
      .ok (.closure 2 [] ["x"] pairBody) (Interpreter.listing.deeper 1) := by
    cbv
  have hrefused : ∀ k, (Engine.strict 7).evaluate (application (.symbol "g") [.int 5]) .listing ≠
      .error .alarm k := by
    intro k halarm
    cases hstrict.symm.trans halarm
  have hcallee : (Value.closure 2 [] ["x"] pairBody).evaluatesArguments = true := rfl
  obtain ⟨-, hagree⟩ := calls_agree_with_applications hcallee
  obtain ⟨-, hinserts⟩ := hagree .listing (.symbol "g") [.int 5] Interpreter.coherent_listing rfl
    (.cons (.symbol _) (.cons (.int 5) .nil)) ⟨_, _, rfl⟩ 4 _ [.int 5] _ hf ⟨_, _, rfl⟩
    (.cons rfl rfl (.nil _)) 7 _ _ _ _ hcalled happlied hrefused
  exact ⟨j, j', hcalled, happlied, (hinserts (List.cons_ne_nil _ _)).2⟩

end Lisplet
