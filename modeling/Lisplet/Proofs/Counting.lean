import Lisplet.Proofs.Expressions
import Lisplet.Proofs.Shadowing

/-!
# Counted loops

A `for` loop is a fold over the integers from its first bound up to, but not including, its second.
Which integers these are is settled before the first pass: nothing the body does changes how many
passes there are, or what the variable is when a pass begins. Every pass has a frame to itself that
binds the variable and nothing else, and the frame is gone when the pass has ended.

`Passes` is a run of passes that all came to their end, `Stops` the ways in which a pass ends the
loop.
-/

namespace Lisplet

open Eval Builtin Policy

/-! ## The integers of a loop -/

def countingFrom (k : Int) (passes : Nat) : List Int64 :=
  (List.range passes).map fun d : Nat => Int64.ofInt (k + d)

theorem countingFrom_succ (k : Int) (passes : Nat) :
    countingFrom k (passes + 1) = Int64.ofInt k :: countingFrom (k + 1) passes := by
  simp only [countingFrom, List.range_succ_eq_map, List.map_cons, List.map_map]
  congr 1
  · simp
  · apply List.map_congr_left
    intro d _
    simp only [Function.comp_apply]
    congr 1
    omega

/-- The integers from `m` up to, but not including, `n`. -/
def upTo (m n : Int64) : List Int64 :=
  countingFrom m.toInt (n.toInt - m.toInt).toNat

theorem length_upTo (m n : Int64) : ((upTo m n).length : Int) = max 0 (n.toInt - m.toInt) := by
  simp [upTo, countingFrom, Int.max_comm]

/-- Counting stays between the bounds, so it leaves the range of integers at neither end. -/
theorem toInt_getElem_upTo {m n : Int64} {d : Nat} (h : d < (upTo m n).length) :
    (upTo m n)[d].toInt = m.toInt + d := by
  have hd : (d : Int) < max 0 (n.toInt - m.toInt) := by
    rw [← length_upTo]
    exact_mod_cast h
  have hlow := m.le_toInt
  have hhigh := n.toInt_lt
  simp only [upTo, countingFrom, List.getElem_map, List.getElem_range]
  exact Int64.toInt_ofInt_of_le (by omega) (by omega)

/-! ## Passes -/

section

variable (e : Engine) (name : String) (body : List Value)

/-- The state in which a pass runs the body: a new frame binds the variable and nothing else. -/
def Interpreter.entering (i : Interpreter) (name : String) (k : Int64) : Interpreter :=
  { i with env := i.env.push [(name, .int k)] }

def Interpreter.popped (i : Interpreter) : Interpreter :=
  { i with env := i.env.pop.2 }

/-- Passes with the given values of the variable, one after the other, that all come to their end,
from a first state to a last one and with the values they come to. -/
inductive Passes : List Int64 → Interpreter → List Value → Interpreter → Prop
  | nil (i : Interpreter) : Passes [] i [] i
  | cons {k : Int64} {ks : List Int64} {v : Value} {vs : List Value} {i j l : Interpreter} :
      e.runBody body (i.entering name k) = .ok (.next v) j → Passes ks j.popped vs l →
      Passes (k :: ks) i (v :: vs) l

/-- A pass that ends the loop, and the result of the loop. -/
inductive StopsAt (k : Int64) (i : Interpreter) : EStateM.Result Halt Interpreter Value → Prop
  | error {h : Halt} {j : Interpreter} :
      e.runBody body (i.entering name k) = .error h j → StopsAt k i (.error h j.popped)
  | leave {v : Value} {j : Interpreter} :
      e.runBody body (i.entering name k) = .ok (.leave v) j → StopsAt k i (.ok v j.popped)
  | exit {v : Value} {j : Interpreter} :
      e.runBody body (i.entering name k) = .ok (.exit v) j → StopsAt k i (.ok v j.popped)
  | goto {target : String} {j : Interpreter} :
      e.runBody body (i.entering name k) = .ok (.goto target) j →
      StopsAt k i (.ok (.goto target) j.popped)

end

section

variable {e : Engine} {name : String} {body : List Value} {k : Int64} {ks : List Int64}
  {v : Value} {vs : List Value} {i j l : Interpreter} {flow : Flow} {h : Halt}

theorem Passes.length_eq (hpasses : Passes e name body ks i vs j) : vs.length = ks.length := by
  induction hpasses with
  | nil => rfl
  | cons _ _ ih => rw [List.length_cons, List.length_cons, ih]

/-- Passes come to their end, or there is a first one that ends the loop. -/
theorem passes_or_stopsAt (e : Engine) (name : String) (body : List Value) (ks : List Int64)
    (i : Interpreter) :
    (∃ vs j, Passes e name body ks i vs j) ∨
      ∃ before k after vs j r, ks = before ++ k :: after ∧ Passes e name body before i vs j ∧
        StopsAt e name body k j r := by
  induction ks generalizing i with
  | nil => exact .inl ⟨[], i, .nil i⟩
  | cons k ks ih =>
    have hstops : ∀ {r}, StopsAt e name body k i r →
        ∃ before c after vs j r, k :: ks = before ++ c :: after ∧
          Passes e name body before i vs j ∧ StopsAt e name body c j r :=
      fun hstops => ⟨[], k, ks, [], i, _, rfl, .nil i, hstops⟩
    cases hrun : e.runBody body (i.entering name k) with
    | error h j => exact .inr (hstops (.error hrun))
    | ok flow j =>
      cases flow with
      | leave v => exact .inr (hstops (.leave hrun))
      | exit v => exact .inr (hstops (.exit hrun))
      | goto target => exact .inr (hstops (.goto hrun))
      | next v =>
        rcases ih j.popped with ⟨vs, l, hpasses⟩ | ⟨before, c, after, vs, l, r, hks, hpasses, hstop⟩
        · exact .inl ⟨v :: vs, l, .cons hrun hpasses⟩
        · refine .inr ⟨k :: before, c, after, v :: vs, l, r, ?_, .cons hrun hpasses, hstop⟩
          rw [hks, List.cons_append]

variable (he : e.Sound lax)
include he

-- The body leaves as many frames as it finds, so the guard of the frame takes away this frame only.
theorem release_runBody (body : List Value) (frame : Record Value) (i : Interpreter) :
    let s := (Interpreter.run { i with env := (i.env.scope frame).1 } (e.runBody body)).2
    { s with env := s.env.release (i.env.scope frame).2 } = s.popped := by
  intro s
  have hkeeps : Interpreter.Keeps { i with env := (i.env.scope frame).1 } s :=
    (sound_runBody he (lax_permissive.allowsAll body)).keeps _
  have hlength : s.env.frames.length = i.env.frames.length + 1 := by
    simpa [Environment.scope, Environment.push] using congrArg List.length hkeeps.frames
  have hframes := Environment.frames_release_scope (f := frame) hlength
  obtain ⟨f, fs, hcons⟩ := List.exists_cons_of_length_eq_add_one hlength
  have hrelease : s.env.release (i.env.scope frame).2 = s.env.pop.2 := by
    rw [hcons, List.tail_cons] at hframes
    simp only [Environment.pop, hcons]
    exact congrArg (Environment.mk s.env.globals) hframes
  rw [hrelease]
  rfl

/-- A pass runs the body in its frame, which is gone afterwards. -/
theorem runIteration_eq (name : String) (body : List Value) (k : Int64) (i : Interpreter) :
    e.runIteration [(name, .int k)] body i =
      match e.runBody body (i.entering name k) with
      | .ok flow j => .ok flow j.popped
      | .error h j => .error h j.popped := by
  have hrelease := release_runBody he body [(name, .int k)] i
  have hinside : e.runBody body { i with env := (i.env.scope [(name, .int k)]).1 } =
      e.runBody body (i.entering name k) := rfl
  unfold Interpreter.run at hrelease
  unfold Engine.runIteration inFrame
  simp only [hinside] at hrelease ⊢
  cases hrun : e.runBody body (i.entering name k) with
  | ok flow j =>
    rw [hrun] at hrelease
    exact congrArg (EStateM.Result.ok flow) hrelease
  | error h j =>
    rw [hrun] at hrelease
    exact congrArg (EStateM.Result.error h) hrelease

/-- Between two passes the frames bind the names they did, and every place that can bind the
variable holds what it did. -/
theorem Passes.frames (hpasses : Passes e name body ks i vs j) :
    j.env.frames.map Record.keys = i.env.frames.map Record.keys ∧
      j.env.slots name = i.env.slots name := by
  induction hpasses with
  | nil => exact ⟨rfl, rfl⟩
  | @cons k ks v vs i j l hrun _ ih =>
    have hpass := runIteration_eq he name body k i
    rw [hrun] at hpass
    have hkeeps := (sound_runIteration he (lax_permissive.allowsFields [(name, .int k)])
      (lax_permissive.allowsAll body)).keeps i
    have hframe : Record.has name [(name, Value.int k)] = true := by
      simp [Record.has, Record.get?]
    have hslots := (spares_runIteration he body hframe).slots_of_ok hpass
    rw [Interpreter.run, hpass] at hkeeps
    exact ⟨ih.1.trans hkeeps.frames, ih.2.trans hslots⟩

/-! ## Counting -/

-- By induction on the passes that are left; the value so far is that of the last pass, if any.
theorem countPasses_of_passes {passes : Nat} {c : Int}
    (hpasses : Passes e name body (countingFrom c passes) i vs j) (result : Value) :
    countPasses e name body passes c result i = .ok (vs.getLastD result) j := by
  induction passes generalizing c i vs result with
  | zero =>
    cases hpasses
    rfl
  | succ passes ih =>
    rw [countingFrom_succ] at hpasses
    cases hpasses with
    | @cons _ _ v vs _ k _ hrun hrest =>
      have hpass := runIteration_eq he name body (Int64.ofInt c) i
      rw [hrun] at hpass
      refine (bind_of_ok hpass).trans ((ih hrest v).trans ?_)
      rw [List.getLastD_cons]

theorem countPasses_of_stopsAt {passes : Nat} {c : Int} {before after : List Int64}
    {r : EStateM.Result Halt Interpreter Value}
    (hsplit : countingFrom c passes = before ++ k :: after)
    (hpasses : Passes e name body before i vs j) (hstops : StopsAt e name body k j r)
    (result : Value) : countPasses e name body passes c result i = r := by
  induction passes generalizing c i before vs result with
  | zero => simp [countingFrom] at hsplit
  | succ passes ih =>
    rw [countingFrom_succ] at hsplit
    have hpass := runIteration_eq he name body (Int64.ofInt c) i
    cases hpasses with
    | nil =>
      obtain ⟨rfl, -⟩ := List.cons.inj hsplit
      cases hstops with
      | error hrun => exact bind_of_error (hpass.trans (by rw [hrun]))
      | leave hrun | exit hrun | goto hrun => exact bind_of_ok (hpass.trans (by rw [hrun]))
    | cons hrun hrest =>
      obtain ⟨rfl, htail⟩ := List.cons.inj hsplit
      rw [hrun] at hpass
      exact (bind_of_ok hpass).trans (ih htail hrest _)

end

/-! ## The loop -/

/-- The expression `(for name first bound form ...)`. -/
def countedLoop (name : String) (first bound : Value) (body : List Value) : Value :=
  .expr (.symbol "for" :: .symbol name :: first :: bound :: body)

section

variable {fuel id : Nat} {title name : String} {first bound : Value} {m n : Int64}
  {i j k : Interpreter}

theorem callForm_for
    (hfor : i.env.get? "for" =
      some (.checked id title [.unevaluated, .integer, .integer, .restUnevaluated] .forLoop))
    (hm : evaluate fuel first i = .ok (.int m) j) (hn : evaluate fuel bound j = .ok (.int n) k)
    (var : Value) (body : List Value) :
    (Engine.ofFuel fuel).callForm (.symbol "for" :: var :: first :: bound :: body) i =
      forLoop (.ofFuel fuel) (var :: .int m :: .int n :: body) k := by
  cases fuel with
  | zero => cases hm
  | succ fuel =>
    have hsimple : Path.isSimple "for" = true := by decide +kernel
    rw [callForm_of_bound hsimple hfor rfl]
    exact call_for_of_bounds hm hn

theorem forLoop_eq (e : Engine) (var : Value) (m n : Int64) (body : List Value) :
    forLoop e (var :: .int m :: .int n :: body) = loopVariable var >>= fun name =>
      countPasses e name body (n.toInt - m.toInt).toNat m.toInt .nil := rfl

theorem forLoop_of_simple (hname : Path.isSimple name = true) (e : Engine) (m n : Int64)
    (body : List Value) :
    forLoop e (.symbol name :: .int m :: .int n :: body) =
      countPasses e name body (n.toInt - m.toInt).toNat m.toInt .nil := by
  have hvariable : loopVariable (.symbol name) = pure name := if_pos hname
  rw [forLoop_eq, hvariable]
  rfl

theorem forLoop_of_not_simple (hname : Path.isSimple name = false) (hidle : i.uses = [])
    (e : Engine) (m n : Int64) (body : List Value) :
    forLoop e (.symbol name :: .int m :: .int n :: body) i =
      .error (.error { cause := .invalidLocalName name }) i := by
  have hvariable : loopVariable (.symbol name) = failWith .invalidLocalName (.symbol name) :=
    if_neg (by simp [hname])
  rw [forLoop_eq, hvariable]
  exact bind_of_error (failWith_of_idle hidle _ _)

end

/-- A counted loop is a fold over a half-open range. Its integers are `m`, `m + 1` and so on, as
many as the bounds are apart, and none if they are in the wrong order. If the passes with these
integers all come to their end, the loop comes to the value of the last one, or to `Nil`, in the
state they lead to; if there is a first pass that does not, the loop comes to what ends this pass,
and runs no other. One of the two is the case. Between passes all frames are there and bind the
names they did, and no binding of the variable outside of a pass has been changed. A variable that
is not a single segment is an error, and no pass is run. -/
theorem counted_loop_folds_range {fuel id : Nat} {title name : String} {first bound : Value}
    {m n : Int64} {i j k : Interpreter} (hidle : i.uses = []) (hdepth : i.depth < i.maxDepth)
    (hfor : i.env.get? "for" =
      some (.checked id title [.unevaluated, .integer, .integer, .restUnevaluated] .forLoop))
    (hm : evaluate fuel first (i.deeper 1) = .ok (.int m) j)
    (hn : evaluate fuel bound j = .ok (.int n) k) (body : List Value) :
    let loop := countedLoop name first bound body
    let passes := Passes (.ofFuel fuel) name body
    let stopsAt := StopsAt (.ofFuel fuel) name body
    (((upTo m n).length : Int) = max 0 (n.toInt - m.toInt) ∧
      ∀ (d : Nat) (h : d < (upTo m n).length), (upTo m n)[d].toInt = m.toInt + d) ∧
    (Path.isSimple name = true →
      (∀ vs l, passes (upTo m n) k vs l →
        evaluate (fuel + 1) loop i = surfaced loop (.ok (vs.getLastD .nil) l)) ∧
      (∀ before c after vs l r, upTo m n = before ++ c :: after → passes before k vs l →
        stopsAt c l r → evaluate (fuel + 1) loop i = surfaced loop r)) ∧
    ((∃ vs l, passes (upTo m n) k vs l) ∨
      ∃ before c after vs l r, upTo m n = before ++ c :: after ∧ passes before k vs l ∧
        stopsAt c l r) ∧
    (∀ ks vs l, passes ks k vs l → vs.length = ks.length ∧
      l.env.frames.map Record.keys = k.env.frames.map Record.keys ∧
      l.env.slots name = k.env.slots name) ∧
    (Path.isSimple name = false → evaluate (fuel + 1) loop i =
      surfaced loop (.error (.error { cause := .invalidLocalName name }) k)) := by
  intro loop passes stopsAt
  have he : (Engine.ofFuel fuel).Sound lax := sound_engine trivial fuel
  have hloop : evaluate (fuel + 1) loop i = surfaced loop
      (forLoop (.ofFuel fuel) (.symbol name :: .int m :: .int n :: body) k) :=
    (evaluate_expr hidle hdepth fuel _).trans
      (congrArg (surfaced loop) (callForm_for (i := i.deeper 1) hfor hm hn (.symbol name) body))
  refine ⟨⟨length_upTo m n, fun _ h => toInt_getElem_upTo h⟩, ?_, ?_, ?_, ?_⟩
  · intro hname
    rw [forLoop_of_simple hname] at hloop
    constructor
    · intro vs l hpasses
      rw [hloop, countPasses_of_passes he hpasses]
    · intro before c after vs l r hsplit hpasses hstops
      rw [hloop, countPasses_of_stopsAt he hsplit hpasses hstops]
  · exact passes_or_stopsAt _ _ _ _ _
  · intro ks vs l hpasses
    exact ⟨hpasses.length_eq, hpasses.frames he⟩
  · intro hname
    have hkidle : k.uses = [] := uses_of_ok (uses_of_ok (i := i.deeper 1) hidle hm) hn
    rw [hloop, forLoop_of_not_simple hname hkidle]

def Interpreter.looping : Interpreter where
  env := {
    globals := [
      ("for", .checked 0 "for" [.unevaluated, .integer, .integer, .restUnevaluated] .forLoop),
      ("return", .primitive 1 "return" .leave),
      ("setq", .checked 2 "setq" [.unevaluated, .any] .assign),
      ("k", .int 7)] }
  maxDepth := 9

-- The last two integers below the upper end, with a body that assigns to the variable; no pass at
-- all from one end to the other; and a body that returns in its first pass of the longest loop.
theorem counted_loop_folds_range_extremes :
    let top : Value := .int Int64.maxValue
    let low : Value := .int Int64.minValue
    let body : List Value := [.expr [.symbol "setq", .symbol "k", low]]
    (∃ j, evaluate 5 (countedLoop "k" (.int (Int64.maxValue - 2)) top body) .looping = .ok low j ∧
      j.env.get? "k" = some (.int 7)) ∧
    (∃ j, evaluate 5 (countedLoop "k" top low body) .looping = .ok .nil j) ∧
    (∃ j, evaluate 5 (countedLoop "k" low top [.expr [.symbol "return", .symbol "k"]]) .looping =
      .ok low j) := by
  intro top low body
  have hrange : upTo (Int64.maxValue - 2) Int64.maxValue =
      [Int64.maxValue - 2, Int64.maxValue - 1] := by decide +kernel
  have hnone : upTo Int64.maxValue Int64.minValue = [] := by decide +kernel
  have hall : ∃ rest, upTo Int64.minValue Int64.maxValue = Int64.minValue :: rest := by
    have hpasses : (Int64.maxValue.toInt - Int64.minValue.toInt).toNat =
        18446744073709551614 + 1 := by decide
    rw [upTo, hpasses, countingFrom_succ]
    exact ⟨_, rfl⟩
  have hname : Path.isSimple "k" = true := by decide +kernel
  refine ⟨?_, ?_, ?_⟩
  · obtain ⟨-, hruns, -⟩ := @counted_loop_folds_range 4 _ _ "k" (.int (Int64.maxValue - 2)) top _ _
      .looping _ _ rfl (by decide) rfl rfl rfl body
    rw [hrange] at hruns
    exact ⟨_, (hruns hname).1 [low, low] _ (.cons rfl (.cons rfl (.nil _))), rfl⟩
  · obtain ⟨-, hruns, -⟩ := @counted_loop_folds_range 4 _ _ "k" top low _ _ .looping _ _ rfl
      (by decide) rfl rfl rfl body
    rw [hnone] at hruns
    exact ⟨_, (hruns hname).1 [] _ (.nil _)⟩
  · obtain ⟨rest, hall⟩ := hall
    obtain ⟨-, hruns, -⟩ := @counted_loop_folds_range 4 _ _ "k" low top _ _ .looping _ _ rfl
      (by decide) rfl rfl rfl [.expr [.symbol "return", .symbol "k"]]
    exact ⟨_, (hruns hname).2 [] _ rest [] _ _ hall (.nil _) (.leave rfl)⟩

end Lisplet
