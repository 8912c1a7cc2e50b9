import Lisplet.Proofs.Reachable
import Lisplet.Proofs.Trace

/-!
# Crashes

No operation of a session is handed fewer arguments than it takes for granted: the contracts of the
prelude see to that. The other crash is to look into a cell that is in use. Only one operation ever
keeps a cell in use for writing while something else is looked at. It is `set@`, which has taken hold
of its list when it finds fault with the index, and the message of that fault shows the index. So a
session crashes only where a list is to be written at an index that is not an integer and from which
there is a way to that very list.
-/

namespace Lisplet

namespace Policy

/-- Operations get the arguments they take for granted, and only a cell in use can cause a crash. -/
def fitting : Policy where
  primitive contract op := op.Fits contract
  jump := True
  cell _ := True
  crash c := c = .cellInUse
  exhaust := True
  jump_of_goto _ := trivial
  missing_of_unfit hop hunfit := absurd hop hunfit
  inUse_of_store _ := rfl

end Policy

open Policy Eval Builtin

/-- Every primitive of the prelude has a contract that promises enough arguments. -/
theorem prelude_fits : ∀ d ∈ Prelude.definitions, d.op.Fits d.contract := by
  decide

variable {fuel : Nat} {i j k : Interpreter} {q : Request} {op : Operation} {args : List Value}
  {forms : List Value} {form v result : Value}

theorem Interpreter.Reachable.fitting_admits (h : i.Reachable) : fitting.Admits i :=
  h.admits trivial (fun _ => trivial) prelude_fits

/-! ## Which operation crashes -/

/-- With `fuel` to start from, the request performs an operation on `args` in state `k`, or one that
it comes to does. -/
def Request.ComesToPerform (fuel : Nat) (q : Request) (i : Interpreter) (op : Operation)
    (args : List Value) (k : Interpreter) : Prop :=
  ∃ n q' j, ComesTo fuel q i (n + 1) q' j ∧ q'.Performs (Engine.ofFuel n) j op args k

theorem Request.ComesToPerform.idle (h : q.ComesToPerform fuel i op args k) (hidle : i.uses = []) :
    k.uses = [] := by
  obtain ⟨n, q', j, hcome, hperform⟩ := h
  exact hperform.idle (Engine.steady_ofFuel n) (hcome.idle hidle)

/-- A request crashes over a cell in use exactly if it comes to a call of `set@` with a list and an
index of its own. -/
theorem ask_crash_iff (hidle : i.uses = []) :
    (∃ j, (Engine.ofFuel fuel).ask q i = .error (.crash .cellInUse) j) ↔
      ∃ args k, q.ComesToPerform fuel i .store args k ∧ k.heap.OwnIndex args := by
  constructor
  · rintro ⟨j, hend⟩
    obtain ⟨n, q', l, hcome, ⟨m, hraise⟩, hmissing | ⟨op, args, k, hperform, hbring⟩⟩ :=
      exists_origin hidle hend
    · cases hmissing
    · have hprogram : q'.program (Engine.ofFuel n) l = .error (.crash .cellInUse) m :=
        Engine.eq_of_tagged hraise
      have hstore := hperform.halts_iff.mp ⟨m, hprogram⟩
      have hk : k.uses = [] := hperform.idle (Engine.steady_ofFuel n) (hcome.idle hidle)
      cases hbring with
      | store => exact ⟨_, k, ⟨n, q', l, hcome, hperform⟩, (store_crash_iff hk).mp hstore⟩
  · rintro ⟨args, k, ⟨n, q', l, hcome, hperform⟩, hown⟩
    have hk : k.uses = [] := hperform.idle (Engine.steady_ofFuel n) (hcome.idle hidle)
    obtain ⟨m, hprogram⟩ := hperform.halts_iff.mpr ((store_crash_iff hk).mpr hown)
    have hask : (Engine.ofFuel (n + 1)).ask q' l = .error (.crash .cellInUse) m := by
      rw [ask_succ (hcome.idle hidle), hprogram]
      rfl
    exact hcome.stops hidle (Halt.stops_crash _) ⟨m, hask⟩

/-! ## Sources -/

/-- One of the forms, which are evaluated one after the other, comes to perform an operation. -/
inductive FormsPerform (fuel : Nat) (op : Operation) (args : List Value) (k : Interpreter) :
    List Value → Interpreter → Prop
  | first {form : Value} {rest : List Value} {i : Interpreter} :
    (Request.evaluate form).ComesToPerform fuel i op args k →
      FormsPerform fuel op args k (form :: rest) i
  | later {form v : Value} {rest : List Value} {i j : Interpreter} :
    evaluate fuel form i = .ok v j → settled form v j = .ok v j →
      FormsPerform fuel op args k rest j → FormsPerform fuel op args k (form :: rest) i

/-- The evaluation of a source in state `i` comes to perform an operation on `args` in state `k`. -/
def Interpreter.Performs (i : Interpreter) (fuel : Nat) (source : String) (op : Operation)
    (args : List Value) (k : Interpreter) : Prop :=
  ∃ forms, read source = .ok forms ∧
    FormsPerform fuel op args k (i.heap.loadAll forms).1
      { i with heap := (i.heap.loadAll forms).2 }

theorem settled_of_idle (hidle : j.uses = []) (form v : Value) :
    settled form v j = .ok v j ∨ ∃ err, settled form v j = .error (.error err) j := by
  have hstray : ∀ cause, ∃ err, stray cause form j = .error (.error err) j :=
    fun cause => ⟨_, leavingCrumb_of_error hidle rfl form⟩
  cases v with
  | leaving v => exact .inr (hstray _)
  | breaking v => exact .inr (hstray _)
  | goto target => exact .inr (hstray _)
  | label name => exact .inr (hstray _)
  | _ => exact .inl rfl

theorem evalTop_crash_iff (hidle : i.uses = []) :
    (∃ j, evalTop fuel forms result i = .error (.crash .cellInUse) j) ↔
      ∃ args k, FormsPerform fuel .store args k forms i ∧ k.uses = [] ∧ k.heap.OwnIndex args := by
  constructor
  · rintro ⟨j, hend⟩
    induction forms generalizing i result with
    | nil => cases hend
    | cons form rest ih =>
      cases hform : evaluate fuel form i with
      | error h k =>
        rw [evalTop, bind_of_error hform] at hend
        cases hend
        obtain ⟨args, k, hperform, hown⟩ := (ask_crash_iff (q := .evaluate form) hidle).mp ⟨_, hform⟩
        exact ⟨args, k, .first hperform, hperform.idle hidle, hown⟩
      | ok v l =>
        have hl := uses_of_ok hidle hform
        rw [evalTop, bind_of_ok hform] at hend
        rcases settled_of_idle hl form v with hsettled | ⟨err, hsettled⟩
        · rw [bind_of_ok hsettled] at hend
          obtain ⟨args, k, hperform, hown⟩ := ih hl hend
          exact ⟨args, k, .later hform hsettled hperform, hown⟩
        -- A stray signal is an error, so there is no crash here.
        · rw [bind_of_error hsettled] at hend
          cases hend
  · rintro ⟨args, k, hperform, hk, hown⟩
    induction hperform generalizing result with
    | @first form rest i hcome =>
      obtain ⟨j, hform⟩ := (ask_crash_iff hidle).mpr ⟨args, k, hcome, hown⟩
      exact ⟨j, bind_of_error (x := evaluate fuel form) hform⟩
    | @later form v rest i j hform hsettled _ ih =>
      rw [evalTop, bind_of_ok hform, bind_of_ok hsettled]
      exact ih (uses_of_ok hidle hform)

theorem Interpreter.Reachable.crash_iff (hi : i.Reachable) {source : String} {c : Crash} :
    (i.run (evalSource fuel source)).1 = .error (.crash c) ↔
      c = .cellInUse ∧ ∃ args k, i.Performs fuel source .store args k ∧ k.uses = [] ∧
        k.heap.OwnIndex args := by
  have hevaluated : ∀ forms, read source = .ok forms → evalSource fuel source i =
      evalTop fuel (i.heap.loadAll forms).1 .nil { i with heap := (i.heap.loadAll forms).2 } := by
    intro forms hread
    unfold evalSource
    rw [hread]
    rfl
  have hidle : ∀ forms, Interpreter.uses { i with heap := (i.heap.loadAll forms).2 } = [] :=
    fun _ => hi.idle
  rw [Interpreter.run_error_iff]
  constructor
  · rintro ⟨k, hrun⟩
    have hc : c = .cellInUse :=
      (sound_evalSource (P := fitting) trivial fuel source).crash hi.fitting_admits
        (Interpreter.run_error_iff.mpr ⟨k, hrun⟩)
    subst hc
    cases hread : read source with
    | error err =>
      -- A source that cannot be read is an error.
      unfold evalSource at hrun
      rw [hread] at hrun
      cases hrun
    | ok forms =>
      rw [hevaluated forms hread] at hrun
      obtain ⟨args, k, hperform, hown⟩ := (evalTop_crash_iff (hidle forms)).mp ⟨k, hrun⟩
      exact ⟨rfl, args, k, ⟨forms, hread, hperform⟩, hown⟩
  · rintro ⟨rfl, args, k, ⟨forms, hread, hperform⟩, hown⟩
    rw [hevaluated forms hread]
    exact (evalTop_crash_iff (hidle forms)).mpr ⟨args, k, hperform, hown⟩

/-- In a session, a source crashes exactly if it comes to perform `set@` on a list that is to be
written at an index which is no integer and leads to the list itself. The crash is that of a cell in
use. Any other index that is no integer is an error about the index, and nothing changes. -/
theorem crash_iff_own_index (i : Interpreter) (hi : i.Reachable) :
    (∀ fuel source c, (i.run (evalSource fuel source)).1 = .error (.crash c) ↔
      c = .cellInUse ∧ ∃ args k, i.Performs fuel source .store args k ∧ k.uses = [] ∧
        k.heap.OwnIndex args) ∧
    ∀ (j : Interpreter) (a : Nat) (index v : Value) (rest : List Value), j.uses = [] →
      (∀ n, index ≠ .int n) → ¬ j.heap.OwnIndex (.list a :: index :: v :: rest) →
      j.run (store (.list a :: index :: v :: rest)) =
        (.error (.error { cause := .typeMismatch .integer (j.heap.text index) }), j) := by
  refine ⟨fun fuel source c => hi.crash_iff, ?_⟩
  intro j a index v rest hj hindex hown
  have hshows : ¬ j.heap.shows a index = true := by
    intro hshows
    exact hown ⟨a, index, v, rest, rfl, hindex, Heap.shows_iff.mp hshows⟩
  unfold Interpreter.run
  rw [store_of_ne_int hj a hindex, if_neg hshows]

/-- A list of one item, written at the index that is the list itself. -/
theorem crash_of_own_index :
    ((Interpreter.fresh 400 {}).run (evalSource 8 "(setq l (list 1)) (set@ l l 0)")).1 =
      .error (.crash .cellInUse) := by
  cbv

-- In a fresh session there are such sources, and an index that is a string does no harm.
theorem crash_iff_own_index_fresh :
    (∃ args k, (Interpreter.fresh 400 {}).Performs 8 "(setq l (list 1)) (set@ l l 0)" .store
      args k ∧ k.heap.OwnIndex args) ∧
    (Interpreter.fresh 400 {}).run (store [.list 0, .str "x", .nil]) =
      (.error (.error { cause := .typeMismatch .integer "\"x\"" }), .fresh 400 {}) := by
  have hfresh : (Interpreter.fresh 400 {}).Reachable := .fresh 400 {}
  obtain ⟨hcrash, herror⟩ := crash_iff_own_index _ hfresh
  refine ⟨?_, ?_⟩
  · have hrun : ((Interpreter.fresh 400 {}).run
        (evalSource 8 "(setq l (list 1)) (set@ l l 0)")).1 = .error (.crash .cellInUse) := by
      cbv
    obtain ⟨-, args, k, hperform, -, hown⟩ := (hcrash _ _ _).mp hrun
    exact ⟨args, k, hperform, hown⟩
  · apply herror _ 0 (.str "x") .nil [] hfresh.idle (by simp)
    rintro ⟨a, index, v, rest, hargs, -, b, hb, -⟩
    cases hargs
    simp [Value.cells] at hb

end Lisplet
