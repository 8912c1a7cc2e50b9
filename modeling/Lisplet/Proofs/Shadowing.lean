import Lisplet.Proofs.Evaluation

/-!
# Shadowed bindings

A name can be bound in several frames and globally at once. The slots of a name are these places,
the innermost frame first and the globals last. An assignment goes to the innermost slot that holds
something, so whatever lies further out than that slot is out of reach. This is kept by every effect
and by every bracket, hence by all of evaluation, although calls see the frames of their callers.
-/

namespace Lisplet

namespace Environment

variable {α : Type}

/-- What every place that can bind a name holds for it, the innermost frame first and the globals
last. -/
def slots (e : Environment α) (name : String) : List (Option α) :=
  e.frames.map (Record.get? name) ++ [e.globals.get? name]

/-- Between two environments, slots of `name` that hold something are not emptied, and a slot
further out than such a slot holds what it did. -/
structure KeepsShadowed (e e' : Environment α) (name : String) : Prop where
  bound : ∀ {n : Nat} {v : α}, (e.slots name)[n]? = some (some v) →
    ∃ w, (e'.slots name)[n]? = some (some w)
  outer : ∀ {m n : Nat} {v : α}, m < n → (e.slots name)[m]? = some (some v) →
    (e'.slots name)[n]? = (e.slots name)[n]?

namespace KeepsShadowed

variable {e e' e'' : Environment α} {name : String}

theorem of_eq (h : e'.slots name = e.slots name) : e.KeepsShadowed e' name :=
  ⟨fun hn => ⟨_, h ▸ hn⟩, fun _ _ => congrArg (·[_]?) h⟩

theorem trans (h : e.KeepsShadowed e' name) (h' : e'.KeepsShadowed e'' name) :
    e.KeepsShadowed e'' name := by
  constructor
  · intro n v hn
    obtain ⟨w, hw⟩ := h.bound hn
    exact h'.bound hw
  · intro m n v hmn hm
    obtain ⟨w, hw⟩ := h.bound hm
    exact (h'.outer hmn hw).trans (h.outer hmn hm)

end KeepsShadowed

/-! ## Assignment -/

variable {name : String} {v : α} {fs gs : List (Record α)}

theorem get?_of_not_has {r : Record α} (h : ¬ r.has name = true) : r.get? name = none := by
  simpa [Record.has] using h

theorem slots_setInFrames_of_ne {other : String} (hne : other ≠ name)
    (h : setInFrames name v fs = some gs) :
    gs.map (Record.get? other) = fs.map (Record.get? other) := by
  induction fs generalizing gs with
  | nil => simp [setInFrames] at h
  | cons f fs ih =>
    by_cases hf : f.has name = true
    · simp only [setInFrames, hf, if_true, Option.some.injEq] at h
      subst h
      simp [Record.get?_insert_of_ne hne]
    · simp only [setInFrames, hf, Bool.false_eq_true, if_false, Option.map_eq_some_iff] at h
      obtain ⟨gs, hgs, rfl⟩ := h
      simp [ih hgs]

-- By induction on the frames: those before the one that is written do not bind the name.
theorem keepsShadowed_setInFrames (h : setInFrames name v fs = some gs) (globals : Record α) :
    KeepsShadowed ⟨globals, fs⟩ ⟨globals, gs⟩ name := by
  induction fs generalizing gs with
  | nil => simp [setInFrames] at h
  | cons f fs ih =>
    by_cases hf : f.has name = true
    · simp only [setInFrames, hf, if_true, Option.some.injEq] at h
      subst h
      constructor
      · intro n w hn
        cases n with
        | zero => exact ⟨v, by simp [slots, Record.get?_insert_self]⟩
        | succ n => exact ⟨w, hn⟩
      · intro m n w hmn hm
        cases n with
        | zero => omega
        | succ n => rfl
    · have hnone := get?_of_not_has hf
      simp only [setInFrames, hf, Bool.false_eq_true, if_false, Option.map_eq_some_iff] at h
      obtain ⟨gs, hgs, rfl⟩ := h
      constructor
      · intro n w hn
        cases n with
        | zero => simp [slots, hnone] at hn
        | succ n => exact (ih hgs).bound hn
      · intro m n w hmn hm
        cases m with
        | zero => simp [slots, hnone] at hm
        | succ m =>
          cases n with
          | zero => omega
          | succ n => exact (ih hgs).outer (Nat.lt_of_succ_lt_succ hmn) hm

theorem get?_of_setInFrames_none (h : setInFrames name v fs = none) :
    ∀ f ∈ fs, Record.get? name f = none := by
  induction fs with
  | nil => simp
  | cons f fs ih =>
    by_cases hf : f.has name = true
    · simp [setInFrames, hf] at h
    · simp only [setInFrames, hf, Bool.false_eq_true, if_false, Option.map_eq_none_iff] at h
      intro g hg
      rcases List.mem_cons.mp hg with rfl | hg
      · exact get?_of_not_has hf
      · exact ih h g hg

-- No frame binds the name, so the global slot, which has nothing outside of it, is the only one.
theorem keepsShadowed_defineGlobal {e : Environment α}
    (h : ∀ f ∈ e.frames, Record.get? name f = none) :
    e.KeepsShadowed (e.defineGlobal name v) name := by
  have hlast : ∀ {n : Nat} {w : α}, (e.slots name)[n]? = some (some w) → n = e.frames.length := by
    intro n w hn
    rcases Nat.lt_trichotomy n e.frames.length with hlt | heq | hgt
    · rw [slots, List.getElem?_append_left (by simpa using hlt), List.getElem?_map] at hn
      obtain ⟨f, hf, hw⟩ := Option.map_eq_some_iff.mp hn
      rw [h f (List.mem_of_getElem? hf)] at hw
      cases hw
    · exact heq
    · rw [slots, List.getElem?_eq_none (by simp; omega)] at hn
      cases hn
  constructor
  · intro n w hn
    obtain rfl := hlast hn
    exact ⟨v, by simp [slots, defineGlobal, Record.get?_insert_self]⟩
  · intro m n w hmn hm
    obtain rfl := hlast hm
    rw [slots, slots, List.getElem?_eq_none (by simp [defineGlobal]; omega),
      List.getElem?_eq_none (by simp; omega)]

theorem keepsShadowed_set (e : Environment α) (target : String) (v : α) (name : String) :
    e.KeepsShadowed (e.set target v) name := by
  unfold set
  split
  next frames hset =>
    by_cases hname : name = target
    · subst hname
      exact keepsShadowed_setInFrames hset e.globals
    · exact .of_eq (by simp only [slots, slots_setInFrames_of_ne hname hset])
  next hset =>
    by_cases hname : name = target
    · subst hname
      exact keepsShadowed_defineGlobal (get?_of_setInFrames_none hset)
    · exact .of_eq (by simp only [slots, defineGlobal, Record.get?_insert_of_ne hname])

/-! ## Frames -/

theorem slots_scope (e : Environment α) (f : Record α) (name : String) :
    (e.scope f).1.slots name = f.get? name :: e.slots name := rfl

theorem slots_release {e e' : Environment α} {f : Record α}
    (h : e'.frames.length = e.frames.length + 1) (name : String) :
    (e'.release (e.scope f).2).slots name = (e'.slots name).tail := by
  have hglobals : (e'.release (e.scope f).2).globals = e'.globals := rfl
  cases hframes : e'.frames with
  | nil => simp [hframes] at h
  | cons g gs => simp [slots, frames_release_scope h, hframes, hglobals]

theorem KeepsShadowed.frame {e e' : Environment α} {f : Record α}
    (hlen : e'.frames.length = e.frames.length + 1)
    (h : KeepsShadowed (e.scope f).1 e' name) :
    e.KeepsShadowed (e'.release (e.scope f).2) name := by
  have hslots : ∀ n, (e.slots name)[n]? = ((e.scope f).1.slots name)[n + 1]? := fun _ => rfl
  constructor
  · intro n v hn
    rw [slots_release hlen, List.getElem?_tail]
    exact h.bound (hslots n ▸ hn)
  · intro m n v hmn hm
    rw [slots_release hlen, List.getElem?_tail, hslots]
    exact h.outer (Nat.succ_lt_succ hmn) (hslots m ▸ hm)

/-- A frame that binds a name keeps everything outside of it from assignments to the name. -/
theorem KeepsShadowed.slots_eq {e e' : Environment α} {f : Record α}
    (hlen : e'.frames.length = e.frames.length + 1)
    (h : KeepsShadowed (e.scope f).1 e' name) (hf : f.has name = true) :
    (e'.release (e.scope f).2).slots name = e.slots name := by
  obtain ⟨v, hv⟩ := Option.isSome_iff_exists.mp hf
  have hfirst : ((e.scope f).1.slots name)[0]? = some (some v) := by
    rw [slots_scope, List.getElem?_cons_zero, hv]
  apply List.ext_getElem?
  intro n
  rw [slots_release hlen, List.getElem?_tail]
  exact h.outer (Nat.succ_pos n) hfirst

end Environment

open Policy Environment

namespace Policy

variable {P : Policy} {i j : Interpreter}

theorem Reaches.height {f : Record Value}
    (h : P.Reaches { i with env := (i.env.scope f).1 } j) :
    j.env.frames.length = i.env.frames.length + 1 := by
  simpa [scope, push] using congrArg List.length h.keeps.frames

/-- Every effect keeps what is shadowed, and so do all effects together. -/
theorem Reaches.keepsShadowed (h : P.Reaches i j) (name : String) :
    i.env.KeepsShadowed j.env name := by
  induction h with
  | trans _ _ ihij ihjk => exact ihij.trans ihjk
  | assign i target v _ => exact keepsShadowed_set i.env target v name
  | frame f _ hij ih => exact ih.frame hij.height
  | deeper _ _ ih => exact ih
  | inUse _ _ _ ih => exact ih
  | _ => exact .of_eq rfl

end Policy

/-! ## Constructs with a frame of their own -/

open Eval Builtin

variable {α : Type} {Q : α → Prop} {x : Eval α} {frame : Record Value} {name : String}

def Eval.Spares (x : Eval α) (name : String) : Prop :=
  ∀ i : Interpreter, (i.run x).2.env.slots name = i.env.slots name

theorem Eval.Spares.slots_of_ok (hx : x.Spares name) {i j : Interpreter} {a : α}
    (h : x i = .ok a j) : j.env.slots name = i.env.slots name := by
  simpa only [Interpreter.run, h] using hx i

theorem spares_pure (a : α) : (pure a : Eval α).Spares name :=
  fun _ => rfl

theorem slots_run_bind {β : Type} {f : α → Eval β} (hx : x.Spares name) {i : Interpreter}
    (hf : ∀ {a j}, x i = .ok a j → (f a).Spares name) :
    (i.run (x >>= f)).2.env.slots name = i.env.slots name := by
  have hxi := hx i
  unfold Interpreter.run at hxi ⊢
  simp only [bind, EStateM.bind]
  cases hr : x i with
  | ok a j => exact (hf hr j).trans (hx.slots_of_ok hr)
  | error h j =>
    rw [hr] at hxi
    exact hxi

theorem spares_bind {β : Type} {f : α → Eval β} (hx : x.Spares name)
    (hf : ∀ a, (f a).Spares name) : (x >>= f).Spares name :=
  fun _ => slots_run_bind hx fun _ => hf _

theorem spares_looking {reads : Heap → Nat → Bool} (hx : x.Spares name) :
    (looking reads x).Spares name := by
  intro i
  have hxi := hx i
  unfold Interpreter.run at hxi ⊢
  unfold looking
  by_cases hbarred : i.barred (reads i.heap) = true
  · rw [if_pos hbarred]
  · rw [if_neg hbarred]
    exact hxi

theorem spares_failWith (cause : String → Cause) (v : Value) :
    (failWith cause v : Eval α).Spares name :=
  spares_bind (spares_looking fun _ => rfl) fun _ _ => rfl

/-- What is run in a frame that binds a name leaves the slots outside of the frame alone. -/
theorem spares_inFrame (hx : lax.Sound Q x) (hframe : frame.has name = true) :
    (inFrame frame x).Spares name := by
  intro i
  have hreach := hx.reaches (lax_permissive.admits { i with env := (i.env.scope frame).1 })
  have hkeeps := (hreach.keepsShadowed name).slots_eq hreach.height hframe
  unfold Interpreter.run at hkeeps ⊢
  unfold inFrame
  dsimp only
  cases hr : x { i with env := (i.env.scope frame).1 } with
  | ok a j =>
    rw [hr] at hkeeps
    exact hkeeps
  | error h j =>
    rw [hr] at hkeeps
    exact hkeeps

theorem has_insert_of_has {r : Record Value} (h : r.has name = true) (key : String) (v : Value) :
    (r.insert key v).has name = true :=
  Record.mem_keys_iff_has.mp (Record.keys_subset_insert key v r (Record.mem_keys_iff_has.mpr h))

theorem has_bindParams {captured : Record Value} {params : List String} (args : List Value)
    (h : captured.has name = true ∨ name ∈ params) :
    (bindParams captured params args).has name = true := by
  induction params generalizing captured args with
  | nil => simpa [bindParams] using h
  | cons p ps ih =>
    have hinsert : ∀ v : Value, (captured.insert p v).has name = true ∨ name ∈ ps := by
      intro v
      rcases h with h | h
      · exact .inl (has_insert_of_has h p v)
      · rcases List.mem_cons.mp h with rfl | h
        · exact .inl (by simp [Record.has, Record.get?_insert_self])
        · exact .inr h
    cases args with
    | nil => exact ih [] (hinsert .nil)
    | cons v vs => exact ih vs (hinsert v)

theorem spares_localNames (vs : List Value) : (localNames vs).Spares name := by
  induction vs with
  | nil => exact spares_pure _
  | cons v vs ih =>
    refine spares_bind ?_ fun _ => spares_bind ih fun _ => spares_pure _
    unfold localName
    split
    · split
      · exact spares_pure _
      · exact spares_failWith _ _
    · exact spares_failWith _ _

theorem spares_blockFrame (v : Value) : (blockFrame v).Spares name := by
  unfold blockFrame
  split
  · exact spares_looking fun _ => rfl
  · rw [whileReading_names]
    refine spares_bind (spares_looking fun _ => rfl) fun items => ?_
    exact spares_bind (spares_localNames items) fun _ => spares_pure _
  · exact spares_pure _
  · exact spares_failWith _ _

section

variable {e : Engine} (he : e.Sound lax)

include he

theorem spares_invoke (captured : Record Value) (params : List String) (body : Value)
    (args : List Value) (h : captured.has name = true ∨ name ∈ params) :
    (e.invoke captured params body args).Spares name := by
  refine spares_inFrame (Q := lax.Allows) ?_ (has_bindParams args h)
  exact sound_bind (he.evaluate (lax_permissive.allows body)) fun _ hv => sound_closureResult hv

theorem spares_runIteration (forms : List Value) (hframe : frame.has name = true) :
    (e.runIteration frame forms).Spares name :=
  spares_inFrame (sound_runBody he (lax_permissive.allowsAll forms)) hframe

theorem slots_block {locals : Value} (forms : List Value) {i j : Interpreter}
    (hlocals : blockFrame locals i = .ok frame j) (hframe : frame.has name = true) :
    (i.run (block e (locals :: forms))).2.env.slots name = i.env.slots name := by
  refine slots_run_bind (spares_blockFrame locals) fun {f k} hf => ?_
  rw [hlocals] at hf
  cases hf
  exact spares_bind (spares_runIteration he forms hframe) fun _ => spares_pure _

-- Between two passes nothing is evaluated, so every assignment meets the frame of a pass.
theorem spares_countPasses (body : List Value) (passes : Nat) (k : Int) (result : Value) :
    (countPasses e name body passes k result).Spares name := by
  induction passes generalizing k result with
  | zero => exact spares_pure _
  | succ passes ih =>
    have hframe : Record.has name [(name, Value.int (Int64.ofInt k))] = true := by
      simp [Record.has, Record.get?]
    refine spares_bind (spares_runIteration he body hframe) fun flow => ?_
    cases flow with
    | next v => exact ih (k + 1) v
    | _ => exact spares_pure _

theorem spares_forLoop (m n : Int64) (body : List Value) :
    (forLoop e (.symbol name :: .int m :: .int n :: body)).Spares name := by
  have hforLoop : forLoop e (.symbol name :: .int m :: .int n :: body) =
      loopVariable (.symbol name) >>= fun var =>
        countPasses e var body (n.toInt - m.toInt).toNat m.toInt .nil := rfl
  have hvariable : loopVariable (.symbol name) =
      if Path.isSimple name then pure name else failWith .invalidLocalName (.symbol name) := rfl
  rw [hforLoop, hvariable]
  split
  · exact spares_countPasses he body _ _ _
  · exact fun i => slots_run_bind (spares_failWith _ _) fun h => absurd h failWith_ne_ok

end

/-- Of all bindings of a name, evaluation can change the innermost one only: every binding further
out holds the very value it did. A function, a block and a `for` loop bind names in a frame of their
own, so none of the bindings that were there before is changed for the parameters and captured names
of a function, the locals of a block and the variable of a loop, whatever is called meanwhile. -/
theorem evaluation_keeps_shadowed (fuel : Nat) (i : Interpreter) (name : String) :
    (∀ v, i.env.KeepsShadowed (i.run (evaluate fuel v)).2.env name) ∧
    (∀ captured params body args, captured.has name = true ∨ name ∈ params →
      (i.run ((Engine.ofFuel fuel).invoke captured params body args)).2.env.slots name =
        i.env.slots name) ∧
    (∀ locals forms frame j, blockFrame locals i = .ok frame j → frame.has name = true →
      (i.run (block (.ofFuel fuel) (locals :: forms))).2.env.slots name = i.env.slots name) ∧
    (∀ m n body,
      (i.run (forLoop (.ofFuel fuel) (.symbol name :: .int m :: .int n :: body))).2.env.slots name =
        i.env.slots name) := by
  have he := sound_engine (P := lax) trivial fuel
  refine ⟨?_, ?_, ?_, ?_⟩
  · intro v
    have hsound := he.evaluate (lax_permissive.allows v)
    exact (hsound.reaches (lax_permissive.admits i)).keepsShadowed name
  · intro captured params body args h
    exact spares_invoke he captured params body args h i
  · intro locals forms frame j hlocals hframe
    exact slots_block he forms hlocals hframe
  · intro m n body
    exact spares_forLoop he m n body i

/-- A state with two bindings of `x`, and a struct that can serve as the locals of a block. -/
def Interpreter.layered : Interpreter where
  heap := ⟨#[.struct [("x", .int 3)]]⟩
  env := { globals := [("x", .int 1)], frames := [[("x", .int 2)]] }
  maxDepth := 9

def Value.settingX : Value :=
  .expr [.checked 0 "setq" [.unevaluated, .any] .assign, .symbol "x", .int 5]

-- The assignment reaches the innermost binding; in a function or block with an `x` it reaches none.
theorem evaluation_keeps_shadowed_layered :
    (Interpreter.layered.run (evaluate 9 .settingX)).2.env.get? "x" = some (.int 5) ∧
    ((Interpreter.layered.run (evaluate 9 .settingX)).2.env.slots "x")[1]? =
      some (some (.int 1)) ∧
    (Interpreter.layered.run ((Engine.ofFuel 9).invoke [] ["x"] .settingX [.nil])).2.env.slots "x" =
      [some (.int 2), some (.int 1)] ∧
    (Interpreter.layered.run (block (.ofFuel 9) [.struct 0, .settingX])).2.env.slots "x" =
      [some (.int 2), some (.int 1)] := by
  obtain ⟨hevaluate, hinvoke, hblock, -⟩ := evaluation_keeps_shadowed 9 .layered "x"
  have hlocals : blockFrame (.struct 0) .layered = .ok [("x", .int 3)] .layered := rfl
  refine ⟨?_, ?_, hinvoke [] ["x"] _ [.nil] (.inr (by decide)), ?_⟩
  · rfl
  · exact (hevaluate .settingX).outer (m := 0) (n := 1) (v := .int 2) (by decide) rfl
  · exact hblock (.struct 0) _ _ _ hlocals (by decide)

end Lisplet
