import Lisplet.Proofs.Effect
import Lisplet.Proofs.Uses

/-!
# Sound computations

A computation is sound under a policy if, from every state the policy admits, it ends in a state
that effects on allowed values can reach, and its result or halt is as it should be. Soundness goes
through sequencing and through every bracket, and each way to look at or change the state is sound.
-/

namespace Lisplet

namespace Policy

/-- A result as it should be: reached from `i`, a value with the property `Q` or an allowed halt. -/
def Ends (P : Policy) {α : Type} (Q : α → Prop) (i : Interpreter) :
    EStateM.Result Halt Interpreter α → Prop
  | .ok a j => P.Reaches i j ∧ Q a
  | .error h j => P.Reaches i j ∧ P.AllowsHalt h

/-- From every admitted state the computation ends as it should. -/
def Sound (P : Policy) {α : Type} (Q : α → Prop) (x : Eval α) : Prop :=
  ∀ i, P.Admits i → P.Ends Q i (x i)

variable {P : Policy} {α β : Type} {Q : α → Prop} {R : β → Prop}

theorem Ends.prepend {i j : Interpreter} {r : EStateM.Result Halt Interpreter α}
    (hij : P.Reaches i j) (h : P.Ends Q j r) : P.Ends Q i r := by
  cases r with
  | ok a k => exact ⟨hij.trans h.1, h.2⟩
  | error e k => exact ⟨hij.trans h.1, h.2⟩

theorem Sound.reaches {x : Eval α} (hx : P.Sound Q x) {i : Interpreter} (hi : P.Admits i) :
    P.Reaches i (i.run x).2 := by
  have hxi := hx i hi
  unfold Interpreter.run
  cases hr : x i with
  | ok a j =>
    rw [hr] at hxi
    exact hxi.1
  | error h j =>
    rw [hr] at hxi
    exact hxi.1

theorem Sound.keeps {Q : α → Prop} {x : Eval α} (hx : lax.Sound Q x) (i : Interpreter) :
    i.Keeps (i.run x).2 :=
  (hx.reaches (lax_permissive.admits i)).keeps

theorem Sound.crash {x : Eval α} (hx : P.Sound Q x) {i : Interpreter} (hi : P.Admits i) {c : Crash}
    (h : (i.run x).1 = .error (.crash c)) : P.crash c := by
  have hxi := hx i hi
  obtain ⟨j, hr⟩ := Interpreter.run_error_iff.mp h
  rw [hr] at hxi
  exact hxi.2

/-! ## Sequencing -/

theorem sound_pure {a : α} (h : Q a) : P.Sound Q (pure a) :=
  fun i _ => ⟨.refl i, h⟩

theorem sound_bind {x : Eval α} {f : α → Eval β} (hx : P.Sound Q x)
    (hf : ∀ a, Q a → P.Sound R (f a)) : P.Sound R (x >>= f) := by
  intro i hi
  have hxi := hx i hi
  change P.Ends R i (EStateM.bind x f i)
  unfold EStateM.bind
  cases hr : x i with
  | error h j =>
    rw [hr] at hxi
    exact hxi
  | ok a j =>
    rw [hr] at hxi
    exact .prepend hxi.1 (hf a hxi.2 j (hxi.1.admits hi))

theorem Sound.mono {Q' : α → Prop} {x : Eval α} (hx : P.Sound Q x) (h : ∀ a, Q a → Q' a) :
    P.Sound Q' x := by
  intro i hi
  have hxi := hx i hi
  cases hr : x i with
  | error _ _ =>
    rw [hr] at hxi
    exact hxi
  | ok a j =>
    rw [hr] at hxi
    exact ⟨hxi.1, h a hxi.2⟩

/-- What is known of the results of a computation may be added to its soundness. -/
theorem Sound.and {Q' : α → Prop} {x : Eval α} (hx : P.Sound Q x)
    (h : ∀ i a j, x i = .ok a j → Q' a) : P.Sound (fun a => Q a ∧ Q' a) x := by
  intro i hi
  have hxi := hx i hi
  cases hr : x i with
  | error _ _ =>
    rw [hr] at hxi
    exact hxi
  | ok a j =>
    rw [hr] at hxi
    exact ⟨hxi.1, hxi.2, h i a j hr⟩

theorem sound_halt {h : Halt} (hh : P.AllowsHalt h) : P.Sound Q (throw h) :=
  fun i _ => ⟨.refl i, hh⟩

theorem sound_error (e : Error) : P.Sound Q (throw (.error e)) :=
  sound_halt trivial

theorem sound_fail (cause : Cause) : P.Sound Q (Eval.fail cause) :=
  sound_error { cause }

theorem sound_outOfFuel (h : P.exhaust) : P.Sound Q Eval.outOfFuel :=
  sound_halt h

theorem sound_missingArgument (h : P.crash .missingArgument) : P.Sound Q Eval.missingArgument :=
  sound_halt h

theorem sound_ofExcept {x : Except Error α} (h : ∀ a, x = .ok a → Q a) :
    P.Sound Q (Eval.ofExcept x) := by
  cases x with
  | ok a => exact sound_pure (h a rfl)
  | error e => exact sound_error e

/-! ## Looking at the state -/

-- No cell is in use in an admitted state, unless the policy puts up with the crash.
theorem sound_looking {reads : Heap → Nat → Bool} {x : Eval α} (hx : P.Sound Q x) :
    P.Sound Q (Eval.looking reads x) := by
  intro i hi
  unfold Eval.looking
  split
  next hbarred =>
    rcases hi.idle with hidle | hcrash
    · rw [i.barred_of_idle hidle] at hbarred
      cases hbarred
    · exact ⟨.refl i, hcrash⟩
  next => exact hx i hi

theorem sound_text (v : Value) : P.Sound (fun _ => True) (Eval.text v) :=
  sound_looking fun i _ => ⟨.refl i, trivial⟩

theorem sound_plainText (v : Value) : P.Sound (fun _ => True) (Eval.plainText v) :=
  sound_looking fun i _ => ⟨.refl i, trivial⟩

theorem sound_failWith (cause : String → Cause) (v : Value) :
    P.Sound Q (Eval.failWith cause v) :=
  sound_bind (sound_text v) fun t _ => sound_fail (cause t)

theorem sound_tooMany (v : Value) : P.Sound Q (Eval.tooMany v) :=
  sound_failWith _ v

theorem sound_items {a : Nat} (ha : P.cell a) : P.Sound P.AllowsAll (Eval.items a) :=
  sound_looking fun i hi => ⟨.refl i, hi.heap.items ha⟩

theorem sound_fields {a : Nat} (ha : P.cell a) : P.Sound P.AllowsFields (Eval.fields a) :=
  sound_looking fun i hi => ⟨.refl i, hi.heap.fields ha⟩

theorem sound_lookup (name : String) : P.Sound P.Allows (Eval.lookup name) := by
  intro i hi
  unfold Eval.lookup Environment.lookup
  cases hget : i.env.get? name with
  | none => exact ⟨.refl i, trivial⟩
  | some v =>
    refine ⟨.refl i, ?_⟩
    unfold Environment.get? at hget
    split at hget
    next w hframe =>
      obtain ⟨f, hf, hw⟩ := List.exists_of_findSome?_eq_some hframe
      cases hget
      exact (hi.frames f hf).get? hw
    next => exact hi.globals.get? hget

/-! ## Changing the state -/

theorem sound_newList {items : List Value} (h : P.AllowsAll items) :
    P.Sound P.Allows (Eval.newList items) := by
  intro i hi
  have hnew := (hi.heap.newList h).1
  by_cases hne : items = []
  · subst hne
    exact ⟨.refl i, hnew⟩
  · exact ⟨.newList i items hne h, hnew⟩

theorem sound_copyList {a : Nat} (ha : P.cell a) : P.Sound P.Allows (Eval.copyList a) :=
  sound_looking fun i hi => ⟨.copyList i a ha, hi.heap.fresh (Nat.le_refl _)⟩

theorem sound_newStruct {fields : Record Value} (hn : fields.keys.Nodup)
    (h : P.AllowsFields fields) : P.Sound P.Allows (Eval.newStruct fields) :=
  fun i hi => ⟨.newStruct i fields hn h, (hi.heap.newStruct h).1⟩

theorem sound_load {source : String} {answers : List (Option String)} {forms : List Form}
    (h : (Reader.ofSource source answers).all.1 = .ok forms) :
    P.Sound P.AllowsAll (Eval.load forms) :=
  fun i hi => ⟨.load i source answers forms h, (hi.heap.loadAll forms).1⟩

theorem sound_freshId : P.Sound (fun _ => True) Eval.freshId :=
  fun i _ => ⟨.identify i, trivial⟩

theorem sound_setVariable (name : String) {v : Value} (hv : P.Allows v) :
    P.Sound (fun _ => True) (Eval.setVariable name v) :=
  fun i _ => ⟨.assign i name v hv, trivial⟩

/-- A cell can be written in an admitted state, unless the policy puts up with the crash. -/
theorem Admits.write_eq {i : Interpreter} (hi : P.Admits i) (a : Nat) (c : Cell) :
    Eval.write a c i = .ok () { i with heap := i.heap.write a c } ∨
      P.crash .cellInUse ∧ Eval.write a c i = .error (.crash .cellInUse) i := by
  rcases hi.idle with hidle | hcrash
  · exact .inl (Eval.write_of_idle hidle a c)
  · cases hused : i.inUse a with
    | true => exact .inr ⟨hcrash, if_pos hused⟩
    | false => exact .inl (if_neg (by simp [hused]))

-- The fields are read just before they are written, so the effect is that of one field.
theorem sound_storeField {a : Nat} (ha : P.cell a) (key : String) {v w : Value} (hv : P.Allows v)
    (hw : P.Allows w) :
    P.Sound P.Allows (do
      Eval.write a (.struct ((← Eval.fields a).insert key v))
      pure w) := by
  intro i hi
  have hfields := sound_fields (P := P) ha i hi
  have hread : ∀ r j, Eval.fields a i = .ok r j → r = i.heap.fields a ∧ j = i := by
    intro r j h
    unfold Eval.fields Eval.looking at h
    split at h
    · cases h
    · cases h
      exact ⟨rfl, rfl⟩
  cases hr : Eval.fields a i with
  | error h j =>
    rw [hr] at hfields
    rw [Eval.bind_of_error hr]
    exact hfields
  | ok r j =>
    obtain ⟨rfl, rfl⟩ := hread r j hr
    rw [Eval.bind_of_ok hr]
    rcases hi.write_eq a (.struct ((j.heap.fields a).insert key v)) with hwrite | ⟨hc, hwrite⟩
    · rw [Eval.bind_of_ok hwrite]
      exact ⟨.storeField j a key v ha hv, hw⟩
    · rw [Eval.bind_of_error hwrite]
      exact ⟨.refl j, hc⟩

/-! ## Brackets -/

theorem sound_inFrame {f : Record Value} (hf : P.AllowsFields f) {x : Eval α} (hx : P.Sound Q x) :
    P.Sound Q (Eval.inFrame f x) := by
  intro i hi
  have hxi := hx _ (hi.scope hf)
  unfold Eval.inFrame
  dsimp only
  cases hr : x { i with env := (i.env.scope f).1 } with
  | ok a j =>
    rw [hr] at hxi
    exact ⟨.frame f hf hxi.1, hxi.2⟩
  | error h j =>
    rw [hr] at hxi
    exact ⟨.frame f hf hxi.1, hxi.2⟩

theorem sound_descend {x : Eval α} (hx : P.Sound Q x) : P.Sound Q (Eval.descend x) := by
  intro i hi
  unfold Eval.descend
  split
  next hlt =>
    have hxi := hx { i with depth := i.depth + 1 } ⟨hi.globals, hi.frames, hi.heap, hi.idle⟩
    cases hr : x { i with depth := i.depth + 1 } with
    | ok a j =>
      rw [hr] at hxi
      exact ⟨.deeper hlt hxi.1, hxi.2⟩
    | error h j =>
      rw [hr] at hxi
      exact ⟨.deeper hlt hxi.1, hxi.2⟩
  next => exact ⟨.refl i, trivial⟩

theorem sound_whileWriting (a : Nat) (hc : P.crash .cellInUse) {x : Eval α} (hx : P.Sound Q x) :
    P.Sound Q (Eval.whileWriting a x) := by
  intro i hi
  unfold Eval.whileWriting
  split
  next => exact ⟨.refl i, hc⟩
  next =>
    have hxi := hx { i with uses := ⟨a, true⟩ :: i.uses } ⟨hi.globals, hi.frames, hi.heap, .inr hc⟩
    unfold Eval.during
    cases hr : x { i with uses := ⟨a, true⟩ :: i.uses } with
    | ok b j =>
      rw [hr] at hxi
      exact ⟨.inUse ⟨a, true⟩ hc hxi.1, hxi.2⟩
    | error h j =>
      rw [hr] at hxi
      exact ⟨.inUse ⟨a, true⟩ hc hxi.1, hxi.2⟩

theorem sound_leavingCrumb (v : Value) {x : Eval α} (hx : P.Sound Q x) :
    P.Sound Q (Eval.leavingCrumb v x) := by
  intro i hi
  have hxi := hx i hi
  unfold Eval.leavingCrumb
  split
  next a j hr =>
    rw [hr] at hxi
    exact hxi
  next e j hr =>
    rw [hr] at hxi
    have htext := sound_text (P := P) v j (hxi.1.admits hi)
    cases ht : Eval.text v j with
    | ok crumb k =>
      rw [ht] at htext
      exact ⟨hxi.1.trans htext.1, trivial⟩
    | error h k =>
      rw [ht] at htext
      exact ⟨hxi.1.trans htext.1, htext.2⟩
  next h j _ hr =>
    rw [hr] at hxi
    exact hxi

theorem sound_rescue {x : Eval α} {handler : Error → Eval α} (hx : P.Sound Q x)
    (hh : ∀ e, P.Sound Q (handler e)) : P.Sound Q (Eval.rescue x handler) := by
  intro i hi
  have hxi := hx i hi
  unfold Eval.rescue
  split
  next a j hr =>
    rw [hr] at hxi
    exact hxi
  next e j hr =>
    rw [hr] at hxi
    exact .prepend hxi.1 (hh e j (hxi.1.admits hi))
  next h j _ hr =>
    rw [hr] at hxi
    exact hxi

end Policy

end Lisplet
