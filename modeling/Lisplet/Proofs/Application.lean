import Lisplet.Proofs.Reachable
import Lisplet.Proofs.Showing

/-!
# Calls that only hand on

To call `apply` with a function and a list of values is to call the function with those values. That
function may be `apply` again, and nothing is evaluated in between. So a call can come down to
another one, and that to a third, without any expression being entered. A chain of such calls that
has no end is a runaway call: it uses up any amount of fuel.
-/

namespace Lisplet

open Eval Builtin Policy

/-! ## Contracts and values -/

/-- What the kinds of a contract make of arguments that are values already. -/
def acceptAll (further : Kind) : List Kind → List Value → Option (List Value)
  | _, [] => some []
  | kinds, v :: vs =>
    let kind := kinds.headD further
    if kind.isUnevaluated then (acceptAll further kinds.tail vs).map (v :: ·)
    else if v.isSignal then none
    else
      match kind.accept? v with
      | some w => (acceptAll further kinds.tail vs).map (w :: ·)
      | none => none

/-- What a contract makes of arguments that are values already, if there are neither too few nor too
many of them. -/
def acceptContract (contract : List Kind) (vs : List Value) : Option (List Value) :=
  let fixed := fixedKinds contract
  if vs.length < fixed.length then none
  else
    match restKind? contract, vs.drop fixed.length with
    | none, _ :: _ => none
    | rest, _ => acceptAll (rest.getD .any) fixed vs

theorem bind_cons_iff {x : Eval Bound} {w : Value} {ws : List Value} {i j : Interpreter} :
    (x >>= fun bound => pure (bound.cons w)) i = .ok (.args ws) j ↔
      ∃ us, x i = .ok (.args us) j ∧ w :: us = ws := by
  change EStateM.bind x _ i = _ ↔ _
  unfold EStateM.bind
  cases x i with
  | error h k => simp
  | ok b k =>
    constructor
    · intro h
      cases b with
      | args us =>
        cases h
        exact ⟨us, rfl, rfl⟩
      | signal s => cases h
    · rintro ⟨us, hb, rfl⟩
      cases hb
      rfl

theorem bindArgs_pure_iff {further : Kind} {kinds : List Kind} {vs ws : List Value}
    {i j : Interpreter} :
    bindArgs pure further kinds vs i = .ok (.args ws) j ↔
      acceptAll further kinds vs = some ws ∧ j = i := by
  induction vs generalizing kinds ws j with
  | nil =>
    unfold bindArgs acceptAll
    constructor
    · intro h
      cases h
      exact ⟨rfl, rfl⟩
    · rintro ⟨h, rfl⟩
      cases h
      rfl
  | cons v vs ih =>
    -- Once the first argument is bound to `w`, the rest is a matter of the induction.
    have hmore : ∀ w : Value,
        (bindArgs pure further kinds.tail vs >>= fun bound => pure (bound.cons w)) i =
          .ok (.args ws) j ↔
        (acceptAll further kinds.tail vs).map (w :: ·) = some ws ∧ j = i := by
      intro w
      simp only [bind_cons_iff, ih, Option.map_eq_some_iff]
      constructor
      · rintro ⟨us, ⟨hus, hj⟩, hws⟩
        exact ⟨⟨us, hus, hws⟩, hj⟩
      · rintro ⟨⟨us, hus, hws⟩, hj⟩
        exact ⟨us, ⟨hus, hj⟩, hws⟩
    unfold bindArgs acceptAll
    dsimp only
    split
    next => exact hmore v
    next =>
      have hpure : ∀ f : Value → Eval Bound, (pure v >>= f) i = f v i := fun _ => rfl
      rw [hpure]
      split
      next =>
        constructor
        · intro h
          simp only [bind, EStateM.bind] at h
          split at h <;> cases h
        · rintro ⟨h, _⟩
          cases h
      next =>
        unfold accept
        cases (kinds.headD further).accept? v with
        | some w => exact hmore w
        | none =>
          constructor
          · intro h
            simp only [bind, EStateM.bind] at h
            split at h
            next hk => exact absurd hk failWith_ne_ok
            next => cases h
          · rintro ⟨h, _⟩
            cases h

theorem bindContract_pure_iff {name : String} {contract : List Kind} {vs ws : List Value}
    {i j : Interpreter} :
    bindContract pure name contract vs i = .ok (.args ws) j ↔
      acceptContract contract vs = some ws ∧ j = i := by
  unfold bindContract acceptContract
  dsimp only
  split
  next =>
    constructor
    · intro h
      cases h
    · rintro ⟨h, _⟩
      cases h
  next =>
    cases restKind? contract with
    | some last => exact bindArgs_pure_iff
    | none =>
      cases vs.drop (fixedKinds contract).length with
      | nil => exact bindArgs_pure_iff
      | cons extra more =>
        constructor
        · intro h
          exact absurd h failWith_ne_ok
        · rintro ⟨h, _⟩
          cases h

/-! ## Handing on -/

def Heap.handOn (h : Heap) : List Value → Option (Value × List Value)
  | g :: .nil :: _ => some (g, [])
  | g :: .list a :: _ => some (g, h.items a)
  | _ => none

/-- The arguments that `apply` gets when `f` is called with values, if `f` is that primitive. -/
def Value.applyArgs? : Value → List Value → Option (List Value)
  | .primitive _ _ .apply, vs => some vs
  | .checked _ _ contract .apply, vs => acceptContract contract vs
  | _, _ => none

/-- The call that a call comes down to without anything being evaluated. -/
def Heap.nextCall (h : Heap) (f : Value) (vs : List Value) : Option (Value × List Value) :=
  (f.applyArgs? vs).bind h.handOn

def Heap.callAfter (h : Heap) : Nat → Value → List Value → Option (Value × List Value)
  | 0, f, vs => some (f, vs)
  | n + 1, f, vs => (h.nextCall f vs).bind fun call => h.callAfter n call.1 call.2

/-- A call that comes down to another one again and again. -/
def Heap.Runaway (h : Heap) (f : Value) (vs : List Value) : Prop :=
  ∀ n, (h.callAfter n f vs).isSome = true

theorem Heap.Runaway.next {h : Heap} {f : Value} {vs : List Value} (hrun : h.Runaway f vs) :
    ∃ g ws, h.nextCall f vs = some (g, ws) ∧ h.Runaway g ws := by
  have hone := hrun 1
  cases hnext : h.nextCall f vs with
  | none => simp [callAfter, hnext] at hone
  | some call =>
    refine ⟨call.1, call.2, rfl, ?_⟩
    intro n
    have hn := hrun (n + 1)
    rw [callAfter, hnext] at hn
    exact hn

/-! ## Runaway calls need a list inside itself -/

-- A kind takes a value as it is, or makes a symbol of it, so lists stay what they are.
theorem eq_list_of_accept {kind : Kind} {v : Value} {a : Nat}
    (h : kind.accept? v = some (.list a)) : v = .list a := by
  cases kind <;> cases v <;> simp_all [Kind.accept?, Value.isCallable]

theorem list_mem_of_acceptAll {further : Kind} {kinds : List Kind} {vs ws : List Value} {a : Nat}
    (h : acceptAll further kinds vs = some ws) (ha : .list a ∈ ws) : .list a ∈ vs := by
  induction vs generalizing kinds ws with
  | nil =>
    cases h
    exact ha
  | cons v vs ih =>
    have hcons : ∀ w, (w = .list a → v = .list a) →
        (acceptAll further kinds.tail vs).map (w :: ·) = some ws → .list a ∈ v :: vs := by
      intro w hw hmap
      obtain ⟨us, hus, rfl⟩ := Option.map_eq_some_iff.mp hmap
      rcases List.mem_cons.mp ha with heq | hmem
      · rw [hw heq.symm]
        exact List.mem_cons_self
      · exact List.mem_cons_of_mem v (ih hus hmem)
    unfold acceptAll at h
    dsimp only at h
    split at h
    next => exact hcons v id h
    next =>
      split at h
      next => cases h
      next =>
        split at h
        next w haccept =>
          apply hcons w ?_ h
          rintro rfl
          exact eq_list_of_accept haccept
        next => cases h

theorem list_mem_of_applyArgs {f : Value} {vs args : List Value} {a : Nat}
    (h : f.applyArgs? vs = some args) (ha : .list a ∈ args) : .list a ∈ vs := by
  unfold Value.applyArgs? at h
  split at h
  next =>
    cases h
    exact ha
  next id name contract =>
    unfold acceptContract at h
    dsimp only at h
    split at h
    next => cases h
    next =>
      split at h
      next => cases h
      next => exact list_mem_of_acceptAll h ha
  next => cases h

-- A call without arguments is not handed on.
theorem Heap.nextCall_nil (h : Heap) (f : Value) : h.nextCall f [] = none := by
  unfold nextCall Value.applyArgs?
  split
  next => rfl
  next =>
    unfold acceptContract
    dsimp only
    split
    next => rfl
    next =>
      rw [List.drop_nil]
      cases restKind? _ <;> rfl
  next => rfl

theorem Heap.Runaway.step {h : Heap} {f : Value} {vs : List Value} (hrun : h.Runaway f vs) :
    ∃ g a, .list a ∈ vs ∧ h.Runaway g (h.items a) := by
  obtain ⟨g, ws, hnext, hrest⟩ := hrun.next
  obtain ⟨args, hargs, hhand⟩ := Option.bind_eq_some_iff.mp hnext
  unfold handOn at hhand
  split at hhand
  next =>
    cases hhand
    obtain ⟨g', ws', hnext', -⟩ := hrest.next
    rw [h.nextCall_nil] at hnext'
    cases hnext'
  next g a rest =>
    cases hhand
    exact ⟨g, a, list_mem_of_applyArgs hargs (by simp), hrest⟩
  next => cases hhand

/-- Where a call runs away, there is a list that holds itself. -/
theorem Heap.Runaway.insideItself {h : Heap} {f : Value} {vs : List Value}
    (hrun : h.Runaway f vs) : ∃ a, h.InsideItself a := by
  obtain ⟨g, a, -, ha⟩ := hrun.step
  have hstep : ∀ s : { b : Nat // ∃ g, h.Runaway g (h.items b) },
      ∃ t : { b : Nat // ∃ g, h.Runaway g (h.items b) }, .list t.1 ∈ h.items s.1 := by
    rintro ⟨b, g, hb⟩
    obtain ⟨g', c, hmem, hc⟩ := hb.step
    exact ⟨⟨c, g', hc⟩, hmem⟩
  choose next hnext using hstep
  apply insideItself_of_walk (a := fun n => (next^[n] ⟨a, g, ha⟩).1)
  intro n
  rw [Function.iterate_succ_apply']
  exact hnext _

/-! ## Fuel -/

section

variable {i : Interpreter} {f g : Value} {vs ws args : List Value}

theorem apply_of_handOn (hidle : i.uses = []) (e : Engine)
    (h : i.heap.handOn args = some (g, ws)) : Builtin.apply e args i = e.apply g ws i := by
  unfold Heap.handOn at h
  split at h
  next =>
    cases h
    rfl
  next g a _ =>
    cases h
    have hitems : items a i = .ok (i.heap.items a) i := looking_of_idle hidle _ _
    simp only [Builtin.apply, bind, EStateM.bind, hitems]
  next => cases h

/-- A call that comes down to another one asks for that one, and for nothing else. -/
theorem applyTo_of_nextCall (hidle : i.uses = []) (h : i.heap.nextCall f vs = some (g, ws))
    (e : Engine) : e.applyTo f vs i = e.apply g ws i := by
  obtain ⟨args, hargs, hhand⟩ := Option.bind_eq_some_iff.mp h
  unfold Value.applyArgs? at hargs
  split at hargs
  next =>
    cases hargs
    exact apply_of_handOn hidle e hhand
  next id name contract =>
    have hbound : bindContract pure name contract vs i = .ok (.args args) i :=
      bindContract_pure_iff.mpr ⟨hargs, rfl⟩
    exact (bind_of_ok hbound).trans (apply_of_handOn hidle e hhand)
  next => cases hargs

/-- A runaway call is never done, with any amount of fuel. -/
theorem apply_of_runaway (hidle : i.uses = []) (hrun : i.heap.Runaway f vs) (fuel : Nat) :
    apply fuel f vs i = .error .outOfFuel i := by
  induction fuel generalizing f vs with
  | zero => rfl
  | succ n ih =>
    obtain ⟨g, ws, hnext, hrest⟩ := hrun.next
    exact (applyTo_of_nextCall hidle hnext (.ofFuel n)).trans (ih hrest)

end

end Lisplet
