import Lisplet.Proofs.Separation

/-!
# Only data are kept

What variables, lists, structs and functions hold are values of the language. Signals are under way
and never kept, and a piece of program text is found nowhere but in the body of a function. This is
read off the layout of a state: from the variables and the values at hand, everything that can be
found is found in a role it fits.
-/

namespace Lisplet

/-- The values that programs may have and keep. Signals, symbols and expressions are not among
them. -/
def Value.isDatum : Value → Bool
  | .nil | .true | .int _ | .double _ | .str _ | .list _ | .struct _ | .primitive .. | .checked ..
  | .closure .. | .error _ => Bool.true
  | .symbol _ | .expr _ | .leaving _ | .breaking _ | .goto _ | .label _ => false

/-- The values that can be found in a state and from the values at hand, with what they are there
for. Variables, captured variables and the items of lists are data. The body of a function and the
parts of an expression are program text. A struct that was made by a program holds data; one that
stands in program text holds program text. -/
inductive Interpreter.Contains (i : Interpreter) (hand : Hand) : Role → Value → Prop
  | hand {role : Role} {v : Value} : (role, v) ∈ hand → Contains i hand role v
  | global {name : String} {v : Value} : (name, v) ∈ i.env.globals → Contains i hand .datum v
  | frame {f : Record Value} {name : String} {v : Value} : f ∈ i.env.frames → (name, v) ∈ f →
      Contains i hand .datum v
  | captured {role : Role} {id : Nat} {captured : Record Value} {params : List String}
      {body : Value} {name : String} {v : Value} :
      Contains i hand role (.closure id captured params body) → (name, v) ∈ captured →
      Contains i hand .datum v
  | body {role : Role} {id : Nat} {captured : Record Value} {params : List String} {body : Value} :
      Contains i hand role (.closure id captured params body) → Contains i hand .form body
  | item {role : Role} {items : List Value} {v : Value} : Contains i hand role (.expr items) →
      v ∈ items → Contains i hand .form v
  | inList {role : Role} {a : Nat} {c : Cell} {v : Value} : Contains i hand role (.list a) →
      i.heap.cells[a]? = some c → v ∈ c.values → Contains i hand .datum v
  | inStruct {role : Role} {a : Nat} {c : Cell} {v : Value} : Contains i hand role (.struct a) →
      i.heap.cells[a]? = some c → v ∈ c.values → Contains i hand role v

/-- Whatever is found as data is a datum, and no signal is found anywhere. -/
def Interpreter.KeepsData (i : Interpreter) (hand : Hand) : Prop :=
  ∀ role v, i.Contains hand role v → v.isSignal = false ∧ (role = .datum → v.isDatum = true)

namespace Layout

variable {L : Layout} {i : Interpreter} {hand : Hand}

theorem Fits.not_signal {role : Role} {v : Value} (h : L.Fits role v) : v.isSignal = false := by
  cases v with
  | leaving | breaking | goto | label => exact h.elim
  | _ => rfl

theorem Fits.isDatum {v : Value} (h : L.Fits .datum v) : v.isDatum = true := by
  cases v with
  | symbol => cases h
  | expr => cases h.1
  | leaving | breaking | goto | label => exact h.elim
  | _ => rfl

-- By induction on the way to the value; a list or struct is entered through its cell.
theorem Holds.contains (hi : L.Holds i) (hhand : ∀ p ∈ hand, L.Fits p.1 p.2) {role : Role}
    {v : Value} (h : i.Contains hand role v) : L.Fits role v := by
  induction h with
  | hand hv => exact hhand _ hv
  | global hv => exact fitsFields_iff.mp hi.globals _ hv
  | frame hf hv => exact fitsFields_iff.mp (hi.frames _ hf) _ hv
  | captured _ hv ih => exact fitsFields_iff.mp ih.1 _ hv
  | body _ ih => exact ih.2
  | item _ hv ih => exact fitsAll_iff.mp ih.2 _ hv
  | inList _ hc hv ih => exact fitsCell_iff.mp (hi.heap.data ih hc) _ hv
  | @inStruct role a c v _ hc hv ih =>
    cases role with
    | datum => exact fitsCell_iff.mp (hi.heap.data (ih rfl) hc) _ hv
    | form => exact fitsCell_iff.mp (hi.heap.forms hc) _ hv

end Layout

theorem Interpreter.LaidOut.keepsData {i : Interpreter} {hand : Hand} (h : i.LaidOut hand) :
    i.KeepsData hand := by
  obtain ⟨L, hi, hhand⟩ := h
  intro role v hv
  have hfits := hi.contains hhand hv
  refine ⟨hfits.not_signal, ?_⟩
  rintro rfl
  exact hfits.isDatum

/-- What a session evaluates to: the state keeps data, the value included. -/
theorem Interpreter.Reachable.result_keepsData {i : Interpreter} (h : i.Reachable) {fuel : Nat}
    {r : Reader} {v : Value} {j : Interpreter} (hv : evalForms fuel r.all.1 i = .ok v j) :
    v.isDatum = true ∧ j.KeepsData [(.datum, v)] := by
  obtain ⟨L, hL⟩ := h.exists_layout
  have hends := L.safe_topForms (Layout.tidy_engine fuel) r i hL
  rw [Engine.topForms_ofFuel, hv] at hends
  obtain ⟨M, -, hj, hfits⟩ := hends
  refine ⟨hfits.isDatum, LaidOut.keepsData ⟨M, hj, ?_⟩⟩
  intro p hp
  rw [List.mem_singleton.mp hp]
  exact hfits

/-- In every state of every session, all that is bound to a name, held in a list or struct or
captured by a function is a datum, and so is what evaluating a source returns. The same is true at
every moment of an evaluation: a watch that checks the state, the form or the function with its
arguments before each evaluation and application, and the state and the value or the payload of the
signal after it, never raises its alarm. -/
theorem sessions_keep_data {i : Interpreter} (h : i.Reachable) :
    i.KeepsData [] ∧
    (∀ fuel source v j, evalSource fuel source i = .ok v j →
      v.isDatum = true ∧ j.KeepsData [(.datum, v)]) ∧
    (∀ fuel source answers v, (i.evalInteractive fuel source answers).1 = .ok v →
      v.isDatum = true ∧ (i.evalInteractive fuel source answers).2.1.KeepsData [(.datum, v)]) ∧
    (∀ fuel source answers,
      (i.run ((Engine.watched Interpreter.KeepsData fuel).topForms
        (Reader.ofSource source answers).all.1)).1 ≠ .error .alarm) := by
  refine ⟨?_, fun _ _ _ _ hv => h.result_keepsData hv, ?_, ?_⟩
  · obtain ⟨L, hL⟩ := h.exists_layout
    exact Interpreter.LaidOut.keepsData ⟨L, hL, fun p hp => absurd hp List.not_mem_nil⟩
  · intro fuel source answers v hv
    simp only [Interpreter.evalInteractive, Interpreter.run] at hv ⊢
    cases hr : evalForms fuel (Reader.ofSource source answers).all.1 i with
    | error halt j =>
      rw [hr] at hv
      cases hv
    | ok w j =>
      rw [hr] at hv
      cases hv
      exact h.result_keepsData hr
  · intro fuel source answers
    exact h.never_alarmed (fun _ _ hlaid => hlaid.keepsData) fuel _

-- The body of the function is program text; the function itself is a datum like any other.
theorem sessions_keep_data_function :
    ∃ v j, evalSource 9 "(setq f (lambda () (x) x))" (.fresh 9 {}) = .ok v j ∧
      v.typeName = "Closure" ∧ v.isDatum = true ∧ j.KeepsData [(.datum, v)] := by
  have hname : ((Interpreter.fresh 9 {}).run
      (evalSource 9 "(setq f (lambda () (x) x))")).1.toOption.map Value.typeName =
        some "Closure" := by
    decide +kernel
  unfold Interpreter.run at hname
  cases hr : evalSource 9 "(setq f (lambda () (x) x))" (.fresh 9 {}) with
  | error h j =>
    rw [hr] at hname
    cases hname
  | ok v j =>
    rw [hr] at hname
    exact ⟨v, j, rfl, Option.some.inj hname, (sessions_keep_data (.fresh 9 {})).2.1 9 _ v j hr⟩

end Lisplet
