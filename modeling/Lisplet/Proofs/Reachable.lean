import Lisplet.Proofs.Frames

/-!
# Reachable states, and the values found in a state

A session starts with a fresh interpreter and evaluates one source after the other. A policy that
allows the primitives of the prelude is kept to in every state of every session.

Other statements are about the values that can be found in any state at all, whether in a variable,
in a cell, in a function or in the form to be evaluated. Each state keeps to the policy that allows
just what can be found in it.
-/

namespace Lisplet

open Policy

/-! ## Sessions -/

/-- The states that a session can get into. A source that fails leaves a state like any other. -/
inductive Interpreter.Reachable : Interpreter → Prop
  | fresh (maxDepth : Nat) (console : Console) : Reachable (.fresh maxDepth console)
  | source {i : Interpreter} (fuel : Nat) (source : String) :
      Reachable i → Reachable (i.run (evalSource fuel source)).2
  | interactive {i : Interpreter} (fuel : Nat) (source : String) (answers : List (Option String)) :
      Reachable i → Reachable (i.evalInteractive fuel source answers).2.1

section

variable {P : Policy} {i : Interpreter}

theorem Policy.Admits.define (hi : P.Admits i) {d : Definition} (hd : P.primitive d.contract d.op) :
    P.Admits (i.define d) := by
  refine ⟨?_, hi.frames, hi.heap, hi.idle⟩
  refine AllowsFields.insert hi.globals d.name ?_
  cases hc : d.contract with
  | none =>
    rw [hc] at hd
    exact hd
  | some contract =>
    rw [hc] at hd
    exact hd

theorem Policy.Admits.get? (hi : P.Admits i) {name : String} {v : Value}
    (h : i.env.get? name = some v) : P.Allows v := by
  have hlookup := sound_lookup (P := P) name i hi
  simp only [Eval.lookup, Environment.lookup, h] at hlookup
  exact hlookup.2

theorem Policy.Admits.defineAlias (hi : P.Admits i) (name target : String) :
    P.Admits (i.defineAlias name target) := by
  unfold Interpreter.defineAlias
  split
  next v hv => exact ⟨AllowsFields.insert hi.globals name (hi.get? hv), hi.frames, hi.heap, hi.idle⟩
  next => exact hi

-- What holds of an empty interpreter and carries over every definition holds of a fresh one.
theorem Interpreter.fresh_induction {motive : Interpreter → Prop} {maxDepth : Nat}
    {console : Console} (hempty : motive { maxDepth, console })
    (hdefine : ∀ i, ∀ d ∈ Prelude.definitions, motive i → motive (i.define d))
    (halias : ∀ (i : Interpreter) name target, motive i → motive (i.defineAlias name target)) :
    motive (.fresh maxDepth console) := by
  unfold fresh
  -- The lists are long, so they are kept out of sight.
  generalize Prelude.aliases = aliases
  generalize Prelude.definitions = definitions at hdefine ⊢
  apply List.foldlRecOn (motive := motive)
  · exact List.foldlRecOn definitions _ hempty fun i hi d hd => hdefine i d hd hi
  · exact fun i hi pair _ => halias i pair.1 pair.2 hi

theorem Policy.admits_fresh (hcell : ∀ a, P.cell a)
    (hprelude : ∀ d ∈ Prelude.definitions, P.primitive d.contract d.op) (maxDepth : Nat)
    (console : Console) : P.Admits (.fresh maxDepth console) := by
  have hheap : P.AdmitsHeap {} := ⟨fun _ hc => by simp at hc, fun _ => hcell _⟩
  have hempty : P.Admits { maxDepth, console } :=
    ⟨trivial, fun f hf => absurd hf List.not_mem_nil, hheap, .inl rfl⟩
  exact Interpreter.fresh_induction hempty (fun _ d hd hi => hi.define (hprelude d hd))
    fun _ name target hi => hi.defineAlias name target

theorem Interpreter.uses_fresh (maxDepth : Nat) (console : Console) :
    (fresh maxDepth console).uses = [] := by
  refine fresh_induction (motive := fun i => i.uses = []) rfl (fun _ _ _ hi => hi) ?_
  intro i name target hi
  unfold defineAlias
  split
  · exact hi
  · exact hi

/-- A session keeps to every policy that the prelude keeps to. -/
theorem Interpreter.Reachable.admits (h : i.Reachable) (hexhaust : P.exhaust)
    (hcell : ∀ a, P.cell a)
    (hprelude : ∀ d ∈ Prelude.definitions, P.primitive d.contract d.op) : P.Admits i := by
  induction h with
  | fresh maxDepth console => exact admits_fresh hcell hprelude maxDepth console
  | source fuel source _ ih => exact ((sound_evalSource hexhaust fuel source).reaches ih).admits ih
  | interactive fuel source answers _ ih =>
    exact ((sound_evalForms hexhaust fuel source answers).reaches ih).admits ih

/-- Between two sources no cell is in use. -/
theorem Interpreter.Reachable.idle (h : i.Reachable) : i.uses = [] := by
  induction h with
  | fresh maxDepth console => exact uses_fresh maxDepth console
  | @source j fuel source _ ih =>
    have hkeeps := ((sound_evalSource trivial fuel source).reaches (lax_permissive.admits j)).keeps
    exact hkeeps.uses.trans ih
  | @interactive j fuel source answers _ ih =>
    have hkeeps :=
      ((sound_evalForms trivial fuel source answers).reaches (lax_permissive.admits j)).keeps
    exact hkeeps.uses.trans ih

end

/-! ## Values in a state -/

def Cell.values : Cell → List Value
  | .list items => items
  | .struct fields => fields.map Prod.snd

def Value.operation? : Value → Option (Option (List Kind) × Operation)
  | .primitive _ _ op => some (none, op)
  | .checked _ _ contract op => some (some contract, op)
  | _ => none

/-- The values that can be found from a form and a state: through variables, expressions, functions,
signals and cells. -/
inductive Interpreter.Occurs (i : Interpreter) (form : Value) : Value → Prop
  | form : Occurs i form form
  | global {name : String} {v : Value} : (name, v) ∈ i.env.globals → Occurs i form v
  | frame {f : Record Value} {name : String} {v : Value} : f ∈ i.env.frames → (name, v) ∈ f →
      Occurs i form v
  | item {items : List Value} {v : Value} : Occurs i form (.expr items) → v ∈ items →
      Occurs i form v
  | captured {id : Nat} {captured : Record Value} {params : List String} {body : Value}
      {name : String} {v : Value} : Occurs i form (.closure id captured params body) →
      (name, v) ∈ captured → Occurs i form v
  | body {id : Nat} {captured : Record Value} {params : List String} {body : Value} :
      Occurs i form (.closure id captured params body) → Occurs i form body
  | leaving {v : Value} : Occurs i form (.leaving v) → Occurs i form v
  | breaking {v : Value} : Occurs i form (.breaking v) → Occurs i form v
  | inList {a : Nat} {c : Cell} {v : Value} : Occurs i form (.list a) →
      i.heap.cells[a]? = some c → v ∈ c.values → Occurs i form v
  | inStruct {a : Nat} {c : Cell} {v : Value} : Occurs i form (.struct a) →
      i.heap.cells[a]? = some c → v ∈ c.values → Occurs i form v

namespace Policy

variable {P : Policy} {i : Interpreter} {form : Value}

theorem allowsCell_iff {c : Cell} : P.AllowsCell c ↔ ∀ v ∈ c.values, P.Allows v := by
  cases c with
  | list items => exact allowsAll_iff
  | struct fields =>
    refine allowsFields_iff.trans ⟨?_, ?_⟩
    · intro h v hv
      obtain ⟨e, he, rfl⟩ := List.mem_map.mp hv
      exact h e he
    · intro h e he
      exact h e.2 (List.mem_map_of_mem he)

/-- Everything that can be found in an admitted state is allowed. -/
theorem Admits.occurs (hi : P.Admits i) (hform : P.Allows form) {v : Value}
    (h : i.Occurs form v) : P.Allows v := by
  induction h with
  | form => exact hform
  | global hv => exact allowsFields_iff.mp hi.globals _ hv
  | frame hf hv => exact allowsFields_iff.mp (hi.frames _ hf) _ hv
  | item _ hv ih => exact allowsAll_iff.mp ih _ hv
  | captured _ hv ih => exact allowsFields_iff.mp ih.1 _ hv
  | body _ ih => exact ih.2
  | leaving _ ih => exact ih
  | breaking _ ih => exact ih
  | inList _ hc hv ih => exact allowsCell_iff.mp (hi.heap.cells ih hc) _ hv
  | inStruct _ hc hv ih => exact allowsCell_iff.mp (hi.heap.cells ih hc) _ hv

/-! ## What can be found is all there is -/

def Finds (i : Interpreter) (form : Value) (contract : Option (List Kind)) (op : Operation) : Prop :=
  ∃ v, i.Occurs form v ∧ v.operation? = some (contract, op)

/-- The policy for evaluating a form in a state: what can be found there, and the cells to come. -/
def found (i : Interpreter) (form : Value) : Policy where
  primitive := Finds i form
  jump := (∃ target, i.Occurs form (.goto target)) ∨ ∃ contract, Finds i form contract .goto
  cell a := i.Occurs form (.list a) ∨ i.Occurs form (.struct a) ∨ i.heap.size ≤ a
  crash
    | .missingArgument => ∃ contract op, Finds i form contract op ∧ ¬ op.Fits contract
    | .cellInUse => ∃ contract, Finds i form contract .store
    | .characterCut => False
  exhaust := True
  jump_of_goto hop := .inr ⟨_, hop⟩
  missing_of_unfit hop hunfit := ⟨_, _, hop, hunfit⟩
  inUse_of_store hop := ⟨_, hop⟩

-- What is found inside a value can itself be found, so the induction is on the value.
mutual

theorem found_allows : (v : Value) → i.Occurs form v → (found i form).Allows v
  | .nil, _ | .true, _ | .int _, _ | .double _, _ | .str _, _ | .symbol _, _ => trivial
  | .label _, _ | .error _, _ => trivial
  | .list _, hv => .inl hv
  | .struct _, hv => .inr (.inl hv)
  | .primitive _ _ _, hv => ⟨_, hv, rfl⟩
  | .checked _ _ _ _, hv => ⟨_, hv, rfl⟩
  | .goto target, hv => .inl ⟨target, hv⟩
  | .expr items, hv => found_allowsAll items fun _ hw => .item hv hw
  | .closure _ captured _ body, hv =>
    ⟨found_allowsFields captured fun _ hw => .captured hv hw, found_allows body (.body hv)⟩
  | .leaving v, hv => found_allows v (.leaving hv)
  | .breaking v, hv => found_allows v (.breaking hv)

theorem found_allowsAll :
    (vs : List Value) → (∀ v ∈ vs, i.Occurs form v) → (found i form).AllowsAll vs
  | [], _ => trivial
  | v :: vs, hvs =>
    ⟨found_allows v (hvs v List.mem_cons_self),
      found_allowsAll vs fun w hw => hvs w (List.mem_cons_of_mem _ hw)⟩

theorem found_allowsFields :
    (r : List (String × Value)) → (∀ e ∈ r, i.Occurs form e.2) → (found i form).AllowsFields r
  | [], _ => trivial
  | (name, v) :: r, hr =>
    ⟨found_allows v (hr (name, v) List.mem_cons_self),
      found_allowsFields r fun e he => hr e (List.mem_cons_of_mem _ he)⟩

end

/-- Every state keeps to what can be found in it. -/
theorem admits_found (hidle : i.uses = []) : (found i form).Admits i where
  globals := found_allowsFields _ fun _ he => .global he
  frames f hf := found_allowsFields f fun _ he => .frame hf he
  heap := by
    refine ⟨?_, fun ha => .inr (.inr ha)⟩
    intro a c ha hc
    refine allowsCell_iff.mpr fun v hv => found_allows v ?_
    rcases ha with ha | ha | ha
    · exact .inList ha hc hv
    · exact .inStruct ha hc hv
    · rw [Array.getElem?_eq_none ha] at hc
      cases hc
  idle := .inl hidle

end Policy

end Lisplet
