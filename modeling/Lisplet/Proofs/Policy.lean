import Lisplet.Interpreter.Run

/-!
# Policies

A policy says which primitives may be found in a state, whether jumps may travel as values, which
cells values may lead to, and which crashes may come of all that. It is closed: what the operations
of the allowed primitives make of allowed values is allowed again. So a policy that a state keeps to
is kept to by everything that is evaluated in it, and what may be reached there can be read off
the policy.

The cells of a policy include every address that is not taken yet. New cells are therefore allowed
from the start, and the policy does not change while the heap grows.
-/

namespace Lisplet

/-! ## How many arguments an operation needs -/

/-- The number of arguments an operation takes for granted. The others check for themselves. -/
def Operation.arity : Operation → Nat
  | .block | .whileLoop | .untilLoop | .doLoop | .subtract | .divide | .not | .toInt | .toDouble
  | .count | .append | .keys | .eval | .throw | .typeName | .bound => 1
  | .modulo | .less | .greater | .atMost | .atLeast | .equal | .different | .fetch | .assign
  | .apply => 2
  | .forLoop | .lambda | .store | .attempt => 3
  | _ => 0

/-- The number of arguments a contract promises; without a contract it is none. -/
def promised : Option (List Kind) → Nat
  | none => 0
  | some contract => (fixedKinds contract).length

def Operation.Fits (contract : Option (List Kind)) (op : Operation) : Prop :=
  op.arity ≤ promised contract

instance (contract : Option (List Kind)) (op : Operation) : Decidable (op.Fits contract) :=
  inferInstanceAs (Decidable (_ ≤ _))

/-! ## Policies and the values they allow -/

/-- What may be found in a state. -/
structure Policy where
  /-- The primitives allowed, by contract and operation. -/
  primitive : Option (List Kind) → Operation → Prop
  /-- Whether jumps are allowed as values. -/
  jump : Prop
  /-- The cells that values may lead to. -/
  cell : Nat → Prop
  /-- The crashes that may happen. -/
  crash : Crash → Prop
  /-- Whether fuel may run out. -/
  exhaust : Prop
  jump_of_goto : ∀ {contract}, primitive contract .goto → jump
  missing_of_unfit : ∀ {contract op}, primitive contract op → ¬ op.Fits contract →
    crash .missingArgument
  inUse_of_store : ∀ {contract}, primitive contract .store → crash .cellInUse

namespace Policy

def lax : Policy where
  primitive _ _ := True
  jump := True
  cell _ := True
  crash _ := True
  exhaust := True
  jump_of_goto _ := trivial
  missing_of_unfit _ _ := trivial
  inUse_of_store _ := trivial

/-- Like `lax`, but no computation is to run out of fuel. -/
def patient : Policy :=
  { lax with exhaust := False }

variable (P : Policy)

mutual

/-- The values a policy allows. Cells are not looked into. -/
def Allows : Value → Prop
  | .list a => P.cell a
  | .struct a => P.cell a
  | .expr items => AllowsAll items
  | .primitive _ _ op => P.primitive none op
  | .checked _ _ contract op => P.primitive (some contract) op
  | .closure _ captured _ body => AllowsFields captured ∧ Allows body
  | .leaving v => Allows v
  | .breaking v => Allows v
  | .goto _ => P.jump
  | _ => True

def AllowsAll : List Value → Prop
  | [] => True
  | v :: vs => Allows v ∧ AllowsAll vs

def AllowsFields : List (String × Value) → Prop
  | [] => True
  | (_, v) :: r => Allows v ∧ AllowsFields r

end

def AllowsCell : Cell → Prop
  | .list items => P.AllowsAll items
  | .struct fields => P.AllowsFields fields

/-- The halts a policy allows: every error is among them. -/
def AllowsHalt : Halt → Prop
  | .error _ => True
  | .crash c => P.crash c
  | .outOfFuel => P.exhaust

/-- The heaps a policy admits: its cells have allowed contents, and new ones are among them. -/
structure AdmitsHeap (h : Heap) : Prop where
  cells : ∀ {a c}, P.cell a → h.cells[a]? = some c → P.AllowsCell c
  fresh : ∀ {a}, h.size ≤ a → P.cell a

/-- The states a policy admits. A cell may be in use only if that may cause a crash. -/
structure Admits (i : Interpreter) : Prop where
  globals : P.AllowsFields i.env.globals
  frames : ∀ f ∈ i.env.frames, P.AllowsFields f
  heap : P.AdmitsHeap i.heap
  idle : i.uses = [] ∨ P.crash .cellInUse

variable {P}

/-! ## Allowed sequences and records -/

theorem allowsAll_iff {vs : List Value} : P.AllowsAll vs ↔ ∀ v ∈ vs, P.Allows v := by
  induction vs with
  | nil => simp [AllowsAll]
  | cons v vs ih => simp [AllowsAll, ih]

theorem allowsFields_iff {r : Record Value} : P.AllowsFields r ↔ ∀ e ∈ r, P.Allows e.2 := by
  induction r with
  | nil => simp [AllowsFields]
  | cons e r ih => simp [AllowsFields, ih]

theorem AllowsAll.append {vs ws : List Value} (hv : P.AllowsAll vs) (hw : P.AllowsAll ws) :
    P.AllowsAll (vs ++ ws) := by
  rw [allowsAll_iff] at *
  intro v h
  rcases List.mem_append.mp h with h | h
  · exact hv v h
  · exact hw v h

theorem AllowsAll.reverse {vs : List Value} (h : P.AllowsAll vs) : P.AllowsAll vs.reverse := by
  rw [allowsAll_iff] at *
  intro v hv
  exact h v (List.mem_reverse.mp hv)

theorem AllowsAll.drop {vs : List Value} (h : P.AllowsAll vs) (n : Nat) :
    P.AllowsAll (vs.drop n) := by
  rw [allowsAll_iff] at *
  intro v hv
  exact h v (List.mem_of_mem_drop hv)

theorem AllowsAll.set {vs : List Value} {v : Value} (h : P.AllowsAll vs) (hv : P.Allows v)
    (n : Nat) : P.AllowsAll (vs.set n v) := by
  rw [allowsAll_iff] at *
  intro w hw
  rcases List.mem_or_eq_of_mem_set hw with hw | rfl
  · exact h w hw
  · exact hv

theorem AllowsAll.getD {vs : List Value} (h : P.AllowsAll vs) (n : Nat) :
    P.Allows (vs[n]?.getD .nil) := by
  cases hn : vs[n]? with
  | none => exact trivial
  | some v => exact allowsAll_iff.mp h v (List.mem_of_getElem? hn)

theorem AllowsFields.get? {r : Record Value} {key : String} {v : Value} (h : P.AllowsFields r)
    (hv : r.get? key = some v) : P.Allows v := by
  induction r with
  | nil => simp [Record.get?] at hv
  | cons e r ih =>
    obtain ⟨k, w⟩ := e
    by_cases hk : k = key
    · simp only [Record.get?, hk, if_true, Option.some.injEq] at hv
      exact hv ▸ h.1
    · simp only [Record.get?, hk, if_false] at hv
      exact ih h.2 hv

theorem AllowsFields.insert {r : Record Value} {v : Value} (h : P.AllowsFields r) (key : String)
    (hv : P.Allows v) : P.AllowsFields (r.insert key v) := by
  induction r with
  | nil => exact ⟨hv, trivial⟩
  | cons e r ih =>
    obtain ⟨k, w⟩ := e
    by_cases hk : k = key
    · simp only [Record.insert, hk, if_true]
      exact ⟨hv, h.2⟩
    · simp only [Record.insert, hk, if_false]
      exact ⟨h.1, ih h.2⟩

/-- What a kind makes of an allowed value is allowed: it is the value itself, or a symbol. -/
theorem allows_accept {kind : Kind} {v w : Value} (hv : P.Allows v)
    (hw : kind.accept? v = some w) : P.Allows w := by
  cases kind <;> cases v <;> simp [Kind.accept?, Value.isCallable] at hw <;> subst hw <;>
    exact hv

/-! ## Policies without restrictions -/

structure Permissive (P : Policy) : Prop where
  primitive : ∀ contract op, P.primitive contract op
  jump : P.jump
  cell : ∀ a, P.cell a
  inUse : P.crash .cellInUse

theorem lax_permissive : lax.Permissive :=
  ⟨fun _ _ => trivial, trivial, fun _ => trivial, trivial⟩

theorem lax_allowsHalt (h : Halt) : lax.AllowsHalt h := by
  cases h <;> exact trivial

theorem patient_permissive : patient.Permissive :=
  ⟨fun _ _ => trivial, trivial, fun _ => trivial, trivial⟩

namespace Permissive

mutual

theorem allows (hP : P.Permissive) : (v : Value) → P.Allows v
  | .nil | .true | .int _ | .double _ | .str _ | .symbol _ | .label _ | .error _ => trivial
  | .list a => hP.cell a
  | .struct a => hP.cell a
  | .primitive _ _ op => hP.primitive none op
  | .checked _ _ contract op => hP.primitive (some contract) op
  | .goto _ => hP.jump
  | .expr items => hP.allowsAll items
  | .closure _ captured _ body => ⟨hP.allowsFields captured, hP.allows body⟩
  | .leaving v => hP.allows v
  | .breaking v => hP.allows v

theorem allowsAll (hP : P.Permissive) : (vs : List Value) → P.AllowsAll vs
  | [] => trivial
  | v :: vs => ⟨hP.allows v, hP.allowsAll vs⟩

theorem allowsFields (hP : P.Permissive) : (r : List (String × Value)) → P.AllowsFields r
  | [] => trivial
  | (_, v) :: r => ⟨hP.allows v, hP.allowsFields r⟩

end

theorem allowsCell (hP : P.Permissive) (c : Cell) : P.AllowsCell c := by
  cases c with
  | list items => exact hP.allowsAll items
  | struct fields => exact hP.allowsFields fields

theorem admits (hP : P.Permissive) (i : Interpreter) : P.Admits i where
  globals := hP.allowsFields _
  frames f _ := hP.allowsFields f
  heap := ⟨fun _ _ => hP.allowsCell _, fun _ => hP.cell _⟩
  idle := .inr hP.inUse

end Permissive

end Policy

end Lisplet
