import Lisplet.Interpreter.Run

/-!
# Cells in use

While no cell is in use, every look into the heap succeeds and so does every write. A computation
that only looks does not mind more readers: it comes to the same, and it leaves the state as it is.
So to keep a list in use for reading while its items are looked at makes no difference.
-/

namespace Lisplet

variable {i : Interpreter} {cell : Nat}

namespace Interpreter

theorem barred_of_idle (hidle : i.uses = []) (cells : Nat → Bool) : i.barred cells = false := by
  rw [barred, hidle]
  rfl

theorem inUse_of_idle (hidle : i.uses = []) (cell : Nat) : i.inUse cell = false := by
  rw [inUse, hidle]
  rfl

/-- A cell that may be written may be read. -/
theorem barred_of_inUse (h : i.inUse cell = false) : i.barred (· == cell) = false := by
  unfold inUse barred at *
  simp only [List.any_eq_false] at *
  intro use huse
  simp [h use huse]

theorem run_error_iff {α : Type} {x : Eval α} {h : Halt} :
    (i.run x).1 = .error h ↔ ∃ k, x i = .error h k := by
  unfold run
  cases x i <;> simp

end Interpreter

namespace Eval

variable {α β : Type} {x : Eval α} {f : α → Eval β} {i j : Interpreter}

theorem bind_of_ok {a : α} (h : x i = .ok a j) : (x >>= f) i = f a j := by
  change EStateM.bind x f i = _
  rw [EStateM.bind, h]

theorem bind_of_error {h : Halt} (hx : x i = .error h j) : (x >>= f) i = .error h j := by
  change EStateM.bind x f i = _
  rw [EStateM.bind, hx]

/-! ## No cell in use -/

section Idle

variable (hidle : i.uses = [])
include hidle

theorem looking_of_idle (reads : Heap → Nat → Bool) (act : Eval α) :
    looking reads act i = act i := by
  rw [looking, Interpreter.barred_of_idle hidle]
  rfl

theorem write_of_idle (cell : Nat) (contents : Cell) :
    write cell contents i = .ok () { i with heap := i.heap.write cell contents } := by
  rw [write, Interpreter.inUse_of_idle hidle]
  rfl

theorem whileWriting_of_idle (cell : Nat) (act : Eval α) :
    whileWriting cell act i = during ⟨cell, true⟩ act i := by
  rw [whileWriting, Interpreter.inUse_of_idle hidle]
  rfl

theorem failWith_of_idle (cause : String → Cause) (v : Value) :
    (failWith cause v : Eval α) i = .error (.error { cause := cause (i.heap.text v) }) i := by
  have htext : text v i = .ok (i.heap.text v) i := looking_of_idle hidle _ _
  unfold failWith
  simp only [bind, EStateM.bind, htext]
  rfl

end Idle

/-! ## Computations that only look -/

def answer : Except Halt α → Eval α
  | .ok a => pure a
  | .error h => throw h

/-- A computation that only looks: with one more reader of any cell it comes to the same. -/
def Looks (x : Eval α) : Prop :=
  ∀ (i : Interpreter) (cell : Nat), ∃ r : Except Halt α,
    x i = answer r i ∧
      x { i with uses := ⟨cell, false⟩ :: i.uses } =
        answer r { i with uses := ⟨cell, false⟩ :: i.uses }

theorem looks_pure (a : α) : (pure a : Eval α).Looks :=
  fun _ _ => ⟨.ok a, rfl, rfl⟩

theorem looks_fail (cause : Cause) : (fail cause : Eval α).Looks :=
  fun _ _ => ⟨.error (.error { cause }), rfl, rfl⟩

theorem looks_bind (hx : x.Looks) (hf : ∀ a, (f a).Looks) :
    (x >>= f).Looks := by
  intro i cell
  simp only [bind, EStateM.bind]
  obtain ⟨r, hi, hj⟩ := hx i cell
  rw [hi, hj]
  cases r with
  | ok a => exact hf a i cell
  | error h => exact ⟨.error h, rfl, rfl⟩

-- A reader more bars nothing.
theorem looks_looking {reads : Heap → Nat → Bool} (hx : x.Looks) :
    (looking reads x).Looks := by
  intro i cell
  have hbarred : Interpreter.barred { i with uses := ⟨cell, false⟩ :: i.uses } (reads i.heap) =
      i.barred (reads i.heap) := rfl
  simp only [looking, hbarred]
  cases i.barred (reads i.heap) with
  | true => exact ⟨.error (.crash .cellInUse), rfl, rfl⟩
  | false => exact hx i cell

theorem looks_failWith (cause : String → Cause) (v : Value) :
    (failWith cause v : Eval α).Looks :=
  looks_bind (looks_looking fun i _ => ⟨.ok (i.heap.text v), rfl, rfl⟩) fun _ => looks_fail _

/-- Where the items of a list are only looked at, it need not be in use meanwhile. -/
theorem whileReading_items (cell : Nat) {f : List Value → Eval α} (hf : ∀ items, (f items).Looks) :
    whileReading cell (items cell >>= f) = items cell >>= f := by
  funext i
  let j : Interpreter := { i with uses := ⟨cell, false⟩ :: i.uses }
  cases hbarred : i.barred (· == cell) with
  | true =>
    have hitems : items cell i = .error (.crash .cellInUse) i := if_pos hbarred
    rw [bind_of_error hitems]
    exact if_pos hbarred
  | false =>
    have hopen : ¬ i.barred (· == cell) = true := by simp [hbarred]
    have hitems : items cell i = .ok (i.heap.items cell) i := if_neg hopen
    have hitems' : items cell j = .ok (i.heap.items cell) j := if_neg hopen
    obtain ⟨r, hi, hj⟩ := hf (i.heap.items cell) i cell
    have hwhile : whileReading cell (items cell >>= f) i = during ⟨cell, false⟩ _ i := if_neg hopen
    have hinside : (items cell >>= f) j = answer r j := (bind_of_ok hitems').trans hj
    rw [bind_of_ok hitems, hi, hwhile, during, hinside]
    cases r <;> rfl

end Eval

open Eval

namespace Builtin

theorem looks_listIndex (length : Nat) (v : Value) : (listIndex length v).Looks := by
  unfold listIndex
  split
  · split
    · exact looks_pure _
    · exact looks_fail _
  · exact looks_failWith _ _

theorem looks_localNames (vs : List Value) : (localNames vs).Looks := by
  have hname : ∀ v, (localName v).Looks := by
    intro v
    unfold localName
    split
    · split
      · exact looks_pure _
      · exact looks_failWith _ _
    · exact looks_failWith _ _
  induction vs with
  | nil => exact looks_pure []
  | cons v vs ih =>
    exact looks_bind (hname v) fun name => looks_bind ih fun names => looks_pure (name :: names)

theorem whileReading_item (cell : Nat) (index : Value) :
    whileReading cell (do
      let items ← items cell
      let n ← listIndex items.length index
      pure (items[n]?.getD .nil)) = (do
      let items ← items cell
      let n ← listIndex items.length index
      pure (items[n]?.getD .nil)) :=
  whileReading_items cell fun _ => looks_bind (looks_listIndex _ index) fun _ => looks_pure _

theorem whileReading_names (cell : Nat) :
    whileReading cell (do
      let names ← localNames (← items cell)
      pure (Record.ofEntries (names.map fun name => (name, Value.nil)))) = (do
      let names ← localNames (← items cell)
      pure (Record.ofEntries (names.map fun name => (name, Value.nil)))) :=
  whileReading_items cell fun vs => looks_bind (looks_localNames vs) fun _ => looks_pure _

end Builtin

end Lisplet
