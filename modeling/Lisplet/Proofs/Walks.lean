import Mathlib
import Lisplet.Value.Equal
import Lisplet.Value.Text

/-!
# Walks without a budget

The text of a value and the comparison of two values are walks through the heap, and each walk has a
budget. Here the same walks are written without one. They end because a walk never goes on from a
place that is on its path already: with every step there are fewer places left for it. So the budget
is always enough, and a walk that has it is the walk that needs none.

The text is cut short with a mark of one's choice here, so that a text can be asked where it was cut.
-/

namespace Lisplet

section

variable {α : Type} [DecidableEq α]

/-- How many of the places a walk along `path` has not been to. -/
def unvisited (places path : List α) : Nat :=
  (places.filter (· ∉ path)).length

theorem unvisited_cons_lt {places path : List α} {a : α} (ha : a ∈ places) (hnew : a ∉ path) :
    unvisited places (a :: path) < unvisited places path := by
  have hfewer : places.filter (· ∉ a :: path) = (places.filter (· ∉ path)).filter (· ≠ a) := by
    rw [List.filter_filter]
    congr 1
    funext b
    simp [not_or]
  unfold unvisited
  rw [hfewer]
  refine List.length_filter_lt_length_iff_exists.mpr ⟨a, ?_, ?_⟩
  · exact List.mem_filter.mpr ⟨ha, by simpa using hnew⟩
  · simp

theorem unvisited_nil (places : List α) : unvisited places [] = places.length := by
  simp [unvisited]

end

namespace Heap

variable {h : Heap} {a b : Nat} {c d : Cell} {mark : String}

def places (h : Heap) : List Nat :=
  List.range h.size

theorem mem_places (ha : h.cells[a]? = some c) : a ∈ h.places :=
  List.mem_range.mpr (Array.getElem?_eq_some_iff.mp ha).1

/-! ## Texts -/

/-- What stands between the brackets of the cell at `a`, inside the cells of `path`, with `mark` for
a cell that is met inside itself. -/
def contentsText (h : Heap) (mark : String) (path : List Nat) (a : Nat) : String :=
  if _hnew : a ∈ path then mark
  else
    match _hc : h.cells[a]? with
    | some c => c.render fun b => h.contentsText mark (a :: path) b
    | none => ""
termination_by unvisited h.places path
decreasing_by exact unvisited_cons_lt (mem_places _hc) _hnew

/-- The text of a value, with `mark` wherever it is cut short. -/
def textMarked (h : Heap) (mark : String) (v : Value) : String :=
  v.render (h.contentsText mark [])

section

variable {path : List Nat}

theorem contentsText_of_mem (ha : a ∈ path) : h.contentsText mark path a = mark := by
  rw [contentsText, dif_pos ha]

theorem contentsText_of_cell (hnew : a ∉ path) (hc : h.cells[a]? = some c) :
    h.contentsText mark path a = c.render (h.contentsText mark (a :: path)) := by
  rw [contentsText, dif_neg hnew]
  split
  next d hd =>
    cases hc.symm.trans hd
    rfl
  next hd => cases hc.symm.trans hd

theorem contentsText_of_none (hnew : a ∉ path) (hc : h.cells[a]? = none) :
    h.contentsText mark path a = "" := by
  rw [contentsText, dif_neg hnew]
  split
  next d hd => cases hc.symm.trans hd
  next => rfl

theorem inside_eq {budget : Nat} (hbudget : unvisited h.places path < budget) :
    h.inside budget path = h.contentsText "..." path := by
  induction budget generalizing path with
  | zero => omega
  | succ budget ih =>
    funext a
    by_cases hnew : a ∈ path
    · rw [contentsText_of_mem hnew, inside, if_pos (by simpa using hnew)]
    · rw [inside, if_neg (by simpa using hnew)]
      cases hc : h.cells[a]? with
      | some c =>
        have hfewer := unvisited_cons_lt (mem_places hc) hnew
        rw [contentsText_of_cell hnew hc, ← ih (by omega)]
      | none => rw [contentsText_of_none hnew hc]

end

/-- The text of a value is the one that a walk without a budget gives. -/
theorem text_eq (h : Heap) (v : Value) : h.text v = h.textMarked "..." v := by
  have hbudget : unvisited h.places [] < h.size + 1 := by
    rw [unvisited_nil, places, List.length_range]
    omega
  rw [text, textMarked, inside_eq hbudget]

/-! ## Comparison -/

/-- Whether the cells at `a` and `b` are equal, given the pairs being compared further out. -/
def sameContents (h : Heap) (path : List (Nat × Nat)) (a b : Nat) : Bool :=
  if _hnew : a = b ∨ (a, b) ∈ path then true
  else
    match _hc : h.cells[a]?, _hd : h.cells[b]? with
    | some c, some d => c.same (fun x y => h.sameContents ((a, b) :: path) x y) d
    | _, _ => false
termination_by unvisited (h.places ×ˢ h.places) path
decreasing_by
  refine unvisited_cons_lt ?_ fun hmem => _hnew (.inr hmem)
  exact List.pair_mem_product.mpr ⟨mem_places _hc, mem_places _hd⟩

section

variable {path : List (Nat × Nat)}

theorem sameContents_of_known (hknown : a = b ∨ (a, b) ∈ path) :
    h.sameContents path a b = true := by
  rw [sameContents, dif_pos hknown]

theorem sameContents_of_cells (hnew : ¬ (a = b ∨ (a, b) ∈ path)) (hc : h.cells[a]? = some c)
    (hd : h.cells[b]? = some d) :
    h.sameContents path a b = c.same (h.sameContents ((a, b) :: path)) d := by
  rw [sameContents, dif_neg hnew]
  split
  next c' d' hc' hd' =>
    cases hc.symm.trans hc'
    cases hd.symm.trans hd'
    rfl
  next hnone => exact (hnone c d hc hd).elim

theorem sameContents_of_none (hnew : ¬ (a = b ∨ (a, b) ∈ path))
    (hnone : h.cells[a]? = none ∨ h.cells[b]? = none) : h.sameContents path a b = false := by
  rw [sameContents, dif_neg hnew]
  split
  next c d hc hd =>
    rcases hnone with hnone | hnone
    · cases hnone.symm.trans hc
    · cases hnone.symm.trans hd
  next => rfl

theorem sameCells_eq {budget : Nat} (hbudget : unvisited (h.places ×ˢ h.places) path < budget) :
    h.sameCells budget path = h.sameContents path := by
  induction budget generalizing path with
  | zero => omega
  | succ budget ih =>
    funext a b
    by_cases hknown : a = b ∨ (a, b) ∈ path
    · rw [sameContents_of_known hknown, sameCells, if_pos (by simpa using hknown)]
    · rw [sameCells, if_neg (by simpa using hknown)]
      cases hc : h.cells[a]? with
      | none => rw [sameContents_of_none hknown (.inl hc)]
      | some c =>
        cases hd : h.cells[b]? with
        | none => rw [sameContents_of_none hknown (.inr hd)]
        | some d =>
          have hplace : (a, b) ∈ h.places ×ˢ h.places :=
            List.pair_mem_product.mpr ⟨mem_places hc, mem_places hd⟩
          have hfewer := unvisited_cons_lt hplace fun hmem => hknown (.inr hmem)
          rw [sameContents_of_cells hknown hc hd, ← ih (by omega)]

end

/-- Two values are equal if a comparison without a budget says so. -/
theorem same_eq (h : Heap) (v w : Value) : h.same v w = v.same (h.sameContents []) w := by
  have hbudget : unvisited (h.places ×ˢ h.places) [] < h.size * h.size + 1 := by
    rw [unvisited_nil, List.length_product, places, List.length_range]
    omega
  rw [same, sameCells_eq hbudget]

end Heap

end Lisplet
