import Lisplet.Value.Basic

/-!
# The heap

Lists and structs live in cells. A cell is created once and never removed, so an address stays
good. A list is never empty: the empty list is the value `Nil`.
-/

namespace Lisplet

inductive Cell where
  | list (items : List Value)
  | struct (fields : Record Value)
  deriving Inhabited

/-- All cells created so far. The address of a cell is its place. -/
structure Heap where
  cells : Array Cell := #[]

namespace Heap

def size (h : Heap) : Nat :=
  h.cells.size

def items (h : Heap) (a : Nat) : List Value :=
  match h.cells[a]? with
  | some (.list items) => items
  | _ => []

def fields (h : Heap) (a : Nat) : Record Value :=
  match h.cells[a]? with
  | some (.struct fields) => fields
  | _ => []

def alloc (h : Heap) (c : Cell) : Nat × Heap :=
  (h.cells.size, ⟨h.cells.push c⟩)

def write (h : Heap) (a : Nat) (c : Cell) : Heap :=
  ⟨h.cells.setIfInBounds a c⟩

/-- A new list of the given items; without any it is `Nil`. -/
def newList (h : Heap) (items : List Value) : Value × Heap :=
  if items.isEmpty then (.nil, h)
  else
    let (a, h) := h.alloc (.list items)
    (.list a, h)

def newStruct (h : Heap) (fields : Record Value) : Value × Heap :=
  let (a, h) := h.alloc (.struct fields)
  (.struct a, h)

/-! ## Bringing program text in

Every list and struct written in a source has a cell of its own from the moment it is read. -/

mutual

def load (h : Heap) : Form → Value × Heap
  | .nil => (.nil, h)
  | .true => (.true, h)
  | .int n => (.int n, h)
  | .double d => (.double d, h)
  | .str s => (.str s, h)
  | .symbol path => (.symbol path, h)
  | .list items =>
    let (vs, h) := h.loadAll items
    h.newList vs
  | .expr items =>
    let (vs, h) := h.loadAll items
    (.expr vs, h)
  | .struct fields =>
    let (fs, h) := h.loadFields fields
    h.newStruct fs

def loadAll (h : Heap) : List Form → List Value × Heap
  | [] => ([], h)
  | f :: fs =>
    let (v, h) := h.load f
    let (vs, h) := h.loadAll fs
    (v :: vs, h)

def loadFields (h : Heap) : List (String × Form) → Record Value × Heap
  | [] => ([], h)
  | (key, f) :: fs =>
    let (v, h) := h.load f
    let (vs, h) := h.loadFields fs
    ((key, v) :: vs, h)

end

/-! ## Reading what was written -/

theorem items_eq {h : Heap} {a : Nat} {items : List Value}
    (ha : h.cells[a]? = some (.list items)) : h.items a = items := by
  rw [Heap.items, ha]

theorem fields_eq {h : Heap} {a : Nat} {fields : Record Value}
    (ha : h.cells[a]? = some (.struct fields)) : h.fields a = fields := by
  rw [Heap.fields, ha]

theorem items_alloc (h : Heap) (items : List Value) :
    (h.alloc (.list items)).2.items (h.alloc (.list items)).1 = items := by
  simp [alloc, Heap.items]

theorem fields_alloc (h : Heap) (fields : Record Value) :
    (h.alloc (.struct fields)).2.fields (h.alloc (.struct fields)).1 = fields := by
  simp [alloc, Heap.fields]

/-- A new cell leaves every other one alone. -/
theorem getElem?_alloc (h : Heap) (c : Cell) (a : Nat) :
    (h.alloc c).2.cells[a]? = if a = h.size then some c else h.cells[a]? :=
  Array.getElem?_push

theorem getElem?_alloc_self (h : Heap) (c : Cell) : (h.alloc c).2.cells[h.size]? = some c := by
  rw [getElem?_alloc, if_pos rfl]

theorem getElem?_write {h : Heap} {a : Nat} {c d : Cell} (hd : h.cells[a]? = some d) (b : Nat) :
    (h.write a c).cells[b]? = if a = b then some c else h.cells[b]? := by
  obtain ⟨hlt, -⟩ := Array.getElem?_eq_some_iff.mp hd
  simp only [write, Array.getElem?_setIfInBounds, hlt, if_true]

end Heap

end Lisplet
