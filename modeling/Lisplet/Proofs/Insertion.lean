import Lisplet.Proofs.Evolution
import Lisplet.Proofs.Loading
import Lisplet.Proofs.Renaming

/-!
# One cell more

Two runs may go on in step although one of them has made a cell that the other has not, if nothing
mentions that cell: what is made after it is at addresses that are one further along, and otherwise
the heaps are alike. The cell itself is never looked at and never written.
-/

namespace Lisplet

/-- Where an address is when there is one cell more, at `p`. -/
def shift (p a : Nat) : Nat :=
  if a < p then a else a + 1

section

variable {p a : Nat}

theorem shift_of_lt (h : a < p) : shift p a = a :=
  if_pos h

theorem shift_of_le (h : p ≤ a) : shift p a = a + 1 :=
  if_neg (Nat.not_lt.mpr h)

theorem shift_ne (p a : Nat) : shift p a ≠ p := by
  unfold shift
  split <;> omega

theorem shift_injective (p : Nat) : Function.Injective (shift p) := by
  intro a b h
  unfold shift at h
  split at h <;> split at h <;> omega

end

namespace Heap

/-- The first heap has one cell more than the second: `c`, at `p`. -/
structure Inserts (p : Nat) (c : Cell) (h k : Heap) : Prop where
  place : p ≤ k.size
  size : h.size = k.size + 1
  extra : h.cells[p]? = some c
  cells : h.Moves (shift p) k

variable {p a b : Nat} {c d d' : Cell} {h k : Heap}

theorem size_write (h : Heap) (a : Nat) (c : Cell) : (h.write a c).size = h.size :=
  Array.size_setIfInBounds

theorem Inserts.size_eq (hh : h.Inserts p c k) : h.size = shift p k.size := by
  rw [hh.size, shift_of_le hh.place]

theorem Inserts.alloc (hh : h.Inserts p c k)
    (hd : (Pairing.along (shift p)).AlikeCell (some d) (some d')) :
    (h.alloc d).2.Inserts p c (k.alloc d').2 where
  place := by
    rw [size_alloc]
    exact Nat.le_succ_of_le hh.place
  size := by
    rw [size_alloc, size_alloc, hh.size]
  extra := by
    have hne : p ≠ h.size := by
      rw [hh.size_eq]
      exact (shift_ne p k.size).symm
    rw [getElem?_alloc, if_neg hne, hh.extra]
  cells a := by
    rw [getElem?_alloc, getElem?_alloc, hh.size_eq]
    by_cases ha : a = k.size
    · rw [if_pos (congrArg (shift p) ha), if_pos ha]
      exact hd
    · rw [if_neg (mt (@shift_injective p a k.size) ha), if_neg ha]
      exact hh.cells a

theorem Inserts.write (hh : h.Inserts p c k) (b : Nat)
    (hd : (Pairing.along (shift p)).AlikeCell (some d) (some d')) :
    (h.write (shift p b) d).Inserts p c (k.write b d') where
  place := by
    rw [size_write]
    exact hh.place
  size := by
    rw [size_write, size_write, hh.size]
  extra := by
    rw [Heap.write, Array.getElem?_setIfInBounds_ne (shift_ne p b), hh.extra]
  cells a := by
    by_cases ha : b = a
    · subst ha
      cases hb : k.cells[b]? with
      | some e =>
        obtain ⟨e', he', -⟩ := hh.cells.cell hb
        rw [getElem?_write he', getElem?_write hb, if_pos rfl, if_pos rfl]
        exact hd
      | none =>
        have hb' := hh.cells.none hb
        rw [Array.getElem?_eq_none_iff] at hb hb'
        have hwrite : k.write b d' = k := by
          rw [Heap.write, Array.setIfInBounds_eq_of_size_le hb]
        have hwrite' : h.write (shift p b) d = h := by
          rw [Heap.write, Array.setIfInBounds_eq_of_size_le hb']
        rw [hwrite, hwrite']
        exact hh.cells b
    · rw [Heap.write, Heap.write, Array.getElem?_setIfInBounds_ne ha,
        Array.getElem?_setIfInBounds_ne (mt (@shift_injective p b a) ha)]
      exact hh.cells a

theorem Inserts.items (hh : h.Inserts p c k) (b : Nat) :
    (Pairing.along (shift p)).AlikeAll (h.items (shift p b)) (k.items b) := by
  have hb := hh.cells b
  unfold Heap.items
  generalize h.cells[shift p b]? = x at hb ⊢
  generalize k.cells[b]? = y at hb ⊢
  cases hb with
  | list hs => exact hs
  | none | struct => exact .nil

theorem Inserts.fields (hh : h.Inserts p c k) (b : Nat) :
    (Pairing.along (shift p)).AlikeFields (h.fields (shift p b)) (k.fields b) := by
  have hb := hh.cells b
  unfold Heap.fields
  generalize h.cells[shift p b]? = x at hb ⊢
  generalize k.cells[b]? = y at hb ⊢
  cases hb with
  | struct hr => exact hr
  | none | list => exact .nil

/-! ## The cell is made -/

theorem self_within_along (h : Heap) : h.self.Within (.along (shift h.size)) := by
  have hlt : ∀ {a : Nat} {c : Cell}, h.cells[a]? = some c → a = shift h.size a := fun hc =>
    (shift_of_lt (Array.getElem?_eq_some_iff.mp hc).1).symm
  constructor
  · rintro a _ ⟨rfl, items, hitems⟩
    exact hlt hitems
  · rintro a _ ⟨rfl, fields, hfields⟩
    exact hlt hfields

/-- A new cell that nothing mentions yet. -/
theorem Coherent.inserts_alloc (hh : h.Coherent) (c : Cell) : (h.alloc c).2.Inserts h.size c h where
  place := Nat.le_refl h.size
  size := size_alloc h c
  extra := getElem?_alloc_self h c
  cells a := by
    cases ha : h.cells[a]? with
    | none =>
      have hle : h.size ≤ a := Array.getElem?_eq_none_iff.mp ha
      have hnone : h.cells[a + 1]? = none := Array.getElem?_eq_none_iff.mpr (Nat.le_succ_of_le hle)
      rw [shift_of_le hle, getElem?_alloc, if_neg (by omega), hnone]
      exact .none
    | some d =>
      have hlt : a < h.size := (Array.getElem?_eq_some_iff.mp ha).1
      have hrefers := (hh.refers a d ha).mono h.self_within_along
      rw [shift_of_lt hlt, getElem?_alloc, if_neg (Nat.ne_of_lt hlt), ha]
      cases d with
      | list items => exact .list hrefers
      | struct fields => exact .struct hrefers

end Heap

/-! ## Two runs -/

/-- Two runs at the same levels, of which the first has one cell more: which one, and where. The first
is excused when it raises the alarm or runs out of fuel. -/
def Lockstep.insertion : Lockstep where
  World := Nat × Cell
  Later := Eq
  refl _ := rfl
  trans := .trans
  pairing w := .along (shift w.1)
  within h := h ▸ .refl _
  heaps w h k := h.Inserts w.1 w.2 k
  nests n := n.left = n.right ∧ n.leftLimit = n.rightLimit
  excuses h := h = .alarm ∨ h = .outOfFuel
  not_excuses _ := nofun
  follows := False
  pairing_eq := False.elim
  heaps_eq := False.elim
  nests_eq := False.elim
  deeper := Lockstep.evolution.deeper
  text hh hv := hh.cells.text (shift_injective _) hv
  shows := by
    rintro w h k _ b v v' hh rfl hv
    exact hh.cells.shows (shift_injective _) b hv
  same hh hu hv := hh.cells.same (shift_injective _) hu hv
  lists := by
    rintro w _ b _ d rfl rfl
    exact (shift_injective _).eq_iff
  structs := by
    rintro w _ b _ d rfl rfl
    exact (shift_injective _).eq_iff
  items := by
    rintro w h k _ b hh rfl
    exact hh.items b
  fields := by
    rintro w h k _ b hh rfl
    exact hh.fields b
  newList := fun {w _ _ _ _} hh hvs _ => ⟨w, rfl, hh.alloc (.list hvs), hh.size_eq⟩
  copyList := by
    rintro w h k _ b hh rfl
    exact ⟨w, rfl, hh.alloc (.list (hh.items b)), hh.size_eq⟩
  newStruct := fun {w _ _ _ _} hh hr _ => ⟨w, rfl, hh.alloc (.struct hr), hh.size_eq⟩
  storeItem := by
    rintro w h k _ b v v' n hh rfl hv -
    exact ⟨w, rfl, hh.write b (.list ((hh.items b).set n hv))⟩
  storeField := by
    rintro w h k _ b v v' key hh rfl hv
    exact ⟨w, rfl, hh.write b (.struct ((hh.fields b).insert key hv))⟩

structure Interpreter.Inserts (p : Nat) (c : Cell) (i j : Interpreter) : Prop where
  heap : i.heap.Inserts p c j.heap
  env : (Pairing.along (shift p)).AlikeEnv i.env j.env
  rest : i = { j with heap := i.heap, env := i.env }

theorem Interpreter.Inserts.withDepth {p : Nat} {c : Cell} {i j : Interpreter} (h : i.Inserts p c j)
    (d : Nat) : Interpreter.Inserts p c { i with depth := d } { j with depth := d } where
  heap := h.heap
  env := h.env
  rest := by rw [h.rest]

theorem Lockstep.Rel.inserts {w : Nat × Cell} {n : Nesting} {i j : Interpreter}
    (h : Lockstep.insertion.Rel w n i j) (hidle : j.uses = []) : i.Inserts w.1 w.2 j where
  heap := h.heap
  env := h.env
  rest := by
    obtain ⟨hlevel, hlimit⟩ := h.nests
    have hdepth : i.depth = j.depth := by rw [h.left, h.right, hlevel]
    have hmax : i.maxDepth = j.maxDepth := by rw [h.leftLimit, h.rightLimit, hlimit]
    have huses : i.uses = j.uses := by
      have huse := h.uses
      rw [hidle] at huse ⊢
      generalize i.uses = used at huse
      cases huse
      rfl
    rw [← h.help, ← h.console, ← h.nextId, ← hdepth, ← hmax, ← huses]

end Lisplet
