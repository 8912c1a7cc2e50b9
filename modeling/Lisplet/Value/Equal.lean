import Lisplet.Value.Heap

/-!
# Equality of values

Two values are equal when they have the same shape all the way down: lists item by item, structs
key by key in any order, primitives and closures when they are the same object, errors when they
read the same. A pair of cells that is already being compared further out counts as equal, so the
comparison of values that contain themselves comes to an end.
-/

namespace Lisplet

namespace Value

mutual

/-- Whether two values are equal; `cells` compares the contents of two cells. -/
def same (cells : Nat → Nat → Bool) : Value → Value → Bool
  | .nil, .nil => Bool.true
  | .true, .true => Bool.true
  | .int m, .int n => m == n
  | .double x, .double y => x.same y
  | .str s, .str t => s == t
  | .list a, .list b => cells a b
  | .struct a, .struct b => cells a b
  | .symbol p, .symbol q => p == q
  | .expr xs, .expr ys => sameAll cells xs ys
  | .primitive i _ _, .primitive j _ _ => i == j
  | .checked i _ _ _, .checked j _ _ _ => i == j
  | .closure i _ _ _, .closure j _ _ _ => i == j
  | .leaving v, .leaving w => same cells v w
  | .breaking v, .breaking w => same cells v w
  | .goto s, .goto t => s == t
  | .label s, .label t => s == t
  | .error e, .error f => e.same f
  | _, _ => false

def sameAll (cells : Nat → Nat → Bool) : List Value → List Value → Bool
  | [], [] => Bool.true
  | v :: vs, w :: ws => same cells v w && sameAll cells vs ws
  | _, _ => false

end

end Value

def Cell.same (cells : Nat → Nat → Bool) : Cell → Cell → Bool
  | .list xs, .list ys => Value.sameAll cells xs ys
  | .struct fs, .struct gs =>
    fs.length == gs.length &&
      fs.all fun (key, v) =>
        match Record.get? key gs with
        | some w => v.same cells w
        | none => false
  | _, _ => false

namespace Heap

/-- Whether the cells at `a` and `b` are equal, given the pairs being compared further out. Every
pair entered costs one unit of the budget. -/
def sameCells (h : Heap) : Nat → List (Nat × Nat) → Nat → Nat → Bool
  | 0, _, _, _ => true
  | budget + 1, path, a, b =>
    if a == b || path.contains (a, b) then true
    else
      match h.cells[a]?, h.cells[b]? with
      | some c, some d => c.same (h.sameCells budget ((a, b) :: path)) d
      | _, _ => false

/-- Whether two values are equal. No path enters a pair of cells twice, so as many units as there
are pairs are enough. -/
def same (h : Heap) (v w : Value) : Bool :=
  v.same (h.sameCells (h.size * h.size + 1) []) w

end Heap

end Lisplet
