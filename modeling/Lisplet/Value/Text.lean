import Lisplet.Value.Heap

/-!
# The text of a value

The canonical text of a value shows the contents of the cells it reaches. A list or struct that is
met again inside itself is cut short: it shows `...` between its brackets. A cell that is met again
beside itself is shown in full each time.

Values are walked by structural recursion with a function for the inside of cells; the walk through
the heap spends one unit of a budget on every cell it enters. No path enters a cell twice, so as
many units as there are cells are enough.
-/

namespace Lisplet

namespace Value

mutual

/-- The text of a value; `inside` is what stands between the brackets of a cell. -/
def render (inside : Nat → String) : Value → String
  | .nil => "Nil"
  | .true => "True"
  | .int n => Integer.text n
  | .double d => d.text
  | .str s => Text.quote s
  | .list a => "'(" ++ inside a ++ ")"
  | .struct a => "\x7b" ++ inside a ++ "\x7d"
  | .symbol path => path
  | .expr items => "(" ++ " ".intercalate (renderAll inside items) ++ ")"
  | .primitive _ name _ => "[primitive " ++ name ++ "]"
  | .checked _ name _ _ => "[primitive " ++ name ++ "]"
  | .closure _ captured params body =>
    "(lambda (" ++ " ".intercalate (captured.map Prod.fst) ++ ") (" ++ " ".intercalate params ++
      ") " ++ render inside body ++ ")"
  | .leaving v => "(return " ++ render inside v ++ ")"
  | .breaking v => "(break " ++ render inside v ++ ")"
  | .goto target => "(goto " ++ target ++ ")"
  | .label name => "(label " ++ name ++ ")"
  | .error e => e.message

def renderAll (inside : Nat → String) : List Value → List String
  | [] => []
  | v :: vs => render inside v :: renderAll inside vs

end

/-- The text of an item of a list: a nested list drops its apostrophe. -/
def renderItem (inside : Nat → String) : Value → String
  | .list a => "(" ++ inside a ++ ")"
  | v => v.render inside

mutual

/-- The cells that a value mentions, without looking into them. -/
def cells : Value → List Nat
  | .list a => [a]
  | .struct a => [a]
  | .expr items => cellsAll items
  | .closure _ _ _ body => body.cells
  | .leaving v => v.cells
  | .breaking v => v.cells
  | _ => []

def cellsAll : List Value → List Nat
  | [] => []
  | v :: vs => v.cells ++ cellsAll vs

end

end Value

namespace Cell

def render (inside : Nat → String) : Cell → String
  | .list items => " ".intercalate (items.map (Value.renderItem inside))
  | .struct fields => " ".intercalate (fields.map fun (key, v) => key ++ ": " ++ v.render inside)

def cells : Cell → List Nat
  | .list items => items.flatMap Value.cells
  | .struct fields => fields.flatMap fun (_, v) => v.cells

end Cell

namespace Heap

/-- What stands between the brackets of the cell at `a`, inside the cells of `path`. -/
def inside (h : Heap) : Nat → List Nat → Nat → String
  | 0, _, _ => "..."
  | budget + 1, path, a =>
    if path.contains a then "..."
    else
      match h.cells[a]? with
      | some c => c.render (h.inside budget (a :: path))
      | none => ""

def text (h : Heap) (v : Value) : String :=
  v.render (h.inside (h.size + 1) [])

/-- The text a value adds to a string: the contents of a string, the canonical text of anything
else. -/
def plainText (h : Heap) : Value → String
  | .str s => s
  | v => h.text v

/-- Whether showing the cell at `a` would show the cell `target`. -/
def leadsTo (h : Heap) (target : Nat) : Nat → List Nat → Nat → Bool
  | 0, _, _ => false
  | budget + 1, path, a =>
    if path.contains a then false
    else if a == target then true
    else
      match h.cells[a]? with
      | some c => c.cells.any (h.leadsTo target budget (a :: path))
      | none => false

/-- Whether the text of `v` shows the contents of the cell `target`. -/
def shows (h : Heap) (target : Nat) (v : Value) : Bool :=
  v.cells.any (h.leadsTo target (h.size + 1) [])

end Heap

end Lisplet
