import Lisplet.Number.Decimal
import Lisplet.Number.Integer
import Lisplet.Record
import Lisplet.Text.Quoted

/-!
# Forms

A form is what the reader makes of a piece of source: a tree of literals, symbols and bracketed
groups. Its `text` is the canonical way to write it, its `nodes` list it in preorder.

Inside a quoted list a nested list is written without its apostrophe, which is why the text of an
item is not always the text of the form.
-/

namespace Lisplet

inductive Form where
  | nil
  | true
  | int (n : Int64)
  | double (d : Double)
  | str (s : String)
  | symbol (path : String)
  /-- A quoted list; it has at least one item, since the empty list is `nil`. -/
  | list (items : List Form)
  /-- A bracketed group to evaluate; it has at least one item. -/
  | expr (items : List Form)
  /-- A struct, its keys distinct and in the order of first appearance. -/
  | struct (fields : List (String × Form))
  deriving Inhabited

namespace Form

/-! ## Canonical text -/

mutual

/-- The canonical text of a form. -/
def text : Form → String
  | .nil => "Nil"
  | .true => "True"
  | .int n => Integer.text n
  | .double d => d.text
  | .str s => Text.quote s
  | .symbol path => path
  | .list items => "'(" ++ " ".intercalate (itemTexts items) ++ ")"
  | .expr items => "(" ++ " ".intercalate (texts items) ++ ")"
  | .struct fields => "\x7b" ++ " ".intercalate (fieldTexts fields) ++ "\x7d"

def texts : List Form → List String
  | [] => []
  | f :: fs => f.text :: texts fs

/-- The texts of the items of a quoted list: nested lists drop their apostrophe. -/
def itemTexts : List Form → List String
  | [] => []
  | .list items :: fs => ("(" ++ " ".intercalate (itemTexts items) ++ ")") :: itemTexts fs
  | f :: fs => f.text :: itemTexts fs

def fieldTexts : List (String × Form) → List String
  | [] => []
  | (key, f) :: fs => (key ++ ": " ++ f.text) :: fieldTexts fs

end

/-! ## Preorder listing -/

mutual

/-- The nodes of a form in preorder; a group is preceded by its size. -/
def nodes : Form → List String
  | .nil => ["Nil"]
  | .true => ["True"]
  | .int n => ["Integer " ++ Integer.text n]
  | .double d => ["Double " ++ d.text]
  | .str s => ["String " ++ s]
  | .symbol path => ["Symbol " ++ path]
  | .list items => ("List " ++ Nat.repr items.length) :: allNodes items
  | .expr items => ("Expression " ++ Nat.repr items.length) :: allNodes items
  | .struct fields => ("Struct " ++ Nat.repr fields.length) :: fieldNodes fields

def allNodes : List Form → List String
  | [] => []
  | f :: fs => f.nodes ++ allNodes fs

def fieldNodes : List (String × Form) → List String
  | [] => []
  | (key, f) :: fs => ("Key " ++ key) :: f.nodes ++ fieldNodes fs

end

end Form

end Lisplet
