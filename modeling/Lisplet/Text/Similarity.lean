import Lisplet.Number.Decimal

/-!
# Similar words

The Jaro similarity of two words: which characters they share at nearby places, and how many of
those are out of order. It is a double between 0 and 1, each step of the computation rounded; a
command line suggests a word whose similarity to what was typed is above seven tenths.
-/

namespace Lisplet.Text

/-- Marks the first unmarked `c` at a place from `low` up to but not including `high`; `place` is
that of the first character given. -/
def markFirst? (c : Char) (low high place : Nat) :
    List (Char × Bool) → Option (List (Char × Bool))
  | [] => none
  | (d, marked) :: rest =>
    if low ≤ place ∧ place < high ∧ d = c ∧ !marked then some ((d, true) :: rest)
    else (markFirst? c low high (place + 1) rest).map ((d, marked) :: ·)

/-- Matches characters one by one against those of another word within `range` of the same place.
The result is the characters matched and the other word with its matches marked. -/
def matchNearby (range place : Nat) (others : List (Char × Bool)) :
    List Char → List Char × List (Char × Bool)
  | [] => ([], others)
  | c :: cs =>
    match markFirst? c (place - range) (place + range + 1) 0 others with
    | some others =>
      let (matched, others) := matchNearby range (place + 1) others cs
      (c :: matched, others)
    | none => matchNearby range (place + 1) others cs

def ratio (m n : Nat) : Double :=
  (Double.ofInt m).div (Double.ofInt n)

def similarity (a b : List Char) : Double :=
  let range := max a.length b.length / 2 - 1
  let (matched, others) := matchNearby range 0 (b.map fun c => (c, false)) a
  let shared := (others.filter Prod.snd).map Prod.fst
  let m := matched.length
  if m = 0 then
    .zero false
  else
    let swapped := ((matched.zip shared).filter fun (c, d) => c != d).length / 2
    (((ratio m a.length).add (ratio m b.length)).add (ratio (m - swapped) m)).div (.ofInt 3)

def threshold : Double := Decimal.toDouble ⟨false, 7, -1⟩

def similar (a b : List Char) : Bool :=
  (similarity a b).compare? threshold == some .gt

end Lisplet.Text
