import Lisplet.Text.Cluster.Class

/-!
# User-perceived characters

A text is cut into clusters, the characters that a reader sees: a letter with its accents, a flag,
a family of pictographs, a syllable. Between two characters there is a boundary unless one of the
rules in `Context.joins` holds them together. What the rules need to know of the text before the
boundary is kept in a `Context`, which is brought forward one character at a time.
-/

namespace Lisplet.Text

/-- What the end of a text has of a sequence of pictographs. -/
inductive Pictographs where
  | none
  /-- A pictograph and characters that extend it. -/
  | shown
  /-- The same with a joiner at the end, which waits for the next pictograph. -/
  | joined
  deriving DecidableEq, Repr

/-- What the end of a text has of a conjunct of consonants. -/
inductive Conjunct where
  | none
  /-- A consonant and characters that extend it. -/
  | started
  /-- The same with a linker among them, which waits for the next consonant. -/
  | linked
  deriving DecidableEq, Repr

/-- What matters of the text before a possible boundary. -/
structure Context where
  /-- The class of its last character; control characters join nothing. -/
  last : ClusterClass := .control
  /-- Whether it ends in an odd number of regional indicators. -/
  halfFlag : Bool := false
  pictographs : Pictographs := .none
  conjunct : Conjunct := .none

namespace Context

/-- Whether the next character, of class `k`, belongs to the same cluster as the last one. -/
def joins (x : Context) (k : ClusterClass) : Bool :=
  match x.last, k with
  | .carriageReturn, .lineFeed => true
  | .carriageReturn, _ | .lineFeed, _ | .control, _ => false
  | _, .carriageReturn | _, .lineFeed | _, .control => false
  | .leading, .leading | .leading, .vowel => true
  | .leading, .openSyllable | .leading, .closedSyllable => true
  | .openSyllable, .vowel | .openSyllable, .trailing | .vowel, .vowel | .vowel, .trailing => true
  | .closedSyllable, .trailing | .trailing, .trailing => true
  | _, .extend | _, .joiner | _, .spacing => true
  | .prepend, _ => true
  | _, .consonant => x.conjunct == .linked
  | .joiner, .pictograph => x.pictographs == .joined
  | .regional, .regional => x.halfFlag
  | _, _ => false

def nextPictographs (x : Context) (k : ClusterClass) : Pictographs :=
  match x.pictographs, k with
  | _, .pictograph => .shown
  | .shown, .extend => .shown
  | .shown, .joiner => .joined
  | _, _ => .none

/-- The conjunct after one more character `c`, of class `k`. The zero width non-joiner ends it,
although it extends what is before it. -/
def nextConjunct (x : Context) (c : Char) (k : ClusterClass) : Conjunct :=
  if k = .consonant then .started
  else if x.conjunct = .none then .none
  else if ClusterClass.linkers.contains c.toNat then .linked
  else if (k = .extend ∧ c.toNat ≠ 0x200C) ∨ k = .joiner then x.conjunct
  else .none

def advance (x : Context) (c : Char) (k : ClusterClass) : Context where
  last := k
  halfFlag := k == .regional && !x.halfFlag
  pictographs := x.nextPictographs k
  conjunct := x.nextConjunct c k

end Context

/-- A text that has been cut up to some place. Everything is held backwards. -/
structure Cutting where
  context : Context := {}
  /-- The cluster that may still grow. -/
  current : List Char := []
  /-- The clusters before it. -/
  done : List (List Char) := []

namespace Cutting

def take (t : Cutting) (c : Char) : Cutting :=
  let k := ClusterClass.ofChar c
  let context := t.context.advance c k
  if t.context.joins k then { t with context, current := c :: t.current }
  else { context, current := [c], done := t.current.reverse :: t.done }

def clusters (t : Cutting) : List (List Char) :=
  (t.current.reverse :: t.done).reverse.filter fun cluster => !cluster.isEmpty

end Cutting

def clusters (cs : List Char) : List (List Char) :=
  (cs.foldl Cutting.take {}).clusters

end Lisplet.Text
