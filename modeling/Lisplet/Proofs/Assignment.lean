import Mathlib.Logic.Relation
import Lisplet.Proofs.Evolution
import Lisplet.Proofs.Shadowing
import Lisplet.Proofs.Quotation

/-!
# Assignment to a path

An assignment goes to one slot: to the innermost binding of a plain name, or to one key of the struct
that all but the last segment of a longer path lead to. Nothing else changes, and what is written is
read back along the same path. There is one exception. A struct that has itself among what its fields
lead to may be on the way to itself, and to write to it may cut that way.
-/

namespace Lisplet

open Eval

/-! ## Paths as texts -/

namespace Text

theorem pieces_ne_nil (separator : Char) (cs : List Char) : pieces separator cs ≠ [] := by
  cases cs with
  | nil => exact List.cons_ne_nil _ _
  | cons c cs =>
    rw [pieces]
    split
    · exact List.cons_ne_nil _ _
    · split
      · exact List.cons_ne_nil _ _
      · exact List.cons_ne_nil _ _

theorem pieces_of_not_mem {separator : Char} {cs : List Char} (h : separator ∉ cs) :
    pieces separator cs = [cs] := by
  induction cs with
  | nil => rfl
  | cons c cs ih =>
    obtain ⟨hne, hcs⟩ := not_or.mp (mt List.mem_cons.mpr h)
    rw [pieces, if_neg (Ne.symm hne), ih hcs]

/-- A separator ends one piece and begins another. -/
theorem pieces_append (separator : Char) (cs ds : List Char) :
    pieces separator (cs ++ separator :: ds) = pieces separator cs ++ pieces separator ds := by
  induction cs with
  | nil => simp [pieces]
  | cons c cs ih =>
    rw [List.cons_append, pieces, pieces, ih]
    by_cases hc : c = separator
    · rw [if_pos hc, if_pos hc, List.cons_append]
    · rw [if_neg hc, if_neg hc]
      cases hpieces : pieces separator cs with
      | nil => exact absurd hpieces (pieces_ne_nil separator cs)
      | cons s ss => rfl

end Text

namespace Path

variable {path parent key : String}

theorem segments_ne_nil (path : String) : segments path ≠ [] := by
  rw [segments, ne_eq, List.map_eq_nil_iff]
  exact Text.pieces_ne_nil '.' path.toList

theorem segments_of_isSimple (h : isSimple path = true) : segments path = [path] := by
  have hdot : '.' ∉ path.toList := by simpa [isSimple] using h
  rw [segments, Text.pieces_of_not_mem hdot, List.map_singleton, String.ofList_toList]

theorem segments_append (parent key : String) :
    segments (parent ++ "." ++ key) = segments parent ++ segments key := by
  have htoList : (parent ++ "." ++ key).toList = parent.toList ++ '.' :: key.toList := by
    simp
  rw [segments, htoList, Text.pieces_append, List.map_append]
  rfl

theorem ofSegments_append {ss : List String} (hss : ss ≠ []) (s : String) :
    ofSegments (ss ++ [s]) = ofSegments ss ++ "." ++ s := by
  induction ss with
  | nil => exact absurd rfl hss
  | cons first rest ih =>
    cases rest with
    | nil => simp [ofSegments]
    | cons second rest =>
      have hrest := ih (List.cons_ne_nil _ _)
      simp only [ofSegments, List.cons_append, String.intercalate_cons_cons] at hrest ⊢
      rw [hrest]
      simp only [String.append_assoc]

/-- A path with a dot in it is one before its last dot and a single segment behind it. -/
theorem exists_of_not_isSimple (h : isSimple path = false) :
    ∃ parent key, isSimple key = true ∧ path = parent ++ "." ++ key := by
  have hdot : '.' ∈ path.toList.reverse := by simpa [isSimple] using h
  obtain ⟨key, parent, hsplit, hkey⟩ := List.eq_append_cons_of_mem hdot
  have hpath : path.toList = parent.reverse ++ '.' :: key.reverse := by
    rw [← List.reverse_reverse path.toList, hsplit]
    simp
  refine ⟨String.ofList parent.reverse, String.ofList key.reverse, ?_, ?_⟩
  · simpa [isSimple] using hkey
  · rw [← String.toList_inj, hpath]
    simp

theorem ofSegments_segments (path : String) : ofSegments (segments path) = path := by
  induction hn : path.length using Nat.strongRecOn generalizing path with
  | ind n ih =>
    cases hsimple : isSimple path with
    | true =>
      rw [segments_of_isSimple hsimple]
      exact String.intercalate_singleton
    | false =>
      obtain ⟨parent, key, hkey, rfl⟩ := exists_of_not_isSimple hsimple
      have hparent : ofSegments (segments parent) = parent := by
        refine ih parent.length ?_ parent rfl
        rw [← hn, String.length_append, String.length_append]
        simp only [show ".".length = 1 from rfl]
        omega
      rw [segments_append, segments_of_isSimple hkey,
        ofSegments_append (segments_ne_nil parent), hparent]

theorem parentAndKey?_of_isSimple (h : isSimple path = true) : parentAndKey? path = none := by
  rw [parentAndKey?, segments_of_isSimple h]
  rfl

theorem parentAndKey?_append (h : isSimple key = true) :
    parentAndKey? (parent ++ "." ++ key) = some (parent, key) := by
  rw [parentAndKey?, segments_append, segments_of_isSimple h, List.reverse_append,
    List.reverse_singleton, List.singleton_append]
  cases hrev : (segments parent).reverse with
  | nil => exact absurd (List.reverse_eq_nil_iff.mp hrev) (segments_ne_nil parent)
  | cons last rest =>
    have hsegments : (last :: rest).reverse = segments parent := by
      rw [← hrev, List.reverse_reverse]
    simp only [hsegments, ofSegments_segments]

end Path

/-! ## Places -/

/-- A place for one value: a name in a frame, with the frames counted from the inside, a global name,
a key of a struct, or a position in a list. -/
inductive Place where
  | frame (n : Nat) (name : String)
  | global (name : String)
  | field (cell : Nat) (key : String)
  | item (cell : Nat) (n : Nat)
  deriving DecidableEq

namespace Interpreter

def stored (i : Interpreter) : Place → Option Value
  | .frame n name => i.env.frames[n]?.bind (Record.get? name)
  | .global name => i.env.globals.get? name
  | .field cell key => (i.heap.fields cell).get? key
  | .item cell n => (i.heap.items cell)[n]?

/-- One state becomes another by the value that is put at a place, and in no other way. -/
structure Overwrites (i : Interpreter) (p : Place) (v : Value) (j : Interpreter) : Prop where
  stored : j.stored p = some v
  others : ∀ q, q ≠ p → j.stored q = i.stored q
  frames : j.env.frames.length = i.env.frames.length
  size : j.heap.size = i.heap.size
  cells : i.heap.Evolves j.heap
  rest : j = { i with env := j.env, heap := j.heap }

variable {i : Interpreter}

theorem overwrites_frame {n : Nat} (hn : n < i.env.frames.length) (name : String) (v : Value) :
    i.Overwrites (.frame n name) v
      { i with env := { i.env with frames := i.env.frames.modify n (Record.insert name v) } } where
  stored := by simp [Interpreter.stored, hn, Record.get?_insert_self]
  others q hq := by
    cases q with
    | frame m other =>
      simp only [Interpreter.stored, List.getElem?_modify]
      by_cases hm : n = m
      · subst hm
        have hother : other ≠ name := fun heq => hq (heq ▸ rfl)
        cases i.env.frames[n]? with
        | none => rfl
        | some f => simp [Record.get?_insert_of_ne hother v f]
      · simp [hm]
    | _ => rfl
  frames := List.length_modify _ _ _
  size := rfl
  cells := .refl _
  rest := rfl

theorem overwrites_global (i : Interpreter) (name : String) (v : Value) :
    i.Overwrites (.global name) v { i with env := i.env.defineGlobal name v } where
  stored := Record.get?_insert_self name v _
  others q hq := by
    cases q with
    | global other =>
      have hother : other ≠ name := fun heq => hq (heq ▸ rfl)
      exact Record.get?_insert_of_ne hother v _
    | _ => rfl
  frames := rfl
  size := rfl
  cells := .refl _
  rest := rfl

theorem overwrites_field {cell : Nat} {fields : Record Value}
    (hcell : i.heap.cells[cell]? = some (.struct fields)) (key : String) (v : Value) :
    i.Overwrites (.field cell key) v
      { i with heap := i.heap.write cell (.struct (fields.insert key v)) } where
  stored := by
    simp only [Interpreter.stored, Heap.fields, Heap.getElem?_write hcell, if_true]
    exact Record.get?_insert_self key v fields
  others q hq := by
    cases q with
    | field other key' =>
      simp only [Interpreter.stored, Heap.fields, Heap.getElem?_write hcell]
      by_cases hother : cell = other
      · subst hother
        have hkey : key' ≠ key := fun heq => hq (heq ▸ rfl)
        simp only [if_true, hcell]
        exact Record.get?_insert_of_ne hkey v fields
      · rw [if_neg hother]
    | item other n =>
      simp only [Interpreter.stored, Heap.items, Heap.getElem?_write hcell]
      by_cases hother : cell = other
      · subst hother
        simp only [if_true, hcell]
      · rw [if_neg hother]
    | _ => rfl
  frames := rfl
  size := Array.size_setIfInBounds
  cells := Heap.evolves_write hcell (Cell.becomes_insert fields key v)
  rest := rfl

end Interpreter

/-! ## Variables -/

namespace Environment

variable {α : Type} {name : String} {v : α} {fs : List (Record α)} {n : Nat} {u : α}

-- By induction on the frames; the frame that is written is the first that binds the name.
theorem setInFrames_of_innermost (hn : fs[n]?.bind (Record.get? name) = some u)
    (hinner : ∀ m < n, fs[m]?.bind (Record.get? name) = none) :
    setInFrames name v fs = some (fs.modify n (Record.insert name v)) := by
  induction fs generalizing n with
  | nil => cases hn
  | cons f fs ih =>
    cases n with
    | zero =>
      have hf : f.has name = true := by
        rw [Record.has, show Record.get? name f = some u from hn]
        rfl
      rw [setInFrames, if_pos hf]
      rfl
    | succ n =>
      have hf : ¬ f.has name = true := by
        rw [Record.has, show Record.get? name f = none from hinner 0 (Nat.zero_lt_succ n)]
        exact Bool.false_ne_true
      rw [setInFrames, if_neg hf, ih hn fun m hm => hinner (m + 1) (Nat.succ_lt_succ hm)]
      rfl

theorem setInFrames_of_unbound (h : ∀ f ∈ fs, Record.get? name f = none) :
    setInFrames name v fs = none := by
  induction fs with
  | nil => rfl
  | cons f fs ih =>
    obtain ⟨hf, hfs⟩ := List.forall_mem_cons.mp h
    rw [setInFrames, Record.has, hf, ih hfs]
    rfl

theorem findSome?_of_innermost (hn : fs[n]?.bind (Record.get? name) = some u)
    (hinner : ∀ m < n, fs[m]?.bind (Record.get? name) = none) :
    fs.findSome? (Record.get? name) = some u := by
  induction fs generalizing n with
  | nil => cases hn
  | cons f fs ih =>
    cases n with
    | zero => rw [List.findSome?_cons, show Record.get? name f = some u from hn]
    | succ n =>
      rw [List.findSome?_cons, show Record.get? name f = none from hinner 0 (Nat.zero_lt_succ n)]
      exact ih hn fun m hm => hinner (m + 1) (Nat.succ_lt_succ hm)

end Environment

namespace Interpreter

variable {i j : Interpreter} {name : String} {n : Nat} {u v : Value}

theorem get?_of_unbound (h : ∀ n, i.stored (.frame n name) = none) :
    ∀ f ∈ i.env.frames, Record.get? name f = none := by
  intro f hf
  obtain ⟨n, hn⟩ := List.mem_iff_getElem?.mp hf
  have hstored := h n
  rw [stored, hn] at hstored
  exact hstored

/-- A name is bound in a frame with none further inside that binds it, or in no frame at all. -/
theorem innermost_or_unbound (i : Interpreter) (name : String) :
    (∃ n u, i.stored (.frame n name) = some u ∧ ∀ m < n, i.stored (.frame m name) = none) ∨
      ∀ n, i.stored (.frame n name) = none := by
  classical
  by_cases h : ∃ n, i.stored (.frame n name) ≠ none
  · obtain ⟨u, hu⟩ := Option.ne_none_iff_exists'.mp (Nat.find_spec h)
    exact .inl ⟨Nat.find h, u, hu, fun m hm => not_not.mp (Nat.find_min h hm)⟩
  · exact .inr fun n => not_not.mp fun hn => h ⟨n, hn⟩

theorem env_get?_of_frame (hn : i.stored (.frame n name) = some u)
    (hinner : ∀ m < n, i.stored (.frame m name) = none) : i.env.get? name = some u := by
  rw [Environment.get?, Environment.findSome?_of_innermost hn hinner]

theorem env_get?_of_global (h : ∀ n, i.stored (.frame n name) = none) :
    i.env.get? name = i.stored (.global name) := by
  have hnone : i.env.frames.findSome? (Record.get? name) = none :=
    List.findSome?_eq_none_iff.mpr (get?_of_unbound h)
  rw [Environment.get?, hnone]
  rfl

/-- A variable is determined by the places of its name. -/
theorem env_get?_congr (hframe : ∀ n, j.stored (.frame n name) = i.stored (.frame n name))
    (hglobal : j.stored (.global name) = i.stored (.global name)) :
    j.env.get? name = i.env.get? name := by
  obtain ⟨n, u, hn, hinner⟩ | hunbound := i.innermost_or_unbound name
  · rw [env_get?_of_frame hn hinner]
    exact env_get?_of_frame ((hframe n).trans hn) fun m hm => (hframe m).trans (hinner m hm)
  · rw [env_get?_of_global hunbound, ← hglobal]
    exact env_get?_of_global fun n => (hframe n).trans (hunbound n)

end Interpreter

/-! ## Following keys -/

namespace Interpreter

/-- Keys lead from a value to another one through structs, none of which is in use for writing. -/
inductive Follows (i : Interpreter) : Value → List String → Value → Prop
  | nil (v : Value) : i.Follows v [] v
  | cons {cell : Nat} {key : String} {keys : List String} {u w : Value} :
      i.barred (· == cell) = false → i.stored (.field cell key) = some u → i.Follows u keys w →
      i.Follows (.struct cell) (key :: keys) w

/-- What is at a path: a variable, or what keys lead to from one. -/
def At (i : Interpreter) (path : String) (v : Value) : Prop :=
  ∃ name keys u, Path.segments path = name :: keys ∧ i.env.get? name = some u ∧ i.Follows u keys v

def Nests (i : Interpreter) (a b : Nat) : Prop :=
  ∃ key, i.stored (.field a key) = some (.struct b)

variable {i j : Interpreter} {u v w : Value} {keys : List String} {cell a b : Nat} {key : String}

theorem Follows.append {more : List String} (h : i.Follows u keys v) (h' : i.Follows v more w) :
    i.Follows u (keys ++ more) w := by
  induction h with
  | nil => exact h'
  | cons hfree hfield _ ih => exact .cons hfree hfield (ih h')

-- By induction on the keys: each of them leads one struct further in.
theorem Follows.nests (h : i.Follows (.struct a) (key :: keys) (.struct b)) :
    Relation.TransGen i.Nests a b := by
  induction keys generalizing a key with
  | nil =>
    cases h with
    | cons _ hfield hrest =>
      cases hrest
      exact .single ⟨key, hfield⟩
  | cons next keys ih =>
    cases h with
    | cons _ hfield hrest =>
      cases hrest with
      | cons hfree hnext hrest => exact .head ⟨key, hfield⟩ (ih (.cons hfree hnext hrest))

theorem Follows.unique (h : i.Follows u keys v) (h' : i.Follows u keys w) : v = w := by
  induction h with
  | nil =>
    cases h'
    rfl
  | cons _ hfield _ ih =>
    cases h' with
    | cons _ hfield' hrest =>
      cases hfield.symm.trans hfield'
      exact ih hrest

theorem At.unique {path : String} (h : i.At path v) (h' : i.At path w) : v = w := by
  obtain ⟨name, keys, u, hsegments, hu, hv⟩ := h
  obtain ⟨_, _, _, hsegments', hu', hw⟩ := h'
  cases hsegments.symm.trans hsegments'
  cases hu.symm.trans hu'
  exact hv.unique hw

-- On the way to a struct that is not within itself, that struct is met at the end only.
theorem Follows.of_overwrites (h : i.Follows u keys (.struct cell))
    (hij : i.Overwrites (.field cell key) v j) (hself : ¬ Relation.TransGen i.Nests cell cell) :
    j.Follows u keys (.struct cell) := by
  have huses : j.uses = i.uses := by rw [hij.rest]
  induction keys generalizing u with
  | nil =>
    cases h
    exact .nil _
  | cons first keys ih =>
    cases h with
    | @cons other _ _ next _ hfree hfield hrest =>
      have hother : other ≠ cell := by
        rintro rfl
        exact hself (Follows.cons hfree hfield hrest).nests
      have hplace : Place.field other first ≠ .field cell key := fun heq => by
        cases heq
        exact hother rfl
      refine .cons (by rwa [barred, huses]) ?_ (ih hrest)
      rw [hij.others _ hplace, hfield]

end Interpreter

namespace Eval

/-- A computation that only looks: it comes to a result that is such as `P` says, or fails because
there is none. The state stays as it is. -/
def Finds {α : Type} (x : Eval α) (i : Interpreter) (P : α → Prop) : Prop :=
  (∃ a, P a ∧ x i = .ok a i) ∨ (∀ a, ¬ P a) ∧ ∃ h, x i = .error h i

variable {α : Type} {i j : Interpreter} {path : String} {u v : Value} {cell : Nat}

theorem exists_failWith_eq (cause : String → Cause) (v : Value) (i : Interpreter) :
    ∃ h, failWith (α := α) cause v i = .error h i := by
  by_cases hshows : i.barred (fun cell => i.heap.shows cell v) = true
  · have htext : text v i = .error (.crash .cellInUse) i := if_pos hshows
    exact ⟨_, bind_of_error htext⟩
  · have htext : text v i = .ok (i.heap.text v) i := if_neg hshows
    exact ⟨_, bind_of_ok htext⟩

theorem fields_of_barred (h : i.barred (· == cell) = true) :
    fields cell i = .error (.crash .cellInUse) i :=
  if_pos h

theorem fields_of_not_barred (h : i.barred (· == cell) = false) :
    fields cell i = .ok (i.heap.fields cell) i :=
  if_neg (by simp [h])

theorem write_of_inUse (h : i.inUse cell = true) (contents : Cell) :
    write cell contents i = .error (.crash .cellInUse) i :=
  if_pos h

theorem write_of_not_inUse (h : i.inUse cell = false) (contents : Cell) :
    write cell contents i = .ok () { i with heap := i.heap.write cell contents } :=
  if_neg (by simp [h])

-- By induction on the keys, with one look into a struct for each.
theorem finds_follow (path : String) (v : Value) (keys : List String) :
    (follow path v keys).Finds i (i.Follows v keys) := by
  induction keys generalizing v with
  | nil => exact .inl ⟨v, .nil v, by cases v <;> rfl⟩
  | cons key keys ih =>
    cases v with
    | struct cell =>
      cases hfree : i.barred (· == cell) with
      | true =>
        refine .inr ⟨?_, _, bind_of_error (fields_of_barred hfree)⟩
        rintro u (_ | ⟨hne, -, -⟩)
        cases hfree.symm.trans hne
      | false =>
        have hstep : follow path (.struct cell) (key :: keys) i = _ :=
          bind_of_ok (fields_of_not_barred hfree)
        cases hget : (i.heap.fields cell).get? key with
        | none =>
          rw [hget] at hstep
          refine .inr ⟨?_, _, hstep⟩
          rintro u (_ | ⟨-, hfield, -⟩)
          cases hget.symm.trans hfield
        | some next =>
          rw [hget] at hstep
          rcases ih next with ⟨u, hu, hok⟩ | ⟨hnone, h, herror⟩
          · exact .inl ⟨u, .cons hfree hget hu, hstep.trans hok⟩
          · refine .inr ⟨?_, h, hstep.trans herror⟩
            rintro u (_ | ⟨-, hfield, hrest⟩)
            cases hget.symm.trans hfield
            exact hnone u hrest
    | _ => exact .inr ⟨nofun, exists_failWith_eq _ _ i⟩

theorem finds_resolve (path : String) (i : Interpreter) : (resolve path).Finds i (i.At path) := by
  unfold resolve Interpreter.At
  cases hsegments : Path.segments path with
  | nil => exact absurd hsegments (Path.segments_ne_nil path)
  | cons name keys =>
    dsimp only
    cases hget : i.env.get? name with
    | none =>
      have hlookup : lookup name i = .error (.error { cause := .unboundSymbol name }) i := by
        simp only [lookup, Environment.lookup, hget]
      refine .inr ⟨?_, _, bind_of_error hlookup⟩
      rintro v ⟨_, _, u, heq, hu, -⟩
      cases heq
      cases hget.symm.trans hu
    | some u =>
      have hlookup : lookup name i = .ok u i := by
        simp only [lookup, Environment.lookup, hget]
      have hstep := bind_of_ok (f := fun u => follow path u keys) hlookup
      rcases finds_follow path u keys (i := i) with ⟨v, hv, hok⟩ | ⟨hnone, h, herror⟩
      · exact .inl ⟨v, ⟨name, keys, u, rfl, hget, hv⟩, hstep.trans hok⟩
      · refine .inr ⟨?_, h, hstep.trans herror⟩
        rintro v ⟨_, _, u', heq, hu', hv⟩
        cases heq
        cases hget.symm.trans hu'
        exact hnone v hv

theorem at_of_resolve (h : resolve path i = .ok v j) : j = i ∧ i.At path v := by
  rcases finds_resolve path i with ⟨u, hu, hok⟩ | ⟨-, _, herror⟩
  · cases hok.symm.trans h
    exact ⟨rfl, hu⟩
  · cases herror.symm.trans h

-- A path leads to one value only, since each of its segments does.
theorem resolve_of_at (h : i.At path v) : resolve path i = .ok v i := by
  rcases finds_resolve path i with ⟨u, hu, hok⟩ | ⟨hnone, -⟩
  · rw [hok, hu.unique h]
  · exact absurd h (hnone v)

end Eval

/-! ## The place that is written -/

namespace Interpreter

/-- The place an assignment to a path is meant for: the innermost binding of a plain name, the global
one if no frame binds it, and otherwise a key of the struct to which the segments before it lead, as
long as that struct is not in use. -/
inductive Target (i : Interpreter) : String → Place → Prop
  | frame {name : String} {n : Nat} {u : Value} : Path.isSimple name = true →
      i.stored (.frame n name) = some u → (∀ m < n, i.stored (.frame m name) = none) →
      i.Target name (.frame n name)
  | global {name : String} : Path.isSimple name = true →
      (∀ n, i.stored (.frame n name) = none) → i.Target name (.global name)
  | field {parent key : String} {cell : Nat} : Path.isSimple key = true →
      resolve parent i = .ok (.struct cell) i → i.inUse cell = false →
      i.Target (parent ++ "." ++ key) (.field cell key)

variable {i j : Interpreter} {path parent key : String} {keys : List String} {u v w : Value}
  {cell : Nat} {p : Place}

theorem Follows.alike (hi : i.Coherent) (hu : i.heap.self.Alike u u) (h : i.Follows u keys w) :
    i.heap.self.Alike w w := by
  induction h with
  | nil => exact hu
  | @cons cell key _ next _ _ hfield _ ih =>
    cases hu with
    | struct hcell =>
      obtain ⟨-, fields, hfields⟩ := hcell
      rw [stored, Heap.fields_eq hfields] at hfield
      rcases Pairing.AlikeFields.get? (hi.heap.refers cell _ hfields) key with
        ⟨hnone, -⟩ | ⟨x, y, hx, hy, hxy⟩
      · cases hnone.symm.trans hfield
      · cases hx.symm.trans hfield
        cases hy.symm.trans hfield
        exact ih hxy

/-- In a coherent state, what a path leads to as a struct is one. -/
theorem At.struct (hi : i.Coherent) (h : i.At path (.struct cell)) :
    ∃ fields, i.heap.cells[cell]? = some (.struct fields) := by
  obtain ⟨name, keys, u, -, hu, hfollows⟩ := h
  have hself : i.heap.self.Alike u u := by
    rcases hi.env.get? name with ⟨hnone, -⟩ | ⟨x, y, hx, hy, hxy⟩
    · cases hnone.symm.trans hu
    · cases hx.symm.trans hu
      cases hy.symm.trans hu
      exact hxy
  cases hfollows.alike hi hself with
  | struct hcell => exact hcell.2

/-- The value written at the place a path is meant for is read back along the path. -/
theorem Target.at_of_overwrites (hp : i.Target path p) (hij : i.Overwrites p v j)
    (hself : ∀ cell key, p = .field cell key → ¬ Relation.TransGen i.Nests cell cell) :
    j.At path v := by
  cases hp with
  | @frame name n _ hsimple _ hinner =>
    refine ⟨path, [], v, Path.segments_of_isSimple hsimple, ?_, .nil v⟩
    refine env_get?_of_frame hij.stored fun m hm => ?_
    rw [hij.others _ (by simp; omega)]
    exact hinner m hm
  | global hsimple hunbound =>
    refine ⟨path, [], v, Path.segments_of_isSimple hsimple, ?_, .nil v⟩
    refine Eq.trans (env_get?_of_global fun n => ?_) hij.stored
    exact (hij.others (.frame n path) nofun).trans (hunbound n)
  | @field parent key cell hkey hparent hfree =>
    obtain ⟨-, name, keys, u, hsegments, hu, hfollows⟩ := at_of_resolve hparent
    refine ⟨name, keys ++ [key], u, ?_, ?_, ?_⟩
    · rw [Path.segments_append, hsegments, Path.segments_of_isSimple hkey, List.cons_append]
    · rw [← hu]
      exact env_get?_congr (fun n => hij.others _ nofun) (hij.others _ nofun)
    · have huses : j.uses = i.uses := by rw [hij.rest]
      refine (hfollows.of_overwrites hij (hself cell key rfl)).append ?_
      have hread : i.barred (· == cell) = false := Interpreter.barred_of_inUse hfree
      exact .cons (by rwa [barred, huses]) hij.stored (.nil v)

end Interpreter

/-! ## Assignment -/

section

variable {i j : Interpreter} {path parent key : String} {u v w : Value} {cell : Nat} {p : Place}

theorem Eval.assign_of_not_isValid (h : Path.isValid path = false) (v : Value) (i : Interpreter) :
    assign path v i = .error (.error { cause := .invalidSymbolPath path }) i := by
  unfold assign
  rw [h]
  rfl

theorem Eval.assign_of_isSimple (hvalid : Path.isValid path = true)
    (hsimple : Path.isSimple path = true) (v : Value) (i : Interpreter) :
    assign path v i = .ok v { i with env := i.env.set path v } := by
  unfold assign
  rw [hvalid, Path.parentAndKey?_of_isSimple hsimple]
  rfl

theorem Eval.assign_append (hvalid : Path.isValid (parent ++ "." ++ key) = true)
    (hkey : Path.isSimple key = true) (v : Value) :
    assign (parent ++ "." ++ key) v = (do
      match ← resolve parent with
      | .struct cell =>
        write cell (.struct ((← fields cell).insert key v))
        pure v
      | other => failWith (.typeMismatch .struct) other) := by
  unfold assign
  rw [hvalid, Path.parentAndKey?_append hkey]
  rfl

theorem Eval.assign_of_target (hi : i.Coherent) (hvalid : Path.isValid path = true)
    (hp : i.Target path p) (v : Value) : ∃ j, assign path v i = .ok v j ∧ i.Overwrites p v j := by
  cases hp with
  | @frame _ n u hsimple hn hinner =>
    rw [assign_of_isSimple hvalid hsimple, Environment.set,
      Environment.setInFrames_of_innermost hn hinner]
    have hlt : n < i.env.frames.length := by
      by_contra hge
      rw [Interpreter.stored, List.getElem?_eq_none (Nat.le_of_not_lt hge)] at hn
      cases hn
    exact ⟨_, rfl, Interpreter.overwrites_frame hlt path v⟩
  | global hsimple hunbound =>
    rw [assign_of_isSimple hvalid hsimple, Environment.set,
      Environment.setInFrames_of_unbound (Interpreter.get?_of_unbound hunbound)]
    exact ⟨_, rfl, Interpreter.overwrites_global i path v⟩
  | @field parent key cell hkey hparent hfree =>
    obtain ⟨fields, hfields⟩ := (at_of_resolve hparent).2.struct hi
    rw [assign_append hvalid hkey]
    refine ⟨_, ?_, Interpreter.overwrites_field hfields key v⟩
    have hread := fields_of_not_barred (Interpreter.barred_of_inUse hfree)
    refine (bind_of_ok hparent).trans ((bind_of_ok hread).trans ?_)
    refine (bind_of_ok (write_of_not_inUse hfree _)).trans ?_
    rw [Heap.fields_eq hfields]
    rfl

/-- Where a path leads to no place that can be written, the assignment fails and nothing changes. -/
theorem Eval.target_or_error (hvalid : Path.isValid path = true) (v : Value) (i : Interpreter) :
    (∃ p, i.Target path p) ∨ ∃ h, assign path v i = .error h i := by
  cases hsimple : Path.isSimple path with
  | true =>
    left
    obtain ⟨n, u, hn, hinner⟩ | hunbound := i.innermost_or_unbound path
    · exact ⟨_, .frame hsimple hn hinner⟩
    · exact ⟨_, .global hsimple hunbound⟩
  | false =>
    obtain ⟨parent, key, hkey, rfl⟩ := Path.exists_of_not_isSimple hsimple
    rw [assign_append hvalid hkey]
    rcases finds_resolve parent i with ⟨u, -, hok⟩ | ⟨-, h, herror⟩
    · cases u with
      | struct cell =>
        cases hfree : i.inUse cell with
        | false => exact .inl ⟨_, .field hkey hok hfree⟩
        | true =>
          refine .inr ⟨.crash .cellInUse, (bind_of_ok hok).trans ?_⟩
          cases hbarred : i.barred (· == cell) with
          | true => exact bind_of_error (fields_of_barred hbarred)
          | false =>
            refine (bind_of_ok (fields_of_not_barred hbarred)).trans ?_
            exact bind_of_error (write_of_inUse hfree _)
      | _ =>
        obtain ⟨h, hfail⟩ := exists_failWith_eq (α := Value) (.typeMismatch .struct) _ i
        exact .inr ⟨h, (bind_of_ok hok).trans hfail⟩
    · exact .inr ⟨h, bind_of_error herror⟩

theorem Eval.isValid_of_assign (h : assign path v i = .ok u j) : Path.isValid path = true := by
  cases hvalid : Path.isValid path with
  | true => rfl
  | false => cases (assign_of_not_isValid hvalid v i).symm.trans h

theorem Eval.state_of_assign_error (hi : i.Coherent) {h : Halt}
    (herror : assign path v i = .error h j) : j = i := by
  cases hvalid : Path.isValid path with
  | false =>
    cases (assign_of_not_isValid hvalid v i).symm.trans herror
    rfl
  | true =>
    rcases target_or_error hvalid v i with ⟨p, hp⟩ | ⟨h', herror'⟩
    · obtain ⟨k, hok, -⟩ := assign_of_target hi hvalid hp v
      cases hok.symm.trans herror
    · cases herror'.symm.trans herror
      rfl

/-- An assignment fails and leaves the state as it is, or it writes one place and no other: the
innermost binding of a plain name, a new global one if there is none, and otherwise the last key in
the struct that the path before it has led to. It succeeds where there is such a place. What is
written is read back along the path, unless the struct is within itself. -/
theorem assignment_writes_one_place {i : Interpreter} (hi : i.Coherent) (path : String) (v : Value) :
    (∀ h j, Eval.assign path v i = .error h j → j = i) ∧
    ((∃ u j, Eval.assign path v i = .ok u j) ↔
      Path.isValid path = true ∧ ∃ p, i.Target path p) ∧
    ∀ u j, Eval.assign path v i = .ok u j →
      u = v ∧ ∃ p, i.Target path p ∧ i.Overwrites p v j ∧
        ((∀ cell key, p = .field cell key → ¬ Relation.TransGen i.Nests cell cell) →
          resolve path j = .ok v j) := by
  have htarget : ∀ u j, Eval.assign path v i = .ok u j → ∃ p, i.Target path p := by
    intro u j hok
    rcases target_or_error (isValid_of_assign hok) v i with hp | ⟨h, herror⟩
    · exact hp
    · cases herror.symm.trans hok
  refine ⟨fun h j => state_of_assign_error hi, ⟨?_, ?_⟩, ?_⟩
  · rintro ⟨u, j, hok⟩
    exact ⟨isValid_of_assign hok, htarget u j hok⟩
  · rintro ⟨hvalid, p, hp⟩
    obtain ⟨j, hok, -⟩ := assign_of_target hi hvalid hp v
    exact ⟨v, j, hok⟩
  · intro u j hok
    obtain ⟨p, hp⟩ := htarget u j hok
    obtain ⟨k, hok', hwrites⟩ := assign_of_target hi (isValid_of_assign hok) hp v
    cases hok'.symm.trans hok
    exact ⟨rfl, p, hp, hwrites, fun hself => resolve_of_at (hp.at_of_overwrites hwrites hself)⟩

end

def Interpreter.looped : Interpreter where
  heap := ⟨#[.struct [("a", .struct 0), ("b", .struct 1)], .struct []]⟩
  env := { frames := [[("s", .struct 0)]] }
  maxDepth := 9

theorem Interpreter.coherent_looped : Interpreter.looped.Coherent := by
  have hzero : Interpreter.looped.heap.self.struct 0 0 := ⟨rfl, _, rfl⟩
  have hone : Interpreter.looped.heap.self.struct 1 1 := ⟨rfl, _, rfl⟩
  refine ⟨⟨?_, ?_⟩, .nil, .cons (.cons "s" (.struct hzero) .nil) .nil⟩
  · intro a c hc
    match a with
    | 0 =>
      cases hc
      exact (by decide : ["a", "b"].Nodup)
    | 1 =>
      cases hc
      exact List.nodup_nil
    | _ + 2 => cases hc
  · intro a c hc
    match a with
    | 0 =>
      cases hc
      exact .cons "a" (.struct hzero) (.cons "b" (.struct hone) .nil)
    | 1 =>
      cases hc
      exact .nil
    | _ + 2 => cases hc

-- The empty struct is written and read back. To write to `s` by way of `s` itself cuts that way.
theorem assignment_writes_one_place_looped :
    Interpreter.looped.Coherent ∧
    (∃ j, Eval.assign "s.b.c" (.int 7) .looped = .ok (.int 7) j ∧
      resolve "s.b.c" j = .ok (.int 7) j) ∧
    (∃ j p, Eval.assign "s.a.a" (.int 7) .looped = .ok (.int 7) j ∧
      Interpreter.looped.Overwrites p (.int 7) j ∧ ∃ h, resolve "s.a.a" j = .error h j) := by
  have hi := Interpreter.coherent_looped
  refine ⟨hi, ⟨_, rfl, ?_⟩, ?_⟩
  · obtain ⟨-, -, hok⟩ := assignment_writes_one_place hi "s.b.c" (.int 7)
    obtain ⟨-, p, -, hwrites, hread⟩ := hok _ _ rfl
    refine hread fun cell key hp hself => ?_
    -- The place has to be where the state has changed.
    have hplace : Place.field 1 "c" = p := by
      by_contra hne
      cases hwrites.others _ hne
    rw [hp] at hplace
    cases hplace
    obtain ⟨b, ⟨key, hb⟩, -⟩ := Relation.TransGen.head'_iff.mp hself
    cases hb
  · obtain ⟨-, -, hok⟩ := assignment_writes_one_place hi "s.a.a" (.int 7)
    obtain ⟨-, p, -, hwrites, -⟩ := hok _ _ rfl
    exact ⟨_, p, rfl, hwrites, _, rfl⟩

end Lisplet
