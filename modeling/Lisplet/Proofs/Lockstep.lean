import Lisplet.Proofs.Pairing
import Lisplet.Proofs.Separation

/-!
# Runs in lockstep

Two runs that make the same steps from states that differ in their cells, in how deeply they are
nested or in nothing at all. What may differ is said by a `Lockstep`: which heaps correspond, in the
light of a world that grows with them, and which changes of corresponding heaps correspond again.
Everything else in the states is alike.

The rules here say of each way to put computations together that it keeps two runs in step. The
first run may be excused, which is to halt where the second does not. What the second does from
there on is either of no interest, or it is followed: the world goes on to grow with it.
-/

namespace Lisplet

/-- How deeply two runs are nested, and how deeply each of them may be. -/
structure Nesting where
  left : Nat
  leftLimit : Nat
  right : Nat
  rightLimit : Nat

def Nesting.deeper (n : Nesting) : Nesting :=
  { n with left := n.left + 1, right := n.right + 1 }

/-- What two runs in lockstep may differ in. -/
structure Lockstep where
  /-- What is known about the two heaps. -/
  World : Type
  Later : World → World → Prop
  refl (w : World) : Later w w
  trans {u v w : World} : Later u v → Later v w → Later u w
  pairing : World → Pairing
  within {u w : World} : Later u w → (pairing u).Within (pairing w)
  /-- The heaps that correspond. -/
  heaps : World → Heap → Heap → Prop
  /-- The levels at which the runs may be. -/
  nests : Nesting → Prop
  /-- The halts that excuse the first run. -/
  excuses : Halt → Prop
  not_excuses (e : Error) : ¬ excuses (.error e)
  /-- Whether the second run is followed after the first was excused. Up to there they must be the
  same. -/
  follows : Prop
  pairing_eq (hfollows : follows) (w : World) : (pairing w).Within .same
  heaps_eq (hfollows : follows) {w : World} {h k : Heap} : heaps w h k → h = k
  nests_eq (hfollows : follows) {n : Nesting} : nests n →
    n.left = n.right ∧ n.leftLimit = n.rightLimit
  deeper {n : Nesting} : nests n → n.left < n.leftLimit →
    n.right < n.rightLimit ∧ nests n.deeper
  text {w : World} {h k : Heap} {v v' : Value} : heaps w h k → (pairing w).Alike v v' →
    h.text v = k.text v'
  shows {w : World} {h k : Heap} {a b : Nat} {v v' : Value} : heaps w h k →
    (pairing w).list a b → (pairing w).Alike v v' → h.shows a v = k.shows b v'
  same {w : World} {h k : Heap} {u u' v v' : Value} : heaps w h k → (pairing w).Alike u u' →
    (pairing w).Alike v v' → h.same u v = k.same u' v'
  lists {w : World} {a b c d : Nat} : (pairing w).list a b → (pairing w).list c d →
    (a = c ↔ b = d)
  structs {w : World} {a b c d : Nat} : (pairing w).list a b → (pairing w).struct c d →
    (a = c ↔ b = d)
  items {w : World} {h k : Heap} {a b : Nat} : heaps w h k → (pairing w).list a b →
    (pairing w).AlikeAll (h.items a) (k.items b)
  fields {w : World} {h k : Heap} {a b : Nat} : heaps w h k → (pairing w).struct a b →
    (pairing w).AlikeFields (h.fields a) (k.fields b)
  newList {w : World} {h k : Heap} {vs ws : List Value} : heaps w h k →
    (pairing w).AlikeAll vs ws → vs ≠ [] →
    ∃ w', Later w w' ∧ heaps w' (h.alloc (.list vs)).2 (k.alloc (.list ws)).2 ∧
      (pairing w').list h.size k.size
  copyList {w : World} {h k : Heap} {a b : Nat} : heaps w h k → (pairing w).list a b →
    ∃ w', Later w w' ∧
      heaps w' (h.alloc (.list (h.items a))).2 (k.alloc (.list (k.items b))).2 ∧
      (pairing w').list h.size k.size
  newStruct {w : World} {h k : Heap} {r t : Record Value} : heaps w h k →
    (pairing w).AlikeFields r t → (Record.keys r).Nodup →
    ∃ w', Later w w' ∧ heaps w' (h.alloc (.struct r)).2 (k.alloc (.struct t)).2 ∧
      (pairing w').struct h.size k.size
  storeItem {w : World} {h k : Heap} {a b : Nat} {v v' : Value} (n : Nat) : heaps w h k →
    (pairing w).list a b → (pairing w).Alike v v' → n < (h.items a).length →
    ∃ w', Later w w' ∧ heaps w' (h.write a (.list ((h.items a).set n v)))
      (k.write b (.list ((k.items b).set n v')))
  storeField {w : World} {h k : Heap} {a b : Nat} {v v' : Value} (key : String) : heaps w h k →
    (pairing w).struct a b → (pairing w).Alike v v' →
    ∃ w', Later w w' ∧ heaps w' (h.write a (.struct ((h.fields a).insert key v)))
      (k.write b (.struct ((k.fields b).insert key v')))

/-- Uses of paired cells, each for the same in both runs. -/
inductive Pairing.InUse (p : Pairing) : List Use → List Use → Prop
  | nil : InUse p [] []
  | cons {a b : Nat} {writing : Bool} {us vs : List Use} (h : p.list a b) :
    InUse p us vs → InUse p (⟨a, writing⟩ :: us) (⟨b, writing⟩ :: vs)

theorem Pairing.InUse.mono {p q : Pairing} (h : p.Within q) {us vs : List Use}
    (huse : p.InUse us vs) : q.InUse us vs := by
  induction huse with
  | nil => exact .nil
  | cons hab _ ih => exact .cons (h.list hab) ih

theorem Pairing.InUse.eq {p : Pairing} (h : p.Within same) {us vs : List Use}
    (huse : p.InUse us vs) : us = vs := by
  induction huse with
  | nil => rfl
  | cons hab _ ih =>
    have heq : _ = _ := h.list hab
    rw [heq, ih]

theorem Pairing.InUse.refl (us : List Use) : same.InUse us us := by
  induction us with
  | nil => exact .nil
  | cons use us ih => exact .cons rfl ih

-- What is asked of a use depends on its cell and on what it is for.
theorem Pairing.InUse.any_eq {p : Pairing} {us vs : List Use} (huse : p.InUse us vs)
    {f g : Use → Bool} (h : ∀ a b writing, p.list a b → f ⟨a, writing⟩ = g ⟨b, writing⟩) :
    us.any f = vs.any g := by
  induction huse with
  | nil => rfl
  | cons hab _ ih => rw [List.any_cons, List.any_cons, h _ _ _ hab, ih]

namespace Lockstep

variable (S : Lockstep)

/-- A way for results of two runs to correspond. -/
structure Link (α : Type) where
  rel : S.World → α → α → Prop
  eq (hfollows : S.follows) {w : S.World} {a b : α} : rel w a b → a = b

def values : S.Link Value :=
  ⟨fun w => (S.pairing w).Alike, fun hfollows w _ _ h => h.eq (S.pairing_eq hfollows w)⟩

def sequences : S.Link (List Value) :=
  ⟨fun w => (S.pairing w).AlikeAll, fun hfollows w _ _ h => h.eq (S.pairing_eq hfollows w)⟩

def records : S.Link (Record Value) :=
  ⟨fun w => (S.pairing w).AlikeFields, fun hfollows w _ _ h => h.eq (S.pairing_eq hfollows w)⟩

def equal (α : Type) : S.Link α :=
  ⟨fun _ a b => a = b, fun _ _ _ _ h => h⟩

variable {S}

def Link.such {α : Type} (Q : S.Link α) (P : α → Prop) : S.Link α :=
  ⟨fun w a b => Q.rel w a b ∧ P a, fun hfollows _ _ _ h => Q.eq hfollows h.1⟩

variable (S)

/-- States in step, at the given levels. -/
structure Rel (w : S.World) (n : Nesting) (i j : Interpreter) : Prop where
  heap : S.heaps w i.heap j.heap
  env : (S.pairing w).AlikeEnv i.env j.env
  help : i.help = j.help
  console : i.console = j.console
  nextId : i.nextId = j.nextId
  uses : (S.pairing w).InUse i.uses j.uses
  nests : S.nests n
  left : i.depth = n.left
  leftLimit : i.maxDepth = n.leftLimit
  right : j.depth = n.right
  rightLimit : j.maxDepth = n.rightLimit

variable {S}

/-- A result of the second run alone. -/
def Alone (w : S.World) (n : Nesting) {α : Type} (Q : S.Link α) :
    EStateM.Result Halt Interpreter α → Prop
  | .ok b j => S.Rel w n j j ∧ Q.rel w b b
  | .error _ j => S.Rel w n j j

/-- The first run was excused with the heap `h`. If the second is followed, the world has grown from
that heap on. -/
def Excused (w : S.World) (n : Nesting) {α : Type} (Q : S.Link α) (h : Heap)
    (t : EStateM.Result Halt Interpreter α) : Prop :=
  S.follows → ∃ u v, S.Later w u ∧ S.heaps u h h ∧ S.Later u v ∧ Alone v n Q t

/-- Results in step: corresponding results in a later world, or the same halt, or a halt that
excuses the first run. -/
def Ends (w : S.World) (n : Nesting) {α : Type} (Q : S.Link α) :
    EStateM.Result Halt Interpreter α → EStateM.Result Halt Interpreter α → Prop
  | .ok a i, .ok b j => ∃ w', S.Later w w' ∧ S.Rel w' n i j ∧ Q.rel w' a b
  | .ok _ _, .error _ _ => False
  | .error h i, t =>
    S.excuses h ∧ Excused w n Q i.heap t ∨
      ∃ w' j, t = .error h j ∧ S.Later w w' ∧ S.Rel w' n i j

variable (S)

/-- From states in step, the two computations come to results in step. -/
def Simulates (w : S.World) (n : Nesting) {α : Type} (Q : S.Link α) (x y : Eval α) : Prop :=
  ∀ i j, S.Rel w n i j → Ends w n Q (x i) (y j)

variable {S} {w w' : S.World} {n : Nesting} {α β : Type} {Q : S.Link α} {R : S.Link β}
  {i j : Interpreter}

theorem Rel.heap_later (h : S.Rel w n i j) (hw : S.Later w w') {a b : Heap}
    (hab : S.heaps w' a b) : S.Rel w' n { i with heap := a } { j with heap := b } :=
  { h with heap := hab, env := h.env.mono (S.within hw), uses := h.uses.mono (S.within hw) }

/-! ## The second run alone -/

theorem Rel.eq (h : S.Rel w n i j) (hfollows : S.follows) : i = j := by
  have hpairing := S.pairing_eq hfollows w
  obtain ⟨hlevel, hlimit⟩ := S.nests_eq hfollows h.nests
  have hheap := S.heaps_eq hfollows h.heap
  have henv := h.env.eq hpairing
  have hdepth : i.depth = j.depth := by rw [h.left, h.right, hlevel]
  have hmax : i.maxDepth = j.maxDepth := by rw [h.leftLimit, h.rightLimit, hlimit]
  have huses := h.uses.eq hpairing
  cases i
  cases j
  cases hheap
  cases henv
  cases hdepth
  cases hmax
  cases huses
  cases h.help
  cases h.console
  cases h.nextId
  rfl

theorem Rel.alone (h : S.Rel w n i j) (hfollows : S.follows) : S.Rel w n j j := by
  have heq := h.eq hfollows
  subst heq
  exact h

/-- Whether or not the first run was excused, a second run that is followed has come to a later
world. -/
theorem Ends.alone (hfollows : S.follows) {r t : EStateM.Result Halt Interpreter α}
    (h : Ends w n Q r t) : ∃ v, S.Later w v ∧ Alone v n Q t := by
  cases r with
  | ok a i =>
    cases t with
    | ok b j =>
      obtain ⟨w', hw', hrel, hq⟩ := h
      have heq := Q.eq hfollows hq
      subst heq
      exact ⟨w', hw', hrel.alone hfollows, hq⟩
    | error h' j => exact h.elim
  | error e i =>
    rcases h with ⟨-, hexcused⟩ | ⟨w', j, rfl, hw', hrel⟩
    · obtain ⟨u, v, hu, -, hv, halone⟩ := hexcused hfollows
      exact ⟨v, S.trans hu hv, halone⟩
    · exact ⟨w', hw', hrel.alone hfollows⟩

/-- Runs that are the same and of which the first was not excused have the same result. -/
theorem Ends.eq (hfollows : S.follows) {r t : EStateM.Result Halt Interpreter α}
    (h : Ends w n Q r t) (hexcuses : ∀ e i, r = .error e i → ¬ S.excuses e) : r = t := by
  cases r with
  | ok a i =>
    cases t with
    | ok b j =>
      obtain ⟨w', -, hrel, hq⟩ := h
      rw [hrel.eq hfollows, Q.eq hfollows hq]
    | error h' j => exact h.elim
  | error e i =>
    rcases h with ⟨he, -⟩ | ⟨w', j, rfl, -, hrel⟩
    · exact absurd he (hexcuses e i rfl)
    · rw [hrel.eq hfollows]

theorem Excused.earlier (hw : S.Later w w') {h : Heap} {t : EStateM.Result Halt Interpreter α}
    (hexcused : Excused w' n Q h t) : Excused w n Q h t := by
  intro hfollows
  obtain ⟨u, v, hu, hh, hv, halone⟩ := hexcused hfollows
  exact ⟨u, v, S.trans hw hu, hh, hv, halone⟩

theorem Ends.earlier (hw : S.Later w w') {r t : EStateM.Result Halt Interpreter α}
    (h : Ends w' n Q r t) : Ends w n Q r t := by
  cases r with
  | ok a i =>
    cases t with
    | ok b j =>
      obtain ⟨u, hu, hrel, hq⟩ := h
      exact ⟨u, S.trans hw hu, hrel, hq⟩
    | error h' j => exact h
  | error e i =>
    refine h.imp (fun ⟨he, hexcused⟩ => ⟨he, hexcused.earlier hw⟩) ?_
    rintro ⟨u, j, ht, hu, hrel⟩
    exact ⟨u, j, ht, S.trans hw hu, hrel⟩

/-- The same halt of both runs in states in step. -/
theorem ends_error {h : Halt} (hrel : S.Rel w n i j) :
    Ends w n Q (.error h i) (.error h j) :=
  .inr ⟨w, j, rfl, S.refl w, hrel⟩

/-! ## Sequencing -/

theorem sim_pure {a b : α} (h : Q.rel w a b) : S.Simulates w n Q (pure a) (pure b) :=
  fun _ _ hrel => ⟨w, S.refl w, hrel, h⟩

-- If the first run is excused in `x`, the second goes on as one that is in step with itself.
theorem sim_bind {x y : Eval α} {f g : α → Eval β} (hx : S.Simulates w n Q x y)
    (hf : ∀ w', S.Later w w' → ∀ a b, Q.rel w' a b → S.Simulates w' n R (f a) (g b)) :
    S.Simulates w n R (x >>= f) (y >>= g) := by
  intro i j hrel
  have hends := hx i j hrel
  change Ends w n R (EStateM.bind x f i) (EStateM.bind y g j)
  unfold EStateM.bind
  cases hxi : x i with
  | ok a i' =>
    cases hyj : y j with
    | ok b j' =>
      rw [hxi, hyj] at hends
      obtain ⟨w', hw', hrel', hq⟩ := hends
      exact (hf w' hw' a b hq i' j' hrel').earlier hw'
    | error h j' =>
      rw [hxi, hyj] at hends
      exact hends.elim
  | error h i' =>
    rw [hxi] at hends
    rcases hends with ⟨hh, hexcused⟩ | ⟨w', j', hyj, hw', hrel'⟩
    · refine .inl ⟨hh, fun hfollows => ?_⟩
      obtain ⟨u, v, hu, hheap, hv, halone⟩ := hexcused hfollows
      cases hyj : y j with
      | ok b j' =>
        rw [hyj] at halone
        have hnext := hf v (S.trans hu hv) b b halone.2 j' j' halone.1
        obtain ⟨v', hv', halone'⟩ := hnext.alone hfollows
        exact ⟨u, v', hu, hheap, S.trans hv hv', halone'⟩
      | error h' j' =>
        rw [hyj] at halone
        exact ⟨u, v, hu, hheap, hv, halone⟩
    · rw [hyj]
      exact .inr ⟨w', j', rfl, hw', hrel'⟩

theorem sim_throw (h : Halt) : S.Simulates w n Q (throw h) (throw h) :=
  fun _ _ hrel => ends_error hrel

theorem sim_fail (cause : Cause) : S.Simulates w n Q (Eval.fail cause) (Eval.fail cause) :=
  sim_throw _

theorem sim_missingArgument : S.Simulates w n Q Eval.missingArgument Eval.missingArgument :=
  sim_throw _

theorem sim_ofExcept (x : Except Error α) :
    S.Simulates w n ((S.equal α).such fun a => x = .ok a) (Eval.ofExcept x) (Eval.ofExcept x) := by
  cases x with
  | ok a => exact sim_pure (Q := (S.equal α).such _) ⟨rfl, rfl⟩
  | error e => exact sim_throw _

/-! ## Looking into cells -/

theorem Rel.barred_eq (h : S.Rel w n i j) {cells cells' : Nat → Bool}
    (hcells : ∀ a b, (S.pairing w).list a b → cells a = cells' b) :
    i.barred cells = j.barred cells' := by
  apply h.uses.any_eq
  intro a b writing hab
  rw [hcells a b hab]

theorem Rel.inUse_eq (h : S.Rel w n i j) {a b : Nat}
    (hcells : ∀ c d, (S.pairing w).list c d → (c == a) = (d == b)) : i.inUse a = j.inUse b :=
  h.uses.any_eq fun c d _ => hcells c d

theorem beq_of_list {a b c d : Nat} (hab : (S.pairing w).list a b) (hcd : (S.pairing w).list c d) :
    (c == a) = (d == b) := by
  rw [Bool.eq_iff_iff, beq_iff_eq, beq_iff_eq]
  exact S.lists hcd hab

theorem beq_of_struct {a b c d : Nat} (hab : (S.pairing w).struct a b)
    (hcd : (S.pairing w).list c d) : (c == a) = (d == b) := by
  rw [Bool.eq_iff_iff, beq_iff_eq, beq_iff_eq]
  exact S.structs hcd hab

theorem sim_looking {reads reads' : Heap → Nat → Bool} {x y : Eval α}
    (hreads : ∀ i j, S.Rel w n i j → ∀ a b, (S.pairing w).list a b →
      reads i.heap a = reads' j.heap b)
    (hx : S.Simulates w n Q x y) :
    S.Simulates w n Q (Eval.looking reads x) (Eval.looking reads' y) := by
  intro i j hrel
  unfold Eval.looking
  rw [← hrel.barred_eq (hreads i j hrel)]
  by_cases huse : i.barred (reads i.heap) = true
  · rw [if_pos huse, if_pos huse]
    exact ends_error hrel
  · rw [if_neg huse, if_neg huse]
    exact hx i j hrel

variable {v v' : Value} {vs vs' : List Value}

theorem sim_text (hv : (S.pairing w).Alike v v') :
    S.Simulates w n (S.equal String) (Eval.text v) (Eval.text v') := by
  refine sim_looking (fun i j hrel a b hab => S.shows hrel.heap hab hv) ?_
  exact fun i j hrel => ⟨w, S.refl w, hrel, S.text hrel.heap hv⟩

theorem sim_plainText (hv : (S.pairing w).Alike v v') :
    S.Simulates w n (S.equal String) (Eval.plainText v) (Eval.plainText v') := by
  refine sim_looking (fun i j hrel a b hab => S.shows hrel.heap hab hv) fun i j hrel => ?_
  refine ⟨w, S.refl w, hrel, ?_⟩
  cases hv with
  | str s => rfl
  | _ => exact S.text hrel.heap (by constructor <;> assumption)

theorem sim_failWith (cause : String → Cause) (hv : (S.pairing w).Alike v v') :
    S.Simulates w n Q (Eval.failWith cause v) (Eval.failWith cause v') := by
  refine sim_bind (sim_text hv) fun w' _ s t hst => ?_
  subst hst
  exact sim_fail _

theorem sim_tooMany (hv : (S.pairing w).Alike v v') :
    S.Simulates w n Q (Eval.tooMany v) (Eval.tooMany v') :=
  sim_failWith _ hv

theorem sim_items {a b : Nat} (hab : (S.pairing w).list a b) :
    S.Simulates w n S.sequences (Eval.items a) (Eval.items b) := by
  refine sim_looking (fun _ _ _ _ _ => beq_of_list hab) ?_
  exact fun i j hrel => ⟨w, S.refl w, hrel, S.items hrel.heap hab⟩

theorem sim_fields {a b : Nat} (hab : (S.pairing w).struct a b) :
    S.Simulates w n S.records (Eval.fields a) (Eval.fields b) := by
  refine sim_looking (fun _ _ _ _ _ => beq_of_struct hab) ?_
  exact fun i j hrel => ⟨w, S.refl w, hrel, S.fields hrel.heap hab⟩

/-! ## Making and changing cells -/

/-- A new list in both heaps, or none where there are no items. -/
theorem newList_later {h k : Heap} (hh : S.heaps w h k) (hvs : (S.pairing w).AlikeAll vs vs') :
    ∃ w', S.Later w w' ∧ S.heaps w' (h.newList vs).2 (k.newList vs').2 ∧
      (S.pairing w').Alike (h.newList vs).1 (k.newList vs').1 := by
  cases hvs with
  | nil => exact ⟨w, S.refl w, hh, .nil⟩
  | cons hv hs =>
    obtain ⟨w', hw', hh', hlist⟩ := S.newList hh (.cons hv hs) (List.cons_ne_nil _ _)
    exact ⟨w', hw', hh', .list hlist⟩

theorem sim_newList (hvs : (S.pairing w).AlikeAll vs vs') :
    S.Simulates w n S.values (Eval.newList vs) (Eval.newList vs') := by
  intro i j hrel
  obtain ⟨w', hw', hh, hv⟩ := newList_later hrel.heap hvs
  exact ⟨w', hw', hrel.heap_later hw' hh, hv⟩

theorem sim_copyList {a b : Nat} (hab : (S.pairing w).list a b) :
    S.Simulates w n S.values (Eval.copyList a) (Eval.copyList b) := by
  refine sim_looking (fun _ _ _ _ _ => beq_of_list hab) fun i j hrel => ?_
  obtain ⟨w', hw', hh, hlist⟩ := S.copyList hrel.heap hab
  exact ⟨w', hw', hrel.heap_later hw' hh, .list hlist⟩

theorem sim_newStruct {r t : Record Value} (hr : (S.pairing w).AlikeFields r t)
    (hnodup : (Record.keys r).Nodup) :
    S.Simulates w n S.values (Eval.newStruct r) (Eval.newStruct t) := by
  intro i j hrel
  obtain ⟨w', hw', hh, hstruct⟩ := S.newStruct hrel.heap hr hnodup
  exact ⟨w', hw', hrel.heap_later hw' hh, .struct hstruct⟩

-- The fields that are written are those that have just been read.
theorem sim_storeField {a b : Nat} (hab : (S.pairing w).struct a b) (key : String)
    (hv : (S.pairing w).Alike v v') {u u' : Value} (hu : (S.pairing w).Alike u u') :
    S.Simulates w n S.values
      (do
        Eval.write a (.struct ((← Eval.fields a).insert key v))
        pure u)
      (do
        Eval.write b (.struct ((← Eval.fields b).insert key v'))
        pure u') := by
  intro i j hrel
  have hbarred := hrel.barred_eq fun _ _ => beq_of_struct (S := S) hab
  have hused := hrel.inUse_eq fun _ _ => beq_of_struct (S := S) hab
  simp only [bind, EStateM.bind, Eval.fields, Eval.write, Eval.looking, pure, EStateM.pure]
  rw [← hbarred]
  by_cases hlook : i.barred (· == a) = true
  · simp only [hlook, if_true]
    exact ends_error hrel
  · simp only [hlook, Bool.false_eq_true, if_false]
    rw [← hused]
    by_cases hwrite : i.inUse a = true
    · simp only [hwrite, if_true]
      exact ends_error hrel
    · obtain ⟨w', hw', hh⟩ := S.storeField key hrel.heap hab hv
      simp only [hwrite, Bool.false_eq_true, if_false]
      exact ⟨w', hw', hrel.heap_later hw' hh, hu.mono (S.within hw')⟩

mutual

/-- Program text is brought into both heaps in the same way. -/
theorem load_later {w : S.World} {room : Nat} {h k : Heap} (hh : S.heaps w h k) :
    (f : Form) → f.Readable room → ∃ w', S.Later w w' ∧ S.heaps w' (h.load f).2 (k.load f).2 ∧
      (S.pairing w').Alike (h.load f).1 (k.load f).1
  | .nil, _ => ⟨w, S.refl w, hh, .nil⟩
  | .true, _ => ⟨w, S.refl w, hh, .true⟩
  | .int n, _ => ⟨w, S.refl w, hh, .int n⟩
  | .double d, _ => ⟨w, S.refl w, hh, .double d⟩
  | .str s, _ => ⟨w, S.refl w, hh, .str s⟩
  | .symbol path, _ => ⟨w, S.refl w, hh, .symbol path⟩
  | .list items, hf => by
    have hitems : Form.ReadableAll (room - 1) items :=
      Form.readableAll_iff.mpr fun f hmem => (Form.literalAll_iff.mp hf.2.2 f hmem).readable
    obtain ⟨u, hu, hh, hvs⟩ := loadAll_later hh items hitems
    obtain ⟨w', hw', hh, hv⟩ := newList_later hh hvs
    exact ⟨w', S.trans hu hw', hh, hv⟩
  | .expr items, hf => by
    obtain ⟨u, hu, hh, hvs⟩ := loadAll_later hh items hf.2.2
    exact ⟨u, hu, hh, .expr hvs⟩
  | .struct fields, hf => by
    obtain ⟨u, hu, hh, hr, hkeys⟩ := loadFields_later hh fields hf.2.2
    obtain ⟨w', hw', hh, hstruct⟩ := S.newStruct hh hr (hkeys ▸ hf.2.1)
    exact ⟨w', S.trans hu hw', hh, .struct hstruct⟩

theorem loadAll_later {w : S.World} {room : Nat} {h k : Heap} (hh : S.heaps w h k) :
    (fs : List Form) → Form.ReadableAll room fs → ∃ w', S.Later w w' ∧
      S.heaps w' (h.loadAll fs).2 (k.loadAll fs).2 ∧
      (S.pairing w').AlikeAll (h.loadAll fs).1 (k.loadAll fs).1
  | [], _ => ⟨w, S.refl w, hh, .nil⟩
  | f :: fs, hfs => by
    obtain ⟨u, hu, hh, hv⟩ := load_later hh f hfs.1
    obtain ⟨w', hw', hh, hvs⟩ := loadAll_later hh fs hfs.2
    exact ⟨w', S.trans hu hw', hh, .cons (hv.mono (S.within hw')) hvs⟩

theorem loadFields_later {w : S.World} {room : Nat} {h k : Heap} (hh : S.heaps w h k) :
    (fs : List (String × Form)) → Form.ReadableFields room fs → ∃ w', S.Later w w' ∧
      S.heaps w' (h.loadFields fs).2 (k.loadFields fs).2 ∧
      (S.pairing w').AlikeFields (h.loadFields fs).1 (k.loadFields fs).1 ∧
      Record.keys (h.loadFields fs).1 = Record.keys fs
  | [], _ => ⟨w, S.refl w, hh, .nil, rfl⟩
  | (key, f) :: fs, hfs => by
    obtain ⟨u, hu, hh, hv⟩ := load_later hh f hfs.1.2
    obtain ⟨w', hw', hh, hvs, hkeys⟩ := loadFields_later hh fs hfs.2
    refine ⟨w', S.trans hu hw', hh, .cons key (hv.mono (S.within hw')) hvs, ?_⟩
    exact congrArg (key :: ·) hkeys

end

theorem sim_load {r : Reader} {forms : List Form} (h : r.all.1 = .ok forms) :
    S.Simulates w n S.sequences (Eval.load forms) (Eval.load forms) := by
  intro i j hrel
  have hforms := Form.readableAll_iff.mpr (Reader.readable_start h)
  obtain ⟨w', hw', hh, hvs⟩ := loadAll_later hrel.heap forms hforms
  exact ⟨w', hw', hrel.heap_later hw' hh, hvs⟩

/-! ## Variables and identities -/

theorem sim_freshId : S.Simulates w n (S.equal Nat) Eval.freshId Eval.freshId := by
  intro i j hrel
  refine ⟨w, S.refl w, { hrel with nextId := ?_ }, hrel.nextId⟩
  exact congrArg (· + 1) hrel.nextId

theorem sim_lookup (name : String) :
    S.Simulates w n S.values (Eval.lookup name) (Eval.lookup name) := by
  intro i j hrel
  unfold Eval.lookup Environment.lookup
  rcases hrel.env.get? name with ⟨hi, hj⟩ | ⟨v, v', hi, hj, hv⟩
  · rw [hi, hj]
    exact ends_error hrel
  · rw [hi, hj]
    exact ⟨w, S.refl w, hrel, hv⟩

theorem sim_setVariable (name : String) (hv : (S.pairing w).Alike v v') :
    S.Simulates w n (S.equal Unit) (Eval.setVariable name v) (Eval.setVariable name v') :=
  fun _ _ hrel => ⟨w, S.refl w, { hrel with env := hrel.env.set name hv }, rfl⟩

/-! ## Brackets -/

def closing (back : Interpreter → Interpreter) :
    EStateM.Result Halt Interpreter α → EStateM.Result Halt Interpreter α
  | .ok a i => .ok a (back i)
  | .error h i => .error h (back i)

/-- Brackets that lead from states in step back to such states keep results in step. -/
theorem Ends.closing {r t : EStateM.Result Halt Interpreter α} {m : Nesting}
    {back back' : Interpreter → Interpreter} (h : Ends w m Q r t)
    (hheap : ∀ i, (back i).heap = i.heap)
    (hback : ∀ {w' i j}, S.Later w w' → S.Rel w' m i j → S.Rel w' n (back i) (back' j)) :
    Ends w n Q (closing back r) (closing back' t) := by
  cases r with
  | ok a i =>
    cases t with
    | ok b j =>
      obtain ⟨w', hw', hrel, hq⟩ := h
      exact ⟨w', hw', hback hw' hrel, hq⟩
    | error h' j => exact h.elim
  | error e i =>
    rcases h with ⟨he, hexcused⟩ | ⟨w', j, rfl, hw', hrel⟩
    · refine .inl ⟨he, fun hfollows => ?_⟩
      obtain ⟨u, v, hu, hh, hv, halone⟩ := hexcused hfollows
      refine ⟨u, v, hu, (hheap i).symm ▸ hh, hv, ?_⟩
      have hlater := S.trans hu hv
      cases t with
      | ok b j => exact ⟨(hback hlater halone.1).alone hfollows, halone.2⟩
      | error h' j => exact (hback hlater halone).alone hfollows
    · exact .inr ⟨w', back' j, rfl, hw', hback hw' hrel⟩

theorem inFrame_eq_closing (r : Record Value) (x : Eval α) (i : Interpreter) :
    Eval.inFrame r x i =
      closing (fun k => { k with env := k.env.release (i.env.scope r).2 })
        (x { i with env := (i.env.scope r).1 }) := by
  unfold Eval.inFrame
  dsimp only
  cases x { i with env := (i.env.scope r).1 } <;> rfl

theorem sim_inFrame {r t : Record Value} (hr : (S.pairing w).AlikeFields r t) {x y : Eval α}
    (hx : S.Simulates w n Q x y) :
    S.Simulates w n Q (Eval.inFrame r x) (Eval.inFrame t y) := by
  intro i j hrel
  obtain ⟨henv, hguard⟩ := hrel.env.scope hr
  have hends := hx { i with env := (i.env.scope r).1 } { j with env := (j.env.scope t).1 }
    { hrel with env := henv }
  rw [inFrame_eq_closing, inFrame_eq_closing, ← hguard]
  exact hends.closing (fun _ => rfl) fun _ hrel' => { hrel' with env := hrel'.env.release _ }

theorem during_eq_closing (use : Use) (x : Eval α) (i : Interpreter) :
    Eval.during use x i =
      closing (fun k => { k with uses := i.uses }) (x { i with uses := use :: i.uses }) := by
  unfold Eval.during
  cases x { i with uses := use :: i.uses } <;> rfl

theorem sim_whileWriting {a b : Nat} (hab : (S.pairing w).list a b) {x y : Eval α}
    (hx : S.Simulates w n Q x y) :
    S.Simulates w n Q (Eval.whileWriting a x) (Eval.whileWriting b y) := by
  intro i j hrel
  unfold Eval.whileWriting
  rw [← hrel.inUse_eq fun _ _ => beq_of_list (S := S) hab]
  by_cases hused : i.inUse a = true
  · rw [if_pos hused, if_pos hused]
    exact ends_error hrel
  · rw [if_neg hused, if_neg hused, during_eq_closing, during_eq_closing]
    have hends := hx { i with uses := ⟨a, true⟩ :: i.uses } { j with uses := ⟨b, true⟩ :: j.uses }
      { hrel with uses := .cons hab hrel.uses }
    refine hends.closing (fun _ => rfl) fun hw' hrel' => ?_
    exact { hrel' with uses := hrel.uses.mono (S.within hw') }

theorem descend_eq_closing (x : Eval α) {i : Interpreter} (h : i.depth < i.maxDepth) :
    Eval.descend x i =
      closing (fun k => { k with depth := k.depth - 1 }) (x { i with depth := i.depth + 1 }) := by
  unfold Eval.descend
  rw [if_pos h]
  cases x { i with depth := i.depth + 1 } <;> rfl

/-- The runs go one level deeper together. If the first cannot, the second must not. -/
theorem sim_descend {x y : Eval α}
    (hdepth : n.left < n.leftLimit ∨ ¬ n.right < n.rightLimit)
    (hx : S.Simulates w n.deeper Q x y) :
    S.Simulates w n Q (Eval.descend x) (Eval.descend y) := by
  intro i j hrel
  by_cases hleft : n.left < n.leftLimit
  · obtain ⟨hright, hnests⟩ := S.deeper hrel.nests hleft
    have hi : i.depth < i.maxDepth := by rwa [hrel.left, hrel.leftLimit]
    have hj : j.depth < j.maxDepth := by rwa [hrel.right, hrel.rightLimit]
    have hends := hx { i with depth := i.depth + 1 } { j with depth := j.depth + 1 }
      { hrel with
        nests := hnests
        left := congrArg (· + 1) hrel.left
        right := congrArg (· + 1) hrel.right }
    rw [descend_eq_closing x hi, descend_eq_closing y hj]
    refine hends.closing (fun _ => rfl) fun _ hrel' => ?_
    exact { hrel' with
      nests := hrel.nests
      left := congrArg (· - 1) hrel'.left
      right := congrArg (· - 1) hrel'.right }
  · have hright := hdepth.resolve_left hleft
    have hi : ¬ i.depth < i.maxDepth := by rwa [hrel.left, hrel.leftLimit]
    have hj : ¬ j.depth < j.maxDepth := by rwa [hrel.right, hrel.rightLimit]
    unfold Eval.descend
    rw [if_neg hi, if_neg hj]
    exact ends_error hrel

/-! ## Errors caught -/

/-- A second run that is followed alone may catch an error and go on in step with itself. -/
theorem Excused.rescue {h : Heap} {y : Eval α} {f g : Error → Eval α}
    (hexcused : Excused w n Q h (y j))
    (hf : ∀ w', S.Later w w' → ∀ e, S.Simulates w' n Q (f e) (g e)) :
    Excused w n Q h (Eval.rescue y g j) := by
  intro hfollows
  obtain ⟨u, v, hu, hh, hv, halone⟩ := hexcused hfollows
  unfold Eval.rescue
  cases hyj : y j with
  | ok b k =>
    rw [hyj] at halone
    exact ⟨u, v, hu, hh, hv, halone⟩
  | error e k =>
    rw [hyj] at halone
    cases e with
    | error e =>
      obtain ⟨v', hv', halone'⟩ := (hf v (S.trans hu hv) e k k halone).alone hfollows
      exact ⟨u, v', hu, hh, S.trans hv hv', halone'⟩
    | crash c => exact ⟨u, v, hu, hh, hv, halone⟩
    | outOfFuel => exact ⟨u, v, hu, hh, hv, halone⟩

theorem sim_rescue {x y : Eval α} {f g : Error → Eval α} (hx : S.Simulates w n Q x y)
    (hf : ∀ w', S.Later w w' → ∀ e, S.Simulates w' n Q (f e) (g e)) :
    S.Simulates w n Q (Eval.rescue x f) (Eval.rescue y g) := by
  intro i j hrel
  have hends := hx i j hrel
  rw [Eval.rescue]
  cases hxi : x i with
  | ok a i' =>
    rw [hxi] at hends
    rw [Eval.rescue]
    cases hyj : y j with
    | ok b j' =>
      rw [hyj] at hends
      exact hends
    | error h' j' =>
      rw [hyj] at hends
      exact hends.elim
  | error h i' =>
    rw [hxi] at hends
    rcases hends with ⟨hh, hexcused⟩ | ⟨w', j', hyj, hw', hrel'⟩
    · cases h with
      | error e => exact absurd hh (S.not_excuses e)
      | crash c => exact .inl ⟨hh, hexcused.rescue hf⟩
      | outOfFuel => exact .inl ⟨hh, hexcused.rescue hf⟩
    · rw [Eval.rescue, hyj]
      cases h with
      | error e => exact (hf w' hw' e i' j' hrel').earlier hw'
      | crash c => exact .inr ⟨w', j', rfl, hw', hrel'⟩
      | outOfFuel => exact .inr ⟨w', j', rfl, hw', hrel'⟩

theorem sim_leavingCrumb (hv : (S.pairing w).Alike v v') {x y : Eval α}
    (hx : S.Simulates w n Q x y) :
    S.Simulates w n Q (Eval.leavingCrumb v x) (Eval.leavingCrumb v' y) := by
  rw [Layout.leavingCrumb_eq_rescue, Layout.leavingCrumb_eq_rescue]
  refine sim_rescue hx fun w' hw' e => ?_
  refine sim_bind (sim_text (hv.mono (S.within hw'))) fun u _ s t hst => ?_
  cases hst
  exact sim_throw _

end Lockstep

end Lisplet
