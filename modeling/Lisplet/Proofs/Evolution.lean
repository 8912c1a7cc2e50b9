import Lisplet.Proofs.Simulation

/-!
# How cells evolve

Over the whole of a session a list keeps its length, which is never zero, and a struct keeps its
keys in their order and gains new ones only at the end. The reason is that every value that
mentions a list or a struct mentions a cell that holds one, so no operation writes a cell in a way
that was not meant for it.

A run is compared with itself here, once up to a moment at which a watch raises its alarm and once
beyond it: the world of the two runs is their heap, and it only evolves.
-/

namespace Lisplet

/-! ## Heaps -/

/-- What may become of a cell: a list keeps its length, a struct gains keys at the end. -/
def Cell.Becomes : Cell → Cell → Prop
  | .list items, .list items' => items'.length = items.length
  | .struct fields, .struct fields' => Record.keys fields <+: Record.keys fields'
  | _, _ => False

/-- No list without items, and no key twice in a struct. -/
def Cell.Kept : Cell → Prop
  | .list items => items ≠ []
  | .struct fields => (Record.keys fields).Nodup

theorem Cell.Becomes.refl (c : Cell) : c.Becomes c := by
  cases c with
  | list items => exact rfl
  | struct fields => exact List.prefix_rfl

theorem Cell.Becomes.trans {c d e : Cell} (h : c.Becomes d) (h' : d.Becomes e) : c.Becomes e := by
  cases c with
  | list items =>
    cases d with
    | list items' =>
      cases e with
      | list items'' => exact Eq.trans h' h
      | struct => exact h'.elim
    | struct => exact h.elim
  | struct fields =>
    cases d with
    | list => exact h.elim
    | struct fields' =>
      cases e with
      | list => exact h'.elim
      | struct fields'' => exact List.IsPrefix.trans h h'

/-- A struct may have a value written under a key, which is one of its keys or else comes last. -/
theorem Cell.becomes_insert (fields : Record Value) (key : String) (v : Value) :
    (Cell.struct fields).Becomes (.struct (Record.insert key v fields)) := by
  show Record.keys fields <+: Record.keys (Record.insert key v fields)
  rw [Record.keys_insert]
  split
  · exact List.prefix_rfl
  · exact List.prefix_append _ _

namespace Heap

/-- Every cell of `h` is still there in `k`, and has become only what it may become. -/
def Evolves (h k : Heap) : Prop :=
  ∀ (a : Nat) (c : Cell), h.cells[a]? = some c → ∃ d, k.cells[a]? = some d ∧ c.Becomes d

def Kept (h : Heap) : Prop :=
  ∀ (a : Nat) (c : Cell), h.cells[a]? = some c → c.Kept

theorem Evolves.refl (h : Heap) : h.Evolves h :=
  fun _ c hc => ⟨c, hc, .refl c⟩

theorem Evolves.trans {h k l : Heap} (hk : h.Evolves k) (hl : k.Evolves l) : h.Evolves l := by
  intro a c hc
  obtain ⟨d, hd, hbecomes⟩ := hk a c hc
  obtain ⟨e, he, hbecomes'⟩ := hl a d hd
  exact ⟨e, he, hbecomes.trans hbecomes'⟩

/-- The cells of a heap, each paired with itself by what it holds. -/
def self (h : Heap) : Pairing where
  list a b := a = b ∧ ∃ items, h.cells[a]? = some (.list items)
  struct a b := a = b ∧ ∃ fields, h.cells[a]? = some (.struct fields)

theorem self_within_same (h : Heap) : h.self.Within .same :=
  ⟨And.left, And.left⟩

theorem Evolves.within {h k : Heap} (hk : h.Evolves k) : h.self.Within k.self := by
  constructor
  · rintro a b ⟨rfl, items, hitems⟩
    obtain ⟨d, hd, hbecomes⟩ := hk a _ hitems
    cases d with
    | list items' => exact ⟨rfl, items', hd⟩
    | struct => exact hbecomes.elim
  · rintro a b ⟨rfl, fields, hfields⟩
    obtain ⟨d, hd, hbecomes⟩ := hk a _ hfields
    cases d with
    | list => exact hbecomes.elim
    | struct fields' => exact ⟨rfl, fields', hd⟩

end Heap

/-- A cell that mentions only cells that hold what they should. -/
def Cell.Refers (p : Pairing) : Cell → Prop
  | .list items => p.AlikeAll items items
  | .struct fields => p.AlikeFields fields fields

theorem Cell.Refers.mono {p q : Pairing} (h : p.Within q) {c : Cell} (hc : c.Refers p) :
    c.Refers q := by
  cases c with
  | list items => exact Pairing.AlikeAll.mono h hc
  | struct fields => exact Pairing.AlikeFields.mono h hc

namespace Heap

/-- A heap as it should be, in which every value mentions cells that hold what they should. -/
structure Coherent (h : Heap) : Prop where
  kept : h.Kept
  refers : ∀ (a : Nat) (c : Cell), h.cells[a]? = some c → c.Refers h.self

theorem evolves_alloc (h : Heap) (c : Cell) : h.Evolves (h.alloc c).2 := by
  intro a d hd
  obtain ⟨hlt, -⟩ := Array.getElem?_eq_some_iff.mp hd
  have hne : a ≠ h.size := Nat.ne_of_lt hlt
  refine ⟨d, ?_, .refl d⟩
  rw [getElem?_alloc, if_neg hne]
  exact hd

theorem evolves_write {h : Heap} {a : Nat} {c d : Cell} (hd : h.cells[a]? = some d)
    (hbecomes : d.Becomes c) : h.Evolves (h.write a c) := by
  intro b e he
  rw [getElem?_write hd]
  by_cases hab : a = b
  · subst hab
    rw [if_pos rfl]
    obtain rfl : d = e := Option.some.inj (hd.symm.trans he)
    exact ⟨c, rfl, hbecomes⟩
  · rw [if_neg hab]
    exact ⟨e, he, .refl e⟩

theorem Coherent.alloc {h : Heap} (hh : h.Coherent) {c : Cell} (hkept : c.Kept)
    (hrefers : c.Refers h.self) : (h.alloc c).2.Coherent := by
  have hwithin := (evolves_alloc h c).within
  constructor
  · intro a d hd
    rw [getElem?_alloc] at hd
    split at hd
    · cases hd
      exact hkept
    · exact hh.kept a d hd
  · intro a d hd
    rw [getElem?_alloc] at hd
    split at hd
    · cases hd
      exact hrefers.mono hwithin
    · exact (hh.refers a d hd).mono hwithin

theorem Coherent.write {h : Heap} (hh : h.Coherent) {a : Nat} {c d : Cell}
    (hd : h.cells[a]? = some d) (hbecomes : d.Becomes c) (hkept : c.Kept)
    (hrefers : c.Refers h.self) : (h.write a c).Coherent := by
  have hwithin := (evolves_write hd hbecomes).within
  constructor
  · intro b e he
    rw [getElem?_write hd] at he
    split at he
    · cases he
      exact hkept
    · exact hh.kept b e he
  · intro b e he
    rw [getElem?_write hd] at he
    split at he
    · cases he
      exact hrefers.mono hwithin
    · exact (hh.refers b e he).mono hwithin

/-! ## The changes that evaluation makes -/

theorem Coherent.newList {h : Heap} (hh : h.Coherent) {vs ws : List Value}
    (hvs : h.self.AlikeAll vs ws) (hne : vs ≠ []) :
    h.Evolves (h.alloc (.list vs)).2 ∧ (h.alloc (.list vs)).2.Coherent ∧
      (h.alloc (.list vs)).2.self.list h.size h.size := by
  obtain rfl := hvs.eq h.self_within_same
  refine ⟨evolves_alloc h _, hh.alloc hne hvs, rfl, vs, ?_⟩
  exact getElem?_alloc_self h _

theorem Coherent.newStruct {h : Heap} (hh : h.Coherent) {r t : Record Value}
    (hr : h.self.AlikeFields r t) (hnodup : (Record.keys r).Nodup) :
    h.Evolves (h.alloc (.struct r)).2 ∧ (h.alloc (.struct r)).2.Coherent ∧
      (h.alloc (.struct r)).2.self.struct h.size h.size := by
  obtain rfl := hr.eq h.self_within_same
  refine ⟨evolves_alloc h _, hh.alloc hnodup hr, rfl, r, ?_⟩
  exact getElem?_alloc_self h _

theorem Coherent.storeItem {h : Heap} (hh : h.Coherent) {a : Nat} (ha : h.self.list a a)
    {v : Value} (hv : h.self.Alike v v) (n : Nat) :
    h.Evolves (h.write a (.list ((h.items a).set n v))) ∧
      (h.write a (.list ((h.items a).set n v))).Coherent := by
  obtain ⟨-, items, hitems⟩ := ha
  rw [items_eq hitems]
  have hbecomes : (Cell.list items).Becomes (.list (items.set n v)) := List.length_set
  have hkept : (Cell.list (items.set n v)).Kept := by
    intro hnil
    have hlength := congrArg List.length hnil
    rw [List.length_set] at hlength
    exact hh.kept a _ hitems (List.length_eq_zero_iff.mp hlength)
  have hrefers : (Cell.list (items.set n v)).Refers h.self :=
    Pairing.AlikeAll.set (hh.refers a _ hitems) n hv
  exact ⟨evolves_write hitems hbecomes, hh.write hitems hbecomes hkept hrefers⟩

theorem Coherent.storeField {h : Heap} (hh : h.Coherent) {a : Nat} (ha : h.self.struct a a)
    {v : Value} (hv : h.self.Alike v v) (key : String) :
    h.Evolves (h.write a (.struct ((h.fields a).insert key v))) ∧
      (h.write a (.struct ((h.fields a).insert key v))).Coherent := by
  obtain ⟨-, fields, hfields⟩ := ha
  rw [fields_eq hfields]
  have hbecomes := Cell.becomes_insert fields key v
  have hkept : (Cell.struct (Record.insert key v fields)).Kept :=
    Record.nodup_keys_insert (hh.kept a _ hfields) key v
  have hrefers : (Cell.struct (Record.insert key v fields)).Refers h.self :=
    Pairing.AlikeFields.insert (hh.refers a _ hfields) key hv
  exact ⟨evolves_write hfields hbecomes, hh.write hfields hbecomes hkept hrefers⟩

end Heap

/-! ## A run and itself -/

/-- A run and itself, of which the first may be stopped by an alarm. -/
def Lockstep.evolution : Lockstep where
  World := Heap
  Later := Heap.Evolves
  refl := .refl
  trans := .trans
  pairing := Heap.self
  within := Heap.Evolves.within
  heaps w h k := w = h ∧ h = k ∧ h.Coherent
  nests n := n.left = n.right ∧ n.leftLimit = n.rightLimit
  excuses h := h = .alarm
  not_excuses _ := nofun
  follows := True
  pairing_eq _ h := h.self_within_same
  heaps_eq := fun _ {_ _ _} h => h.2.1
  nests_eq := fun _ {_} h => h
  deeper := by
    rintro n ⟨hlevel, hlimit⟩ hlt
    exact ⟨by omega, congrArg (· + 1) hlevel, hlimit⟩
  text := by
    rintro h _ _ v v' ⟨rfl, rfl, -⟩ hv
    rw [hv.eq h.self_within_same]
  shows := by
    rintro h _ _ a _ v v' ⟨rfl, rfl, -⟩ ⟨rfl, -⟩ hv
    rw [hv.eq h.self_within_same]
  same := by
    rintro h _ _ u u' v v' ⟨rfl, rfl, -⟩ hu hv
    rw [hu.eq h.self_within_same, hv.eq h.self_within_same]
  lists := by
    rintro h a _ c _ ⟨rfl, -⟩ ⟨rfl, -⟩
    exact Iff.rfl
  structs := by
    rintro h a _ c _ ⟨rfl, -⟩ ⟨rfl, -⟩
    exact Iff.rfl
  items := by
    rintro h _ _ a _ ⟨rfl, rfl, hh⟩ ⟨rfl, items, hitems⟩
    rw [Heap.items_eq hitems]
    exact hh.refers a _ hitems
  fields := by
    rintro h _ _ a _ ⟨rfl, rfl, hh⟩ ⟨rfl, fields, hfields⟩
    rw [Heap.fields_eq hfields]
    exact hh.refers a _ hfields
  newList := by
    rintro h _ _ vs ws ⟨rfl, rfl, hh⟩ hvs hne
    obtain ⟨hevolves, hcoherent, hlist⟩ := hh.newList hvs hne
    obtain rfl := hvs.eq h.self_within_same
    exact ⟨_, hevolves, ⟨rfl, rfl, hcoherent⟩, hlist⟩
  copyList := by
    rintro h _ _ a _ ⟨rfl, rfl, hh⟩ ⟨rfl, items, hitems⟩
    have hrefers := hh.refers a _ hitems
    obtain ⟨hevolves, hcoherent, hlist⟩ := hh.newList hrefers (hh.kept a _ hitems)
    rw [Heap.items_eq hitems]
    exact ⟨_, hevolves, ⟨rfl, rfl, hcoherent⟩, hlist⟩
  newStruct := by
    rintro h _ _ r t ⟨rfl, rfl, hh⟩ hr hnodup
    obtain ⟨hevolves, hcoherent, hstruct⟩ := hh.newStruct hr hnodup
    obtain rfl := hr.eq h.self_within_same
    exact ⟨_, hevolves, ⟨rfl, rfl, hcoherent⟩, hstruct⟩
  storeItem := by
    rintro h _ _ a b v v' n ⟨rfl, rfl, hh⟩ ha hv -
    obtain rfl := ha.1
    obtain rfl := hv.eq h.self_within_same
    obtain ⟨hevolves, hcoherent⟩ := hh.storeItem ha hv n
    exact ⟨_, hevolves, rfl, rfl, hcoherent⟩
  storeField := by
    rintro h _ _ a b v v' key ⟨rfl, rfl, hh⟩ ha hv
    obtain rfl := ha.1
    obtain rfl := hv.eq h.self_within_same
    obtain ⟨hevolves, hcoherent⟩ := hh.storeField ha hv key
    exact ⟨_, hevolves, rfl, rfl, hcoherent⟩

/-! ## Sessions -/

/-- A state in which all that is stored mentions only cells that hold what they should. -/
structure Interpreter.Coherent (i : Interpreter) : Prop where
  heap : i.heap.Coherent
  env : i.heap.self.AlikeEnv i.env i.env

theorem Lockstep.Rel.coherent {w : Heap} {n : Nesting} {i j : Interpreter}
    (h : Lockstep.evolution.Rel w n i j) : w = j.heap ∧ j.Coherent := by
  obtain rfl := h.eq trivial
  obtain ⟨rfl, -, hheap⟩ := h.heap
  exact ⟨rfl, hheap, h.env⟩

/-- The state of a run at the first moment that `P` does not allow, with the brackets around it
closed; at the end if there is no such moment. The moments of a run are the start and the end of
each evaluation and of each application. -/
noncomputable def Interpreter.stopped (i : Interpreter) (P : Interpreter → Hand → Prop)
    (fuel : Nat) (r : Reader) : Interpreter :=
  (i.run ((Engine.watched P fuel).topForms r.all.1)).2

theorem Interpreter.stopped_true (i : Interpreter) (fuel : Nat) (r : Reader) :
    i.stopped (fun _ _ => True) fuel r = (i.run (evalForms fuel r.all.1)).2 := by
  rw [stopped, Engine.watched_true, Engine.topForms_ofFuel]

/-- If `P'` allows whatever `P` does, a run is stopped by `P` no later than by `P'`. The heap
evolves to the former moment, and from there to the latter. -/
theorem Interpreter.Coherent.evolves_stopped {i : Interpreter} (hi : i.Coherent)
    (hidle : i.uses = []) {P P' : Interpreter → Hand → Prop}
    (hle : ∀ j hand, P j hand → P' j hand) (fuel : Nat) (r : Reader) :
    i.heap.Evolves (i.stopped P fuel r).heap ∧ (i.stopped P fuel r).heap.Kept ∧
      (i.stopped P fuel r).heap.Evolves (i.stopped P' fuel r).heap ∧
      (i.stopped P' fuel r).Coherent := by
  have hrel : Lockstep.evolution.Rel i.heap ⟨i.depth, i.maxDepth, i.depth, i.maxDepth⟩ i i := by
    refine ⟨⟨rfl, rfl, hi.heap⟩, hi.env, rfl, rfl, rfl, ?_, ⟨rfl, rfl⟩, rfl, rfl, rfl, rfl⟩
    rw [hidle]
    exact .nil
  have hdepth : ∀ n, Lockstep.evolution.nests n →
      n.left < n.leftLimit ∨ ¬ n.right < n.rightLimit := by
    rintro n ⟨hlevel, hlimit⟩
    omega
  have hdrives := Lockstep.drives_watched trivial (.inl rfl) hle hdepth fuel
  have hends := Lockstep.sim_topForms hdrives r i i hrel
  unfold Interpreter.stopped Interpreter.run
  generalize (Engine.watched P fuel).topForms r.all.1 i = x at hends ⊢
  generalize (Engine.watched P' fuel).topForms r.all.1 i = y at hends ⊢
  cases x with
  | ok v m =>
    cases y with
    | error h k => exact hends.elim
    | ok v' k =>
      obtain ⟨w, hevolves, hrel', -⟩ := hends
      obtain rfl := hrel'.eq trivial
      obtain ⟨rfl, hcoherent⟩ := hrel'.coherent
      exact ⟨hevolves, hcoherent.heap.kept, .refl _, hcoherent⟩
  | error h m =>
    rcases hends with ⟨-, hexcused⟩ | ⟨w, k, rfl, hevolves, hrel'⟩
    -- The first engine was stopped at some moment, and the second one has gone on from there.
    · obtain ⟨u, v, hu, ⟨rfl, -, hm⟩, hv, halone⟩ := hexcused trivial
      cases y with
      | ok v' k =>
        obtain ⟨rfl, hcoherent⟩ := halone.1.coherent
        exact ⟨hu, hm.kept, hv, hcoherent⟩
      | error h' k =>
        obtain ⟨rfl, hcoherent⟩ := Lockstep.Rel.coherent halone
        exact ⟨hu, hm.kept, hv, hcoherent⟩
    · obtain rfl := hrel'.eq trivial
      obtain ⟨rfl, hcoherent⟩ := hrel'.coherent
      exact ⟨hevolves, hcoherent.heap.kept, .refl _, hcoherent⟩

/-- The run of a source to its end. -/
theorem Interpreter.Coherent.evolves_run {i : Interpreter} (hi : i.Coherent)
    (hidle : i.uses = []) (fuel : Nat) (r : Reader) :
    i.heap.Evolves (i.run (evalForms fuel r.all.1)).2.heap ∧
      (i.run (evalForms fuel r.all.1)).2.Coherent := by
  obtain ⟨hevolves, -, -, hcoherent⟩ :=
    hi.evolves_stopped hidle (P := fun _ _ => True) (fun _ _ h => h) fuel r
  rw [stopped_true] at hevolves hcoherent
  exact ⟨hevolves, hcoherent⟩

namespace Interpreter

theorem coherent_fresh (maxDepth : Nat) (console : Console) :
    (fresh maxDepth console).Coherent := by
  have hheap : (fresh maxDepth console).heap.Coherent := by
    have hempty : (fresh maxDepth console).heap = {} := by
      refine fresh_induction (motive := fun i => i.heap = {}) rfl (fun _ _ _ hi => hi) ?_
      intro i name target hi
      unfold defineAlias
      split
      · exact hi
      · exact hi
    rw [hempty]
    exact ⟨fun a c hc => by simp at hc, fun a c hc => by simp at hc⟩
  refine ⟨hheap, ?_⟩
  generalize (fresh maxDepth console).heap = h at hheap ⊢
  refine fresh_induction (motive := fun i => h.self.AlikeEnv i.env i.env) ⟨.nil, .nil⟩ ?_ ?_
  · intro i d _ hi
    refine ⟨hi.globals.insert d.name ?_, hi.frames⟩
    cases d.contract with
    | none => exact .primitive _ _ _
    | some contract => exact .checked _ _ _ _
  · intro i name target hi
    unfold defineAlias
    split
    next v hv =>
      rcases hi.get? target with ⟨hnone, -⟩ | ⟨u, u', hu, hu', halike⟩
      · rw [hv] at hnone
        cases hnone
      · rw [hv] at hu hu'
        cases hu
        cases hu'
        exact ⟨hi.globals.insert name halike, hi.frames⟩
    next => exact hi

theorem Reachable.coherent {i : Interpreter} (h : i.Reachable) : i.Coherent := by
  induction h with
  | fresh maxDepth console => exact coherent_fresh maxDepth console
  | source fuel source hi ih => exact (ih.evolves_run hi.idle fuel (.ofSource source [])).2
  | interactive fuel source answers hi ih =>
    exact (ih.evolves_run hi.idle fuel (.ofSource source answers)).2

/-- The states that a session can go on to. A source that fails leads to a state like any other. -/
inductive Leads (i : Interpreter) : Interpreter → Prop
  | refl : Leads i i
  | source {j : Interpreter} (fuel : Nat) (source : String) :
      Leads i j → Leads i (j.run (evalSource fuel source)).2
  | interactive {j : Interpreter} (fuel : Nat) (source : String) (answers : List (Option String)) :
      Leads i j → Leads i (j.evalInteractive fuel source answers).2.1

theorem Leads.reachable {i j : Interpreter} (h : i.Leads j) (hi : i.Reachable) : j.Reachable := by
  induction h with
  | refl => exact hi
  | source fuel source _ ih => exact .source fuel source ih
  | interactive fuel source answers _ ih => exact .interactive fuel source answers ih

theorem Leads.evolves {i j : Interpreter} (h : i.Leads j) (hi : i.Reachable) :
    i.heap.Evolves j.heap := by
  induction h with
  | refl => exact .refl _
  | source fuel source hj ih =>
    have hreach := hj.reachable hi
    exact ih.trans (hreach.coherent.evolves_run hreach.idle fuel (.ofSource source [])).1
  | interactive fuel source answers hj ih =>
    have hreach := hj.reachable hi
    exact ih.trans (hreach.coherent.evolves_run hreach.idle fuel (.ofSource source answers)).1

end Interpreter

/-- In every state of a session no list is empty and no struct has a key twice. From every moment to
every later one, be it in the run of one source or in the further course of the session, lists keep
their lengths, and structs keep their keys in order and gain new ones only at the end. -/
theorem containers_only_evolve {i : Interpreter} (h : i.Reachable) :
    i.heap.Kept ∧ (∀ j, i.Leads j → i.heap.Evolves j.heap) ∧
    ∀ (fuel : Nat) (r : Reader) (P P' : Interpreter → Hand → Prop),
      (∀ j hand, P j hand → P' j hand) →
      i.heap.Evolves (i.stopped P fuel r).heap ∧ (i.stopped P fuel r).heap.Kept ∧
      (i.stopped P fuel r).heap.Evolves (i.stopped P' fuel r).heap ∧
      (i.stopped P' fuel r).heap.Evolves (i.run (evalForms fuel r.all.1)).2.heap := by
  refine ⟨h.coherent.heap.kept, fun j hj => hj.evolves h, fun fuel r P P' hle => ?_⟩
  obtain ⟨hevolves, hkept, hlater, -⟩ := h.coherent.evolves_stopped h.idle hle fuel r
  have hlax : ∀ j hand, P' j hand → True := fun _ _ _ => trivial
  obtain ⟨-, -, hend, -⟩ := h.coherent.evolves_stopped h.idle hlax fuel r
  rw [Interpreter.stopped_true] at hend
  exact ⟨hevolves, hkept, hlater, hend⟩

/-- A struct that is written while it is looked at: from the moment at which the heap has four cells
to the one at which it has six. -/
theorem containers_only_evolve_session :
    ((Interpreter.fresh 400 {}).run (evalSource 9 "(setq s {a: 1})")).2.heap.Evolves
      ((((Interpreter.fresh 400 {}).run (evalSource 9 "(setq s {a: 1})")).2.stopped
        (fun j _ => j.heap.size < 4) 9 (.ofSource "(set@ s \"b\" (list {} {}))" [])).heap) ∧
    (((Interpreter.fresh 400 {}).run (evalSource 9 "(setq s {a: 1})")).2.stopped
        (fun j _ => j.heap.size < 4) 9 (.ofSource "(set@ s \"b\" (list {} {}))" [])).heap.Evolves
      (((Interpreter.fresh 400 {}).run (evalSource 9 "(setq s {a: 1})")).2.stopped
        (fun j _ => j.heap.size < 6) 9 (.ofSource "(set@ s \"b\" (list {} {}))" [])).heap := by
  have hreach := Interpreter.Reachable.source 9 "(setq s {a: 1})" (.fresh 400 {})
  obtain ⟨-, -, hmoments⟩ := containers_only_evolve hreach
  obtain ⟨hevolves, -, hlater, -⟩ := hmoments 9 (.ofSource "(set@ s \"b\" (list {} {}))" [])
    (fun j _ => j.heap.size < 4) (fun j _ => j.heap.size < 6) (fun j _ h => by omega)
  exact ⟨hevolves, hlater⟩

end Lisplet
