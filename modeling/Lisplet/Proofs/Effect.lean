import Lisplet.Proofs.Policy

/-!
# Effects

Everything an evaluation does to a state is a sequence of a few small effects, some of them inside
brackets: a frame that is taken away again, a level of nesting that is left again, a cell whose use
ends again. `Policy.Reaches` is the closure of these effects. What holds of every effect and carries
over brackets holds of every evaluation, so invariants are proved here by one induction instead of
one by one for the operations.
-/

namespace Lisplet

namespace Policy

/-- The states that can be reached by effects on allowed values. -/
inductive Reaches (P : Policy) : Interpreter → Interpreter → Prop
  | refl (i : Interpreter) : Reaches P i i
  | trans {i j k : Interpreter} : Reaches P i j → Reaches P j k → Reaches P i k
  -- A new list.
  | newList (i : Interpreter) (items : List Value) : items ≠ [] → P.AllowsAll items →
      Reaches P i { i with heap := (i.heap.newList items).2 }
  -- A new list with the items of an old one.
  | copyList (i : Interpreter) (a : Nat) : P.cell a →
      Reaches P i { i with heap := (i.heap.alloc (.list (i.heap.items a))).2 }
  -- A new struct; its keys are distinct.
  | newStruct (i : Interpreter) (fields : Record Value) : fields.keys.Nodup →
      P.AllowsFields fields → Reaches P i { i with heap := (i.heap.newStruct fields).2 }
  -- Forms that were read, brought into the heap.
  | load (i : Interpreter) (source : String) (answers : List (Option String))
      (forms : List Form) : (Reader.ofSource source answers).all.1 = .ok forms →
      Reaches P i { i with heap := (i.heap.loadAll forms).2 }
  -- One item of a list overwritten.
  | storeItem (i : Interpreter) (a n : Nat) (v : Value) : P.cell a →
      n < (i.heap.items a).length → P.Allows v →
      Reaches P i { i with heap := i.heap.write a (.list ((i.heap.items a).set n v)) }
  -- One field of a struct written.
  | storeField (i : Interpreter) (a : Nat) (key : String) (v : Value) : P.cell a → P.Allows v →
      Reaches P i { i with heap := i.heap.write a (.struct ((i.heap.fields a).insert key v)) }
  -- A variable assigned.
  | assign (i : Interpreter) (name : String) (v : Value) : P.Allows v →
      Reaches P i { i with env := i.env.set name v }
  -- A line printed.
  | print (i : Interpreter) (text : String) :
      Reaches P i { i with console := i.console.writeLine text }
  -- A line asked for.
  | ask (i : Interpreter) (prompt : String) :
      Reaches P i { i with console := (i.console.readLine prompt).2 }
  -- An identity given away.
  | identify (i : Interpreter) : Reaches P i { i with nextId := i.nextId + 1 }
  -- Whatever else becomes of the lists and structs in the hands of a host.
  | host (i : Interpreter) (heap : Heap) : P.Permissive → Reaches P i { i with heap := heap }
  -- Effects inside a frame.
  | frame {i j : Interpreter} (f : Record Value) : P.AllowsFields f →
      Reaches P { i with env := (i.env.scope f).1 } j →
      Reaches P i { j with env := j.env.release (i.env.scope f).2 }
  -- Effects one level deeper.
  | deeper {i j : Interpreter} : i.depth < i.maxDepth →
      Reaches P { i with depth := i.depth + 1 } j → Reaches P i { j with depth := j.depth - 1 }
  -- Effects during the use of a cell.
  | inUse {i j : Interpreter} (use : Use) : P.crash .cellInUse →
      Reaches P { i with uses := use :: i.uses } j → Reaches P i { j with uses := i.uses }

end Policy

/-! ## Frames, depth and global names -/

namespace Record

variable {α : Type}

theorem mem_keys_iff_has {name : String} {r : Record α} : name ∈ r.keys ↔ r.has name = true := by
  induction r with
  | nil => simp [keys, has, get?]
  | cons e r ih =>
    obtain ⟨k, v⟩ := e
    simp only [keys, has] at ih
    by_cases h : k = name
    · simp [keys, has, get?, h]
    · have hne : name ≠ k := fun he => h he.symm
      simp only [keys, List.map_cons, List.mem_cons, hne, false_or, has, get?, h, if_false]
      exact ih

theorem keys_insert_of_has {name : String} {r : Record α} (h : r.has name = true) (v : α) :
    (r.insert name v).keys = r.keys := by
  rw [keys_insert, if_pos (mem_keys_iff_has.mpr h)]

theorem keys_subset_insert (name : String) (v : α) (r : Record α) :
    r.keys ⊆ (r.insert name v).keys := by
  intro k hk
  rw [keys_insert]
  split
  · exact hk
  · exact List.mem_append_left _ hk

end Record

namespace Environment

variable {α : Type}

/-- Assigning to a frame keeps the names of every frame. -/
theorem keys_setInFrames {name : String} {v : α} {fs gs : List (Record α)}
    (h : setInFrames name v fs = some gs) : gs.map Record.keys = fs.map Record.keys := by
  induction fs generalizing gs with
  | nil => simp [setInFrames] at h
  | cons f fs ih =>
    by_cases hf : f.has name = true
    · simp only [setInFrames, hf, if_true, Option.some.injEq] at h
      subst h
      simp [Record.keys_insert_of_has hf]
    · simp only [setInFrames, hf, Bool.false_eq_true, if_false, Option.map_eq_some_iff] at h
      obtain ⟨gs, hgs, rfl⟩ := h
      simp [ih hgs]

theorem keys_frames_set (e : Environment α) (name : String) (v : α) :
    (e.set name v).frames.map Record.keys = e.frames.map Record.keys := by
  unfold set
  split
  next frames h => exact keys_setInFrames h
  next => rfl

theorem globals_subset_set (e : Environment α) (name : String) (v : α) :
    e.globals.keys ⊆ (e.set name v).globals.keys := by
  unfold set
  split
  · exact List.Subset.refl _
  · exact Record.keys_subset_insert name v e.globals

/-- A frame whose guard is released leaves the frames below it, if nothing else has changed the
height of the stack. -/
theorem frames_release_scope {e e' : Environment α} {f : Record α}
    (h : e'.frames.length = e.frames.length + 1) :
    (e'.release (e.scope f).2).frames = e'.frames.tail := by
  have hn : e'.frames.length - (e.frames.length + 1 - 1) = 1 := by omega
  simp only [release, scope, push, depth, truncate, List.length_cons, hn, List.drop_one]

end Environment

/-- The discipline of evaluation: every frame binds the names it did, nesting is as deep as it was
and may go as deep as before, and no global name is lost. -/
structure Interpreter.Keeps (i j : Interpreter) : Prop where
  frames : j.env.frames.map Record.keys = i.env.frames.map Record.keys
  globals : i.env.globals.keys ⊆ j.env.globals.keys
  depth : j.depth = i.depth
  maxDepth : j.maxDepth = i.maxDepth
  uses : j.uses = i.uses

namespace Interpreter.Keeps

variable {i j k : Interpreter}

theorem refl (i : Interpreter) : i.Keeps i :=
  ⟨rfl, List.Subset.refl _, rfl, rfl, rfl⟩

theorem trans (hij : i.Keeps j) (hjk : j.Keeps k) : i.Keeps k :=
  ⟨hjk.frames.trans hij.frames, fun _ h => hjk.globals (hij.globals h),
    hjk.depth.trans hij.depth, hjk.maxDepth.trans hij.maxDepth, hjk.uses.trans hij.uses⟩

theorem set (i : Interpreter) (name : String) (v : Value) :
    i.Keeps { i with env := i.env.set name v } :=
  ⟨i.env.keys_frames_set name v, i.env.globals_subset_set name v, rfl, rfl, rfl⟩

/-- A bracket around a frame: inside, the stack is one higher, so the guard takes away exactly the
frame it was made for. -/
theorem frame {f : Record Value} (h : Keeps { i with env := (i.env.scope f).1 } j) :
    i.Keeps { j with env := j.env.release (i.env.scope f).2 } := by
  have hframes : j.env.frames.map Record.keys = f.keys :: i.env.frames.map Record.keys := h.frames
  have hlen : j.env.frames.length = i.env.frames.length + 1 := by
    simpa using congrArg List.length hframes
  have htail : (j.env.release (i.env.scope f).2).frames = j.env.frames.tail :=
    Environment.frames_release_scope hlen
  refine ⟨?_, h.globals, h.depth, h.maxDepth, h.uses⟩
  rw [htail, List.map_tail, hframes, List.tail_cons]

end Interpreter.Keeps

namespace Policy

variable {P : Policy} {i j : Interpreter}

/-- Every effect keeps to the discipline, and so do all effects together. -/
theorem Reaches.keeps (h : P.Reaches i j) : i.Keeps j := by
  induction h with
  | refl i => exact .refl i
  | trans _ _ ihij ihjk => exact ihij.trans ihjk
  | assign i name v _ => exact .set i name v
  | frame f _ _ ih => exact ih.frame
  | deeper _ _ ih => exact ⟨ih.frames, ih.globals, by simp [ih.depth], ih.maxDepth, ih.uses⟩
  | inUse _ _ _ ih => exact ⟨ih.frames, ih.globals, ih.depth, ih.maxDepth, rfl⟩
  | _ => exact ⟨rfl, List.Subset.refl _, rfl, rfl, rfl⟩

/-! ## Effects on admitted states -/

namespace AdmitsHeap

variable {h : Heap}

theorem items (hh : P.AdmitsHeap h) {a : Nat} (ha : P.cell a) : P.AllowsAll (h.items a) := by
  unfold Heap.items
  split
  next items hc => exact hh.cells ha hc
  next => exact trivial

theorem fields (hh : P.AdmitsHeap h) {a : Nat} (ha : P.cell a) : P.AllowsFields (h.fields a) := by
  unfold Heap.fields
  split
  next fields hc => exact hh.cells ha hc
  next => exact trivial

theorem alloc (hh : P.AdmitsHeap h) {c : Cell} (hc : P.AllowsCell c) :
    P.AdmitsHeap (h.alloc c).2 := by
  constructor
  · intro a d ha hd
    simp only [Heap.alloc, Array.getElem?_push] at hd
    split at hd
    · cases hd
      exact hc
    · exact hh.cells ha hd
  · intro a ha
    simp only [Heap.alloc, Heap.size, Array.size_push] at ha
    exact hh.fresh (Nat.le_of_succ_le ha)

theorem write (hh : P.AdmitsHeap h) {c : Cell} (a : Nat) (hc : P.AllowsCell c) :
    P.AdmitsHeap (h.write a c) := by
  constructor
  · intro b d hb hd
    simp only [Heap.write, Array.getElem?_setIfInBounds] at hd
    split at hd
    · split at hd
      · cases hd
        exact hc
      · cases hd
    · exact hh.cells hb hd
  · intro b hb
    simp only [Heap.write, Heap.size, Array.size_setIfInBounds] at hb
    exact hh.fresh hb

theorem newList (hh : P.AdmitsHeap h) {items : List Value} (hi : P.AllowsAll items) :
    P.Allows (h.newList items).1 ∧ P.AdmitsHeap (h.newList items).2 := by
  unfold Heap.newList
  split
  · exact ⟨trivial, hh⟩
  · exact ⟨hh.fresh (Nat.le_refl _), hh.alloc (c := .list items) hi⟩

theorem newStruct (hh : P.AdmitsHeap h) {fields : Record Value} (hf : P.AllowsFields fields) :
    P.Allows (h.newStruct fields).1 ∧ P.AdmitsHeap (h.newStruct fields).2 :=
  ⟨hh.fresh (Nat.le_refl _), hh.alloc (c := .struct fields) hf⟩

-- What was read holds no primitive and no jump, and its lists and structs get new cells.
mutual

theorem load {h : Heap} (hh : P.AdmitsHeap h) :
    (f : Form) → P.Allows (h.load f).1 ∧ P.AdmitsHeap (h.load f).2
  | .nil | .true | .int _ | .double _ | .str _ | .symbol _ => ⟨trivial, hh⟩
  | .list items => by
    obtain ⟨hvs, hh⟩ := hh.loadAll items
    exact hh.newList hvs
  | .expr items => hh.loadAll items
  | .struct fields => by
    obtain ⟨hvs, hh⟩ := hh.loadFields fields
    exact hh.newStruct hvs

theorem loadAll {h : Heap} (hh : P.AdmitsHeap h) :
    (fs : List Form) → P.AllowsAll (h.loadAll fs).1 ∧ P.AdmitsHeap (h.loadAll fs).2
  | [] => ⟨trivial, hh⟩
  | f :: fs => by
    obtain ⟨hv, hh⟩ := hh.load f
    obtain ⟨hvs, hh⟩ := hh.loadAll fs
    exact ⟨⟨hv, hvs⟩, hh⟩

theorem loadFields {h : Heap} (hh : P.AdmitsHeap h) :
    (fs : List (String × Form)) → P.AllowsFields (h.loadFields fs).1 ∧
      P.AdmitsHeap (h.loadFields fs).2
  | [] => ⟨trivial, hh⟩
  | (_, f) :: fs => by
    obtain ⟨hv, hh⟩ := hh.load f
    obtain ⟨hvs, hh⟩ := hh.loadFields fs
    exact ⟨⟨hv, hvs⟩, hh⟩

end

end AdmitsHeap

theorem allows_setInFrames {name : String} {v : Value} {fs gs : List (Record Value)}
    (hfs : ∀ f ∈ fs, P.AllowsFields f) (hv : P.Allows v)
    (h : Environment.setInFrames name v fs = some gs) : ∀ g ∈ gs, P.AllowsFields g := by
  induction fs generalizing gs with
  | nil => simp [Environment.setInFrames] at h
  | cons f fs ih =>
    have hf := hfs f List.mem_cons_self
    have hrest : ∀ g ∈ fs, P.AllowsFields g := fun g hg => hfs g (List.mem_cons_of_mem _ hg)
    by_cases hn : f.has name = true
    · simp only [Environment.setInFrames, hn, if_true, Option.some.injEq] at h
      subst h
      intro g hg
      rcases List.mem_cons.mp hg with rfl | hg
      · exact hf.insert name hv
      · exact hrest g hg
    · simp only [Environment.setInFrames, hn, Bool.false_eq_true, if_false,
        Option.map_eq_some_iff] at h
      obtain ⟨gs, hgs, rfl⟩ := h
      intro g hg
      rcases List.mem_cons.mp hg with rfl | hg
      · exact hf
      · exact ih hrest hgs g hg

namespace Admits

theorem set (hi : P.Admits i) (name : String) {v : Value} (hv : P.Allows v) :
    P.Admits { i with env := i.env.set name v } := by
  unfold Environment.set
  split
  next frames h => exact ⟨hi.globals, allows_setInFrames hi.frames hv h, hi.heap, hi.idle⟩
  next => exact ⟨hi.globals.insert name hv, hi.frames, hi.heap, hi.idle⟩

theorem scope (hi : P.Admits i) {f : Record Value} (hf : P.AllowsFields f) :
    P.Admits { i with env := (i.env.scope f).1 } := by
  refine ⟨hi.globals, ?_, hi.heap, hi.idle⟩
  intro g hg
  rcases List.mem_cons.mp hg with rfl | hg
  · exact hf
  · exact hi.frames g hg

theorem release (hi : P.Admits i) (g : Guard) : P.Admits { i with env := i.env.release g } :=
  ⟨hi.globals, fun f hf => hi.frames f (List.mem_of_mem_drop hf), hi.heap, hi.idle⟩

theorem withHeap (hi : P.Admits i) {h : Heap} (hh : P.AdmitsHeap h) :
    P.Admits { i with heap := h } :=
  ⟨hi.globals, hi.frames, hh, hi.idle⟩

end Admits

/-- A policy that a state keeps to is kept to by every state that can be reached from it. -/
theorem Reaches.admits (h : P.Reaches i j) (hi : P.Admits i) : P.Admits j := by
  induction h with
  | refl _ => exact hi
  | trans _ _ ihij ihjk => exact ihjk (ihij hi)
  | newList _ items _ hitems => exact hi.withHeap (hi.heap.newList hitems).2
  | copyList _ a ha => exact hi.withHeap (hi.heap.alloc (c := .list _) (hi.heap.items ha))
  | newStruct _ fields _ hfields => exact hi.withHeap (hi.heap.newStruct hfields).2
  | load _ _ _ forms _ => exact hi.withHeap (hi.heap.loadAll forms).2
  | storeItem _ a n v ha _ hv =>
    exact hi.withHeap (hi.heap.write (c := .list _) a ((hi.heap.items ha).set hv n))
  | storeField _ a key v ha hv =>
    exact hi.withHeap (hi.heap.write (c := .struct _) a ((hi.heap.fields ha).insert key hv))
  | assign _ name v hv => exact hi.set name hv
  | print | ask | identify => exact ⟨hi.globals, hi.frames, hi.heap, hi.idle⟩
  | host _ heap hP => exact hP.admits _
  | frame f hf _ ih => exact (ih (hi.scope hf)).release _
  | deeper _ _ ih =>
    have hj := ih ⟨hi.globals, hi.frames, hi.heap, hi.idle⟩
    exact ⟨hj.globals, hj.frames, hj.heap, hj.idle⟩
  | inUse _ hc _ ih =>
    have hj := ih ⟨hi.globals, hi.frames, hi.heap, .inr hc⟩
    exact ⟨hj.globals, hj.frames, hj.heap, .inr hc⟩

end Policy

end Lisplet
