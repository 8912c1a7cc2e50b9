import Lisplet.Proofs.Depiction
import Lisplet.Proofs.Signals

/-!
# Literals evaluate to copies

A struct evaluates to a new struct of the values of its fields, and so on down to a field that is no
struct; a list evaluates to a new list with the very same items. So what a literal evaluates to has
its own structs, and its own lists down to the first list on every way; what is in those lists it has
in common with the program text. It follows that a program can rewrite its own text exactly if there
is a list in a list.
-/

namespace Lisplet

open Eval

namespace Heap

variable {h k : Heap} {f g : Form} {u v w : Value} {vs : List Value} {us xs : Record Value}
  {c d : Cell} {a b m n t : Nat}

/-! ## What evaluation looks at -/

mutual

/-- The value has the shape of the form as far as evaluation looks at it: down to the first list on
every way. -/
def Outlines (h : Heap) : Form → Value → Prop
  | .symbol _, _ | .expr _, _ => False
  | .list _, v => ∃ a vs, v = .list a ∧ h.cells[a]? = some (.list vs)
  | .struct fields, v =>
    ∃ a us, v = .struct a ∧ h.cells[a]? = some (.struct us) ∧ h.OutlinesFields fields us
  | f, v => h.Depicts f v

def OutlinesFields (h : Heap) : List (String × Form) → Record Value → Prop
  | [], us => us = []
  | (key, f) :: fs, us => ∃ u us', us = (key, u) :: us' ∧ h.Outlines f u ∧ h.OutlinesFields fs us'

end

/-- Lists stay lists, and structs stay as they are. -/
structure Retains (h k : Heap) : Prop where
  list {a : Nat} {vs : List Value} : h.cells[a]? = some (.list vs) →
    ∃ ws, k.cells[a]? = some (.list ws)
  struct {a : Nat} {us : Record Value} : h.cells[a]? = some (.struct us) →
    k.cells[a]? = some (.struct us)

theorem Begins.retains (hk : h.Begins k) : h.Retains k :=
  ⟨fun hc => ⟨_, hk.cell hc⟩, hk.cell⟩

theorem retains_write (ha : h.cells[a]? = some (.list vs)) (ws : List Value) :
    h.Retains (h.write a (.list ws)) := by
  constructor
  · intro b us hb
    rw [getElem?_write ha]
    split
    · exact ⟨ws, rfl⟩
    · exact ⟨us, hb⟩
  · intro b us hb
    have hne : a ≠ b := by
      rintro rfl
      cases ha.symm.trans hb
    rw [getElem?_write ha, if_neg hne]
    exact hb

mutual

theorem Outlines.mono (hk : h.Retains k) : (f : Form) → ∀ {v}, h.Outlines f v → k.Outlines f v
  | .nil, _, hv | .true, _, hv | .int _, _, hv | .double _, _, hv | .str _, _, hv => hv
  | .symbol _, _, hv | .expr _, _, hv => hv.elim
  | .list _, _, ⟨a, _, hv, ha⟩ => by
    obtain ⟨ws, hws⟩ := hk.list ha
    exact ⟨a, ws, hv, hws⟩
  | .struct fields, _, ⟨a, us, hv, ha, hus⟩ =>
    ⟨a, us, hv, hk.struct ha, OutlinesFields.mono hk fields hus⟩

theorem OutlinesFields.mono (hk : h.Retains k) : (fs : List (String × Form)) →
    ∀ {us}, h.OutlinesFields fs us → k.OutlinesFields fs us
  | [], _, hus => hus
  | (_, f) :: fs, _, ⟨u, us, heq, hu, hus⟩ =>
    ⟨u, us, heq, Outlines.mono hk f hu, OutlinesFields.mono hk fs hus⟩

end

mutual

theorem Depicts.outlines : (f : Form) → f.Plain → ∀ {v}, h.Depicts f v → h.Outlines f v
  | .nil, _, _, hv | .true, _, _, hv | .int _, _, _, hv | .double _, _, _, hv
  | .str _, _, _, hv => hv
  | .symbol path, hf, _, _ => absurd .self (hf.symbol path)
  | .expr items, hf, _, _ => absurd .self (hf.expr items)
  | .list _, _, _, ⟨a, vs, hv, ha, _⟩ => ⟨a, vs, hv, ha⟩
  | .struct fields, hf, _, ⟨a, us, hv, ha, hus⟩ =>
    ⟨a, us, hv, ha, DepictsFields.outlines fields (fun _ _ hmem => hf.field hmem) hus⟩

theorem DepictsFields.outlines : (fs : List (String × Form)) →
    (∀ key f, (key, f) ∈ fs → f.Plain) → ∀ {us}, h.DepictsFields fs us → h.OutlinesFields fs us
  | [], _, _, hus => hus
  | (key, f) :: fs, hfs, _, ⟨u, us, heq, hu, hus⟩ =>
    ⟨u, us, heq, Depicts.outlines f (hfs key f List.mem_cons_self) hu,
      DepictsFields.outlines fs (fun key f hmem => hfs key f (List.mem_cons_of_mem _ hmem)) hus⟩

end

/-! ## Copies -/

mutual

/-- `w` is a copy of `v` in cells from `n` on, down to the first list on every way, and there it has
the items of `v`. -/
def Copies (h : Heap) (n : Nat) : Form → Value → Value → Prop
  | .symbol _, _, _ | .expr _, _, _ => False
  | .list _, v, w => ∃ a b vs, v = .list a ∧ w = .list b ∧ n ≤ b ∧
      h.cells[a]? = some (.list vs) ∧ h.cells[b]? = some (.list vs)
  | .struct fields, v, w => ∃ a b us xs, v = .struct a ∧ w = .struct b ∧ n ≤ b ∧
      h.cells[a]? = some (.struct us) ∧ h.cells[b]? = some (.struct xs) ∧
      h.CopiesFields n fields us xs
  | f, v, w => h.Depicts f v ∧ w = v

def CopiesFields (h : Heap) (n : Nat) : List (String × Form) → Record Value → Record Value → Prop
  | [], us, xs => us = [] ∧ xs = []
  | (key, f) :: fs, us, xs => ∃ u us' x xs', us = (key, u) :: us' ∧ xs = (key, x) :: xs' ∧
      h.Copies n f u x ∧ h.CopiesFields n fs us' xs'

end

mutual

theorem Copies.mono (hk : h.Begins k) (hmn : m ≤ n) : (f : Form) →
    ∀ {v w}, h.Copies n f v w → k.Copies m f v w
  | .nil, _, _, hw | .true, _, _, hw | .int _, _, _, hw | .double _, _, _, hw
  | .str _, _, _, hw => hw
  | .symbol _, _, _, hw | .expr _, _, _, hw => hw.elim
  | .list _, _, _, ⟨a, b, vs, hv, hw, hn, ha, hb⟩ =>
    ⟨a, b, vs, hv, hw, Nat.le_trans hmn hn, hk.cell ha, hk.cell hb⟩
  | .struct fields, _, _, ⟨a, b, us, xs, hv, hw, hn, ha, hb, hxs⟩ =>
    ⟨a, b, us, xs, hv, hw, Nat.le_trans hmn hn, hk.cell ha, hk.cell hb,
      CopiesFields.mono hk hmn fields hxs⟩

theorem CopiesFields.mono (hk : h.Begins k) (hmn : m ≤ n) : (fs : List (String × Form)) →
    ∀ {us xs}, h.CopiesFields n fs us xs → k.CopiesFields m fs us xs
  | [], _, _, hxs => hxs
  | (_, f) :: fs, _, _, ⟨u, us, x, xs, hus, hxs, hx, hrest⟩ =>
    ⟨u, us, x, xs, hus, hxs, Copies.mono hk hmn f hx, CopiesFields.mono hk hmn fs hrest⟩

end

theorem Copies.not_signal (hw : h.Copies n f v w) : w.isSignal = false := by
  cases f with
  | nil | true | int | double | str =>
    obtain ⟨hv, rfl⟩ := hw
    rw [show w = _ from hv]
    rfl
  | symbol | expr => exact hw.elim
  | list =>
    obtain ⟨_, _, _, _, rfl, _⟩ := hw
    rfl
  | struct =>
    obtain ⟨_, _, _, _, _, rfl, _⟩ := hw
    rfl

theorem CopiesFields.of_mem {fs : List (String × Form)} {key : String}
    (hxs : h.CopiesFields n fs us xs) (hus : h.DepictsFields fs us) (hmem : (key, w) ∈ xs) :
    ∃ f v, (key, f) ∈ fs ∧ (key, v) ∈ us ∧ h.Depicts f v ∧ h.Copies n f v w := by
  induction fs generalizing us xs with
  | nil =>
    obtain ⟨-, rfl⟩ := hxs
    cases hmem
  | cons e fs ih =>
    obtain ⟨name, f⟩ := e
    obtain ⟨u, us, x, xs, rfl, rfl, hx, hxs⟩ := hxs
    obtain ⟨_, _, heq, hu, hus⟩ := hus
    cases heq
    rcases List.mem_cons.mp hmem with heq | hmem
    · cases heq
      exact ⟨f, u, List.mem_cons_self, List.mem_cons_self, hu, hx⟩
    · obtain ⟨g, v, hg, hv, hw⟩ := ih hxs hus hmem
      exact ⟨g, v, List.mem_cons_of_mem _ hg, List.mem_cons_of_mem _ hv, hw⟩

theorem CopiesFields.exists_of_mem {fs : List (String × Form)} {key : String}
    (hxs : h.CopiesFields n fs us xs) (hus : h.DepictsFields fs us) (hmem : (key, f) ∈ fs) :
    ∃ v w, (key, v) ∈ us ∧ (key, w) ∈ xs ∧ h.Depicts f v ∧ h.Copies n f v w := by
  induction fs generalizing us xs with
  | nil => cases hmem
  | cons e fs ih =>
    obtain ⟨name, g⟩ := e
    obtain ⟨u, us, x, xs, rfl, rfl, hx, hxs⟩ := hxs
    obtain ⟨_, _, heq, hu, hus⟩ := hus
    cases heq
    rcases List.mem_cons.mp hmem with heq | hmem
    · cases heq
      exact ⟨u, x, List.mem_cons_self, List.mem_cons_self, hu, hx⟩
    · obtain ⟨v, w, hv, hw, hcopies⟩ := ih hxs hus hmem
      exact ⟨v, w, List.mem_cons_of_mem _ hv, List.mem_cons_of_mem _ hw, hcopies⟩

mutual

/-- A copy depicts what the original does. -/
theorem Copies.depicts_iff : (f : Form) → ∀ {v w}, h.Copies n f v w →
    (h.Depicts f v ↔ h.Depicts f w)
  | .nil, _, _, ⟨_, hw⟩ | .true, _, _, ⟨_, hw⟩ | .int _, _, _, ⟨_, hw⟩ | .double _, _, _, ⟨_, hw⟩
  | .str _, _, _, ⟨_, hw⟩ => by rw [hw]
  | .symbol _, _, _, hw | .expr _, _, _, hw => hw.elim
  | .list items, _, _, ⟨a, b, vs, hv, hw, _, ha, hb⟩ => by
    subst hv hw
    constructor
    · intro hv
      obtain ⟨_, heq, hvs⟩ := hv.list_cell (List.mem_singleton_self a) ha
      cases heq
      exact ⟨b, vs, rfl, hb, hvs⟩
    · intro hw
      obtain ⟨_, heq, hvs⟩ := hw.list_cell (List.mem_singleton_self b) hb
      cases heq
      exact ⟨a, vs, rfl, ha, hvs⟩
  | .struct fields, _, _, ⟨a, b, us, xs, hv, hw, _, ha, hb, hxs⟩ => by
    subst hv hw
    have hfields := CopiesFields.depicts_iff fields hxs
    constructor
    · intro hv
      obtain ⟨_, heq, hus⟩ := hv.struct_cell (List.mem_singleton_self a) ha
      cases heq
      exact ⟨b, xs, rfl, hb, hfields.mp hus⟩
    · intro hw
      obtain ⟨_, heq, hxs⟩ := hw.struct_cell (List.mem_singleton_self b) hb
      cases heq
      exact ⟨a, us, rfl, ha, hfields.mpr hxs⟩

theorem CopiesFields.depicts_iff : (fs : List (String × Form)) → ∀ {us xs},
    h.CopiesFields n fs us xs → (h.DepictsFields fs us ↔ h.DepictsFields fs xs)
  | [], _, _, ⟨hus, hxs⟩ => by
    rw [hus, hxs]
  | (key, f) :: fs, _, _, ⟨u, us, x, xs, hus, hxs, hx, hrest⟩ => by
    subst hus hxs
    have hfirst := Copies.depicts_iff f hx
    have hothers := CopiesFields.depicts_iff fs hrest
    constructor
    · rintro ⟨_, _, heq, hu, hus⟩
      cases heq
      exact ⟨x, xs, rfl, hfirst.mp hu, hothers.mp hus⟩
    · rintro ⟨_, _, heq, hx, hxs⟩
      cases heq
      exact ⟨u, us, rfl, hfirst.mpr hx, hothers.mpr hxs⟩

end

end Heap

/-! ## Evaluation makes copies -/

theorem Eval.exists_of_descend {α : Type} {x : Eval α} {r : α} {i j : Interpreter}
    (h : descend x i = .ok r j) :
    ∃ k, x { i with depth := i.depth + 1 } = .ok r k ∧ j = { k with depth := k.depth - 1 } := by
  unfold descend at h
  split at h
  · split at h
    next r k hr =>
      cases h
      exact ⟨k, hr, rfl⟩
    next => cases h
  · cases h

theorem Eval.eq_of_fields {a : Nat} {us : Record Value} {i j : Interpreter}
    (h : fields a i = .ok us j) : us = i.heap.fields a ∧ j = i := by
  unfold fields looking at h
  split at h
  · cases h
  · cases h
    exact ⟨rfl, rfl⟩

theorem Eval.eq_of_copyList {a : Nat} {w : Value} {i j : Interpreter}
    (h : copyList a i = .ok w j) :
    w = .list i.heap.size ∧ j.heap = (i.heap.alloc (.list (i.heap.items a))).2 := by
  unfold copyList looking at h
  split at h
  · cases h
  · cases h
    exact ⟨rfl, rfl⟩

mutual

/-- What a literal evaluates to is a copy, and evaluation changes no cell that there was. -/
theorem copies_of_evaluate : (f : Form) → ∀ {room}, f.Readable room →
    ∀ {fuel v w} {i j : Interpreter}, i.heap.Outlines f v → evaluate fuel v i = .ok w j →
    i.heap.Begins j.heap ∧ j.heap.Copies i.heap.size f v w
  | _, _, _, 0, _, _, _, _, _, h => nomatch h
  | .nil, _, _, _ + 1, _, _, i, _, hv, h | .true, _, _, _ + 1, _, _, i, _, hv, h
  | .int _, _, _, _ + 1, _, _, i, _, hv, h | .double _, _, _, _ + 1, _, _, i, _, hv, h
  | .str _, _, _, _ + 1, _, _, i, _, hv, h => by
    cases hv
    cases h
    exact ⟨.refl i.heap, rfl, rfl⟩
  | .symbol _, _, _, _ + 1, _, _, _, _, hv, _ | .expr _, _, _, _ + 1, _, _, _, _, hv, _ => hv.elim
  | .list _, _, _, _ + 1, _, _, i, j, ⟨a, vs, hv, ha⟩, h => by
    subst hv
    obtain ⟨rfl, hheap⟩ := Eval.eq_of_copyList h
    rw [Heap.items_eq ha] at hheap
    rw [hheap]
    have hbegins := Heap.begins_alloc i.heap (.list vs)
    exact ⟨hbegins, a, _, vs, rfl, rfl, Nat.le_refl _, hbegins.cell ha,
      Heap.getElem?_alloc_self _ _⟩
  | .struct fields, _, hf, fuel + 1, _, w, i, j, ⟨a, us, hv, ha, hus⟩, h => by
    subst hv
    -- The level of nesting is all that changes before the first field is evaluated.
    obtain ⟨k, hk, rfl⟩ := Eval.exists_of_descend h
    obtain ⟨_, _, hfields, hnew⟩ := exists_of_bind hk
    obtain ⟨rfl, rfl⟩ := Eval.eq_of_fields hfields
    rw [Heap.fields_eq ha] at hnew
    have hnodup : (Record.keys ([] : Record Value) ++ Record.keys fields).Nodup := hf.2.1
    have hus' : ({ i with depth := i.depth + 1 } : Interpreter).heap.OutlinesFields fields us := hus
    obtain ⟨hbegins, b, xs, rfl, hn, hb, hxs⟩ :=
      copies_of_newStructOf fields (fun _ _ hmem => hf.field hmem) hnodup hus' hnew
    exact ⟨hbegins, a, b, us, xs, rfl, rfl, hn, hbegins.cell ha, hb, hxs⟩

-- The new struct has the fields that are done, and copies of those that are still to come.
theorem copies_of_newStructOf : (fs : List (String × Form)) → ∀ {room},
    (∀ key f, (key, f) ∈ fs → f.Readable room) →
    ∀ {fuel us w} {done : Record Value} {i j : Interpreter}, (done.keys ++ Record.keys fs).Nodup →
    i.heap.OutlinesFields fs us →
    Engine.newStructOf ⟨fuel, evaluate fuel, apply fuel⟩ us done i = .ok w j →
    i.heap.Begins j.heap ∧ ∃ b xs, w = .struct b ∧ i.heap.size ≤ b ∧
      j.heap.cells[b]? = some (.struct (done ++ xs)) ∧
      j.heap.CopiesFields i.heap.size fs us xs
  | [], _, _, _, _, _, done, i, _, _, hus, h => by
    cases hus
    cases h
    refine ⟨Heap.begins_alloc _ _, _, [], rfl, Nat.le_refl _, ?_, rfl, rfl⟩
    rw [List.append_nil]
    exact Heap.getElem?_alloc_self _ _
  | (key, f) :: fs, _, hfs, fuel, _, w, done, i, j, hnodup, ⟨u, us, heq, hu, hus⟩, h => by
    subst heq
    obtain ⟨x, k, hx, h⟩ := Engine.exists_of_value h
    obtain ⟨hbegins, hcopies⟩ :=
      copies_of_evaluate f (hfs key f List.mem_cons_self) hu hx
    obtain ⟨hsignal, -⟩ | ⟨-, h⟩ := h
    · rw [hcopies.not_signal] at hsignal
      cases hsignal
    -- The key is new, so the field comes after those that are done.
    have hkey : key ∉ done.keys := fun hmem =>
      (List.nodup_append.mp hnodup).2.2 key hmem key List.mem_cons_self rfl
    rw [Record.insert_of_not_mem hkey] at h
    have hnodup' : (Record.keys (done ++ [(key, x)]) ++ Record.keys fs).Nodup := by
      simpa [Record.keys, List.append_assoc] using hnodup
    obtain ⟨hbegins', b, xs, rfl, hn, hb, hxs⟩ :=
      copies_of_newStructOf fs (fun key f hmem => hfs key f (List.mem_cons_of_mem _ hmem)) hnodup'
        (Heap.OutlinesFields.mono hbegins.retains fs hus) h
    rw [List.append_assoc] at hb
    have hsize := hbegins.size_le
    exact ⟨hbegins.trans hbegins', b, (key, x) :: xs, rfl, Nat.le_trans hsize hn, hb, u, us, x, xs,
      rfl, rfl, Heap.Copies.mono hbegins' (Nat.le_refl _) f hcopies,
      Heap.CopiesFields.mono (.refl _) hsize fs hxs⟩

end

/-! ## A copy equals the original -/

theorem Double.same_self {d : Double} (hd : d ≠ .nan) : d.same d = true := by
  cases d with
  | nan => exact absurd rfl hd
  | infinite s => simp [same, compare?]
  | finite s m e => simp [same, compare?]

theorem Value.sameAll_self {cells : Nat → Nat → Bool} {vs : List Value}
    (h : ∀ v ∈ vs, v.same cells v = Bool.true) : sameAll cells vs vs = Bool.true := by
  induction vs with
  | nil => rfl
  | cons v vs ih =>
    obtain ⟨hv, hvs⟩ := List.forall_mem_cons.mp h
    rw [sameAll, hv, ih hvs]
    rfl

namespace Heap

variable {h : Heap} {f : Form} {v : Value} {us xs : Record Value} {n : Nat}

theorem sameCells_self (h : Heap) (budget : Nat) (path : List (Nat × Nat)) (a : Nat) :
    h.sameCells budget path a a = true := by
  cases budget <;> simp [sameCells]

/-- An item of a list equals itself. -/
theorem Depicts.same_self {room : Nat} (hv : h.Depicts f v) (hf : f.Literal room)
    (hnan : f.HasNoNaN) (budget : Nat) (path : List (Nat × Nat)) :
    v.same (h.sameCells budget path) v = true := by
  cases f with
  | nil => rw [show v = .nil from hv, Value.same]
  | int n => simp [show v = .int n from hv, Value.same]
  | str s => simp [show v = .str s from hv, Value.same]
  | double d =>
    have hd : d ≠ .nan := by
      rintro rfl
      exact hnan .self
    rw [show v = .double d from hv, Value.same, Double.same_self hd]
  | list items =>
    obtain ⟨a, -, rfl, -⟩ := hv
    rw [Value.same]
    exact sameCells_self h budget path a
  | true | symbol | expr | struct => exact hf.elim

theorem CopiesFields.length_eq {fs : List (String × Form)} (hxs : h.CopiesFields n fs us xs) :
    xs.length = us.length := by
  induction fs generalizing us xs with
  | nil =>
    obtain ⟨rfl, rfl⟩ := hxs
    rfl
  | cons e fs ih =>
    obtain ⟨u, us, x, xs, rfl, rfl, -, hxs⟩ := hxs
    exact congrArg (· + 1) (ih hxs)

mutual

theorem Copies.same : (f : Form) → ∀ {room}, f.Readable room → f.HasNoNaN →
    ∀ {v w}, h.Copies n f v w → h.Depicts f v →
    ∀ budget path, w.same (h.sameCells budget path) v = true
  | .nil, _, _, _, _, _, ⟨_, hw⟩, hv, _, _ | .true, _, _, _, _, _, ⟨_, hw⟩, hv, _, _
  | .int _, _, _, _, _, _, ⟨_, hw⟩, hv, _, _ | .str _, _, _, _, _, _, ⟨_, hw⟩, hv, _, _ => by
    cases hv
    cases hw
    simp [Value.same]
  | .double d, _, _, hnan, _, _, ⟨_, hw⟩, hv, _, _ => by
    cases hv
    cases hw
    have hd : d ≠ .nan := by
      rintro rfl
      exact hnan .self
    rw [Value.same, Double.same_self hd]
  | .symbol _, _, _, _, _, _, hw, _, _, _ | .expr _, _, _, _, _, _, hw, _, _, _ => hw.elim
  | .list items, _, hf, hnan, _, _, ⟨a, b, vs, hv, hw, _, ha, hb⟩, hdepicts, budget, path => by
    subst hv hw
    obtain ⟨_, heq, hvs⟩ := hdepicts.list_cell (List.mem_singleton_self a) ha
    cases heq
    rw [Value.same]
    -- Without a budget any two cells count as equal.
    cases budget with
    | zero => rfl
    | succ budget =>
      unfold sameCells
      split
      · rfl
      rw [hb, ha]
      refine Value.sameAll_self fun x hx => ?_
      obtain ⟨g, hg, hdepicts, -⟩ := hvs.of_mem hvs hx
      exact hdepicts.same_self (hf.item hg) (fun hmem => hnan (.item hg hmem)) _ _
  | .struct fields, _, hf, hnan, _, _, ⟨a, b, us, xs, hv, hw, _, ha, hb, hxs⟩, hdepicts, budget,
      path => by
    subst hv hw
    obtain ⟨_, heq, hus⟩ := hdepicts.struct_cell (List.mem_singleton_self a) ha
    cases heq
    rw [Value.same]
    cases budget with
    | zero => rfl
    | succ budget =>
      unfold sameCells
      split
      · rfl
      rw [hb, ha]
      have hnodup : us.keys.Nodup := hus.keys_eq ▸ hf.2.1
      have hfields := CopiesFields.same fields (fun _ _ hmem => hf.field hmem)
        (fun _ _ hmem hin => hnan (.field hmem hin)) hxs hus
      simp only [Cell.same, hxs.length_eq, beq_self_eq_true, Bool.true_and, List.all_eq_true]
      rintro ⟨key, x⟩ hx
      obtain ⟨u, hu, hsame⟩ := hfields key x hx
      rw [Record.get?_of_mem hnodup hu]
      exact hsame _ _

theorem CopiesFields.same : (fs : List (String × Form)) → ∀ {room},
    (∀ key f, (key, f) ∈ fs → f.Readable room) → (∀ key f, (key, f) ∈ fs → f.HasNoNaN) →
    ∀ {us xs}, h.CopiesFields n fs us xs → h.DepictsFields fs us →
    ∀ key x, (key, x) ∈ xs →
      ∃ u, (key, u) ∈ us ∧ ∀ budget path, x.same (h.sameCells budget path) u = true
  | [], _, _, _, _, _, ⟨_, hxs⟩, _, _, _, hx => by
    rw [hxs] at hx
    cases hx
  | (name, f) :: fs, _, hfs, hnan, _, _, ⟨u, us, y, xs, hus, hxs, hy, hrest⟩, hdepicts, key, x,
      hx => by
    subst hus hxs
    obtain ⟨_, _, heq, hu, hdepicts⟩ := hdepicts
    cases heq
    rcases List.mem_cons.mp hx with heq | hx
    · cases heq
      exact ⟨u, List.mem_cons_self, Copies.same f (hfs name f List.mem_cons_self)
        (hnan name f List.mem_cons_self) hy hu⟩
    · obtain ⟨u, hu, hsame⟩ := CopiesFields.same fs
        (fun key f hmem => hfs key f (List.mem_cons_of_mem _ hmem))
        (fun key f hmem => hnan key f (List.mem_cons_of_mem _ hmem)) hrest hdepicts key x hx
      exact ⟨u, List.mem_cons_of_mem _ hu, hsame⟩

end

/-! ## Where the cells of a copy come from -/

variable {w : Value} {g : Form} {c : Cell} {a b t room : Nat}

def Listed (h : Heap) (v : Value) (a : Nat) : Prop :=
  ∃ b vs, h.Mentions v b ∧ h.cells[b]? = some (.list vs) ∧ .list a ∈ vs

/-- A cell of the copy `w` of `v` is a new one, or it is a cell of `v` too and an item of a list. -/
inductive Origin (h : Heap) (n : Nat) (f : Form) (v w : Value) (t : Nat) : Prop
  | copied {g : Form} {u x : Value} : g.Within f → (∀ a ∈ u.cells, h.Mentions v a) →
      h.Depicts g u → h.Copies n g u x → t ∈ x.cells → Origin h n f v w t
  | shared {items : List Form} {g : Form} : (Form.list items).Within f → g ∈ items →
      h.Depicts g (.list t) → h.Mentions v t → h.Listed w t → Origin h n f v w t

/-- Only the lists among the items of a list have cells. -/
theorem Depicts.eq_list (hv : h.Depicts f v) (hf : f.Literal room) (ha : a ∈ v.cells) :
    ∃ items, f = .list items ∧ v = .list a := by
  cases f with
  | nil | int | double | str =>
    rw [show v = _ from hv] at ha
    cases ha
  | list items =>
    obtain ⟨b, -, rfl, -⟩ := hv
    obtain rfl : a = b := List.mem_singleton.mp ha
    exact ⟨items, rfl, rfl⟩
  | true | symbol | expr | struct => exact hf.elim

theorem Copies.le (hw : h.Copies n f v w) (ha : a ∈ w.cells) : n ≤ a := by
  cases f with
  | nil | true | int | double | str =>
    obtain ⟨hv, rfl⟩ := hw
    rw [show w = _ from hv] at ha
    cases ha
  | symbol | expr => exact hw.elim
  | list =>
    obtain ⟨_, b, _, _, rfl, hn, _⟩ := hw
    obtain rfl : a = b := List.mem_singleton.mp ha
    exact hn
  | struct =>
    obtain ⟨_, b, _, _, _, rfl, hn, _⟩ := hw
    obtain rfl : a = b := List.mem_singleton.mp ha
    exact hn

-- What is in a list is shared, from whichever of the two values the list is.
theorem origin_item {items : List Form} {vs : List Value} (hf : f.Readable room)
    (hlist : (Form.list items).Within f) (hvs : h.DepictsAll items vs)
    (hv : h.Mentions v a) (ha : h.cells[a]? = some (.list vs))
    (hw : h.Mentions w b) (hb : h.cells[b]? = some (.list vs))
    (ht : t ∈ (Cell.list vs).cells) : h.Origin n f v w t := by
  obtain ⟨x, hx, htx⟩ := List.mem_flatMap.mp ht
  obtain ⟨e, he, hdepicts, -⟩ := hvs.of_mem hvs hx
  obtain ⟨_, hitems⟩ := hf.within hlist
  obtain ⟨inner, rfl, rfl⟩ := hdepicts.eq_list (hitems.item he) htx
  exact .shared hlist he hdepicts (hv.enter ha ht) ⟨b, vs, hw, hb, hx⟩

theorem Origin.enter (hf : f.Readable room) (ha : h.Origin n f v w a) (hw : h.Mentions w a)
    (hc : h.cells[a]? = some c) (hb : b ∈ c.cells) : h.Origin n f v w b := by
  cases ha with
  | @copied g u x hg hu hdepicts hx hmem =>
    cases g with
    | nil | true | int | double | str =>
      obtain ⟨hatom, rfl⟩ := hx
      rw [show x = _ from hatom] at hmem
      cases hmem
    | symbol | expr => exact hx.elim
    | list items =>
      -- Both lists have the same items, so here begins what is shared.
      obtain ⟨d, d', vs, rfl, rfl, -, hd, hd'⟩ := hx
      obtain rfl : a = d' := List.mem_singleton.mp hmem
      cases hc.symm.trans hd'
      have hself : d ∈ (Value.list d).cells := List.mem_singleton_self d
      obtain ⟨_, heq, hvs⟩ := hdepicts.list_cell hself hd
      cases heq
      exact origin_item hf hg hvs (hu d hself) hd hw hc hb
    | struct fields =>
      obtain ⟨d, d', us, xs, rfl, rfl, -, hd, hd', hxs⟩ := hx
      obtain rfl : a = d' := List.mem_singleton.mp hmem
      cases hc.symm.trans hd'
      have hself : d ∈ (Value.struct d).cells := List.mem_singleton_self d
      obtain ⟨_, heq, hus⟩ := hdepicts.struct_cell hself hd
      cases heq
      obtain ⟨⟨key, y⟩, hy, hby⟩ := List.mem_flatMap.mp hb
      obtain ⟨e, z, he, hz, hdepicts, hcopies⟩ := hxs.of_mem hus hy
      refine .copied ((Form.Within.field he .self).trans hg) ?_ hdepicts hcopies hby
      exact fun t ht => (hu d hself).enter hd (mem_cells_field hz ht)
  | @shared items g hlist hg hdepicts hv hlisted =>
    obtain ⟨_, hitems⟩ := hf.within hlist
    have hself : a ∈ (Value.list a).cells := List.mem_singleton_self a
    obtain ⟨inner, rfl, -⟩ := hdepicts.eq_list (hitems.item hg) hself
    obtain ⟨vs, rfl, hvs⟩ := hdepicts.list_cell hself hc
    have hinner : (Form.list inner).Within f := (Form.Within.item hg .self).trans hlist
    exact origin_item hf hinner hvs hv hc hw hc hb

/-- Every cell of a copy is new, or shared and an item of a list. -/
theorem Copies.origin (hf : f.Readable room) (hv : h.Depicts f v) (hw : h.Copies n f v w)
    (ht : h.Mentions w t) : h.Origin n f v w t := by
  obtain ⟨a, ha, hl⟩ := ht
  have hmentions : h.Mentions w a := .self ha
  have horigin : h.Origin n f v w a := .copied .self (fun _ => .self) hv hw ha
  clear ha
  induction hl with
  | here t => exact horigin
  | into hc hb _ ih => exact ih (hmentions.enter hc hb) (horigin.enter hf hmentions hc hb)

/-- A list in a list is shared. -/
theorem Copies.share_item {items inner : List Form} (hv : h.Depicts (.list items) v)
    (hw : h.Copies n (.list items) v w) (hmem : .list inner ∈ items) :
    ∃ t, h.Mentions v t ∧ h.Mentions w t ∧ h.Depicts (.list inner) (.list t) := by
  obtain ⟨a, b, vs, rfl, rfl, -, ha, hb⟩ := hw
  obtain ⟨_, heq, hvs⟩ := hv.list_cell (List.mem_singleton_self a) ha
  cases heq
  obtain ⟨x, hx, hdepicts⟩ := hvs.exists_of_mem hmem
  obtain ⟨t, _, rfl, _⟩ := id hdepicts
  have ht : t ∈ (Cell.list vs).cells := mem_cells_item hx (List.mem_singleton_self t)
  exact ⟨t, .enter (.self (List.mem_singleton_self a)) ha ht,
    .enter (.self (List.mem_singleton_self b)) hb ht, hdepicts⟩

theorem Copies.share {items inner : List Form} (hf : f.Readable room) (hv : h.Depicts f v)
    (hw : h.Copies n f v w) (hlist : (Form.list items).Within f) (hmem : .list inner ∈ items) :
    ∃ t inner, h.Mentions v t ∧ h.Mentions w t ∧ inner ≠ [] ∧
      h.Depicts (.list inner) (.list t) := by
  induction hlist generalizing v w room with
  | self =>
    obtain ⟨t, hvt, hwt, ht⟩ := hw.share_item hv hmem
    exact ⟨t, inner, hvt, hwt, (hf.item hmem).2.1, ht⟩
  | @item e others he hlist _ =>
    -- The outermost list in a list is the one that is shared.
    obtain ⟨outer, rfl⟩ := (hf.item he).eq_list hlist
    obtain ⟨t, hvt, hwt, ht⟩ := hw.share_item hv he
    exact ⟨t, outer, hvt, hwt, (hf.item he).2.1, ht⟩
  | part => exact hw.elim
  | @field key e fields he _ ih =>
    obtain ⟨a, b, us, xs, rfl, rfl, -, ha, hb, hxs⟩ := hw
    obtain ⟨_, heq, hus⟩ := hv.struct_cell (List.mem_singleton_self a) ha
    cases heq
    obtain ⟨u, x, hu, hx, hdepicts, hcopies⟩ := hxs.exists_of_mem hus he
    obtain ⟨t, inner, ⟨d, hd, hvt⟩, ⟨d', hd', hwt⟩, ht⟩ := ih (hf.field he) hdepicts hcopies
    exact ⟨t, inner, ⟨a, List.mem_singleton_self a, .into ha (mem_cells_field hu hd) hvt⟩,
      ⟨b, List.mem_singleton_self b, .into hb (mem_cells_field hx hd') hwt⟩, ht⟩

/-! ## New cells and shared ones -/

/-- The cell is a struct of the value, or a list of it that is no item of a list. -/
def Owns (h : Heap) (v : Value) (a : Nat) : Prop :=
  h.Mentions v a ∧ ((∃ us, h.cells[a]? = some (.struct us)) ∨ ¬ h.Listed v a)

theorem Copies.le_of_owns (hf : f.Readable room) (hv : h.Depicts f v) (hw : h.Copies n f v w)
    (ha : h.Owns w a) : n ≤ a := by
  obtain ⟨hmentions, hkind⟩ := ha
  cases hw.origin hf hv hmentions with
  | copied _ _ _ hx hmem => exact hx.le hmem
  | shared hlist hg hdepicts _ hlisted =>
    rcases hkind with ⟨us, hus⟩ | hnot
    · obtain ⟨_, hitems⟩ := hf.within hlist
      have hself : a ∈ (Value.list a).cells := List.mem_singleton_self a
      obtain ⟨inner, rfl, -⟩ := hdepicts.eq_list (hitems.item hg) hself
      obtain ⟨_, heq, -⟩ := hdepicts.list_cell hself hus
      cases heq
    · exact absurd hlisted hnot

/-- The cells of a copy are new, or they are cells of the original. -/
theorem Copies.le_or_mentions (hf : f.Readable room) (hv : h.Depicts f v)
    (hw : h.Copies n f v w) (ha : h.Mentions w a) : n ≤ a ∨ h.Mentions v a := by
  cases hw.origin hf hv ha with
  | copied _ _ _ hx hmem => exact .inl (hx.le hmem)
  | shared _ _ _ hmentions _ => exact .inr hmentions

/-- A copy in new cells shares some of its cells with the original exactly if a list of the original
has a list among its items. -/
theorem Copies.share_iff (hf : f.Readable room) (hv : h.Depicts f v) (hw : h.Copies n f v w)
    (hold : ∀ t, h.Mentions v t → t < n) :
    (∃ t, h.Mentions w t ∧ h.Mentions v t) ↔ f.HasNestedList := by
  constructor
  · rintro ⟨t, hwt, hvt⟩
    cases hw.origin hf hv hwt with
    | copied _ _ _ hx hmem => exact absurd (hold t hvt) (Nat.not_lt.mpr (hx.le hmem))
    | @shared items g hlist hg hdepicts _ _ =>
      obtain ⟨_, hitems⟩ := hf.within hlist
      obtain ⟨inner, rfl, -⟩ := hdepicts.eq_list (hitems.item hg) (List.mem_singleton_self t)
      exact ⟨items, inner, hlist, hg⟩
  · rintro ⟨items, inner, hlist, hmem⟩
    obtain ⟨t, -, hvt, hwt, -⟩ := hw.share hf hv hlist hmem
    exact ⟨t, hwt, hvt⟩

theorem Depicts.eq_nil (h : h.Depicts f .nil) : f = .nil := by
  cases f with
  | nil => rfl
  | true | int | double | str | symbol => cases h
  | list | struct => obtain ⟨_, _, heq, _⟩ := h; cases heq
  | expr => obtain ⟨_, heq, _⟩ := h; cases heq

theorem Depicts.eq_true (h : h.Depicts f .true) : f = .true := by
  cases f with
  | true => rfl
  | nil | int | double | str | symbol => cases h
  | list | struct => obtain ⟨_, _, heq, _⟩ := h; cases heq
  | expr => obtain ⟨_, heq, _⟩ := h; cases heq

/-- For every value there is one that stands for another form, in whatever heap. -/
theorem exists_depicting_other (x : Value) :
    ∃ y : Value, ∀ (h k : Heap) (g : Form), ¬ (h.Depicts g x ∧ k.Depicts g y) := by
  by_cases hx : x = .nil
  · refine ⟨.true, fun h k g hg => ?_⟩
    obtain rfl := hg.2.eq_true
    cases hx.symm.trans hg.1
  · refine ⟨.nil, fun h k g hg => ?_⟩
    obtain rfl := hg.2.eq_nil
    exact hx hg.1

end Heap

namespace Interpreter

open Heap

variable {f : Form} {v w : Value} {fuel room : Nat} {i j : Interpreter}

/-- If the result of a literal shares a list with it, another first item for this list makes the
literal evaluate to something else. -/
theorem evaluates_otherwise (hf : f.Readable room) (hplain : f.Plain)
    (hv : j.heap.Depicts f v) {a : Nat} {items : List Form} (ha : j.heap.Mentions v a)
    (hne : items ≠ []) (hdepicts : j.heap.Depicts (.list items) (.list a)) :
    ∃ x xs y, j.heap.cells[a]? = some (.list (x :: xs)) ∧
      ∀ fuel w (k l : Interpreter), k.heap = j.heap.write a (.list (y :: xs)) →
        evaluate fuel v k = .ok w l → ¬ l.heap.Depicts f w := by
  obtain ⟨_, vs, heq, hcell, hvs⟩ := hdepicts
  cases heq
  obtain ⟨g, items, rfl⟩ := List.exists_cons_of_ne_nil hne
  obtain ⟨x, xs, rfl, -⟩ := hvs
  obtain ⟨y, hother⟩ := exists_depicting_other x
  refine ⟨x, xs, y, hcell, fun fuel w k l hk h hw => ?_⟩
  have houtlines : k.heap.Outlines f v :=
    hk ▸ Outlines.mono (retains_write hcell _) f (Depicts.outlines f hplain hv)
  obtain ⟨hbegins, hcopies⟩ := copies_of_evaluate f hf houtlines h
  have hnew : l.heap.cells[a]? = some (.list (y :: xs)) := by
    refine hbegins.cell ?_
    rw [hk, getElem?_write hcell, if_pos rfl]
  have hrest : ∀ b c, b ≠ a → j.heap.cells[b]? = some c → l.heap.cells[b]? = some c := by
    intro b c hb hc
    refine hbegins.cell ?_
    rw [hk, getElem?_write hcell, if_neg (Ne.symm hb)]
    exact hc
  obtain ⟨g, hg⟩ := hv.first_item ((Copies.depicts_iff f hcopies).mpr hw) hplain ha hcell hnew hrest
  exact hother _ _ g hg

end Interpreter

/-- What a literal without symbols and expressions evaluates to, in whatever state, is equal to it.
Its structs, and its lists but for those that are items of lists, are in new cells: neither the
literal nor any value there was before comes to them, nor does what the same program text evaluates
to later. Other cells are shared with the literal, and there are such cells exactly if some list of
the literal has a list among its items. Then the result can be written so that the program text
evaluates to something else from then on; otherwise nothing that is written into the result changes
the program text. -/
theorem literals_evaluate_to_copies {f : Form} (hf : f.Returned) (hplain : f.Plain) :
    (∀ h : Heap, (h.load f).2.Depicts f (h.load f).1) ∧
    ∀ {fuel : Nat} {v w : Value} {i j : Interpreter}, i.heap.Depicts f v →
      evaluate fuel v i = .ok w j →
      (i.heap.Begins j.heap ∧ j.heap.Depicts f w ∧ j.heap.same w v = true) ∧
      (∀ a, j.heap.Owns w a → i.heap.size ≤ a ∧ a < j.heap.size ∧ ¬ j.heap.Mentions v a ∧
        (∀ u, i.heap.Closed u → ¬ j.heap.Mentions u a) ∧
        ∀ {fuel' : Nat} {w' : Value} {k l : Interpreter}, j.heap.size ≤ k.heap.size →
          i.heap.Keeps k.heap v → evaluate fuel' v k = .ok w' l → ¬ l.heap.Mentions w' a) ∧
      ((∃ a, j.heap.Mentions w a ∧ j.heap.Mentions v a) ↔ f.HasNestedList) ∧
      (f.HasNestedList → ∃ a x xs y, j.heap.Mentions w a ∧
        j.heap.cells[a]? = some (.list (x :: xs)) ∧
        ∀ fuel' w' (k l : Interpreter), k.heap = j.heap.write a (.list (y :: xs)) →
          evaluate fuel' v k = .ok w' l → ¬ l.heap.Depicts f w') ∧
      (¬ f.HasNestedList → ∀ a c, j.heap.Mentions w a → (j.heap.write a c).Depicts f v) := by
  have hread := hf.readable
  refine ⟨Heap.depicts_load f hread, fun {fuel v w i j} hv h => ?_⟩
  obtain ⟨hbegins, hcopies⟩ := copies_of_evaluate f hread (hv.outlines f hplain) h
  have hv' : j.heap.Depicts f v := hv.keep f (hbegins.keeps v)
  have hw : j.heap.Depicts f w := (hcopies.depicts_iff f).mp hv'
  -- No value comes to cells that were created after the value was.
  have hold : ∀ u, i.heap.Closed u → ∀ t, j.heap.Mentions u t → t < i.heap.size :=
    fun u hu t ht => hu t (hu.mentions (hbegins.keeps u) ht)
  have hclosed : i.heap.Closed v := hv.closed hplain
  have hshare := hcopies.share_iff hread hv' (hold v hclosed)
  refine ⟨⟨hbegins, hw, hcopies.same f hread hf.hasNoNaN hv' _ _⟩, ?_, hshare, ?_, ?_⟩
  · intro a ha
    have hnew := hcopies.le_of_owns hread hv' ha
    have hsize : a < j.heap.size := hw.closed hplain a ha.1
    have hunknown : ∀ u, i.heap.Closed u → ¬ j.heap.Mentions u a := fun u hu hua =>
      absurd (hold u hu a hua) (Nat.not_lt.mpr hnew)
    refine ⟨hnew, hsize, hunknown v hclosed, hunknown, ?_⟩
    intro fuel' w' k l hjk hkeeps h' hmentions
    have hvk : k.heap.Depicts f v := hv.keep f hkeeps
    obtain ⟨hbegins', hcopies'⟩ := copies_of_evaluate f hread (hvk.outlines f hplain) h'
    have hkeeps' : i.heap.Keeps l.heap v := fun b c hb hc => hbegins'.cell (hkeeps b c hb hc)
    -- A cell of the later result is newer than the earlier result, or older than both of them.
    rcases hcopies'.le_or_mentions hread (hv.keep f hkeeps') hmentions with hle | hva
    · omega
    · have hlt := hclosed a (hclosed.mentions hkeeps' hva)
      omega
  · rintro ⟨items, inner, hlist, hmem⟩
    obtain ⟨a, inner, hva, hwa, hne, hdepicts⟩ := hcopies.share hread hv' hlist hmem
    obtain ⟨x, xs, y, hcell, hotherwise⟩ :=
      Interpreter.evaluates_otherwise hread hplain hv' hva hne hdepicts
    exact ⟨a, x, xs, y, hwa, hcell, hotherwise⟩
  · intro hnot a c ha
    have hcell := Array.getElem?_eq_getElem (hw.closed hplain a ha)
    exact hv'.keep f (Heap.keeps_write hcell (fun hva => hnot (hshare.mp ⟨a, ha, hva⟩)) c)

/-- The struct and the outer list are copied, the inner list is shared. -/
theorem literals_evaluate_to_copies_nested :
    let f : Form := .struct [("a", .list [.list [.int 1], .int 2])]
    let heap : Heap := (({} : Heap).load f).2
    let i : Interpreter := { heap, maxDepth := 1 }
    let j : Interpreter := { i with heap := ⟨heap.cells ++ #[.list [.list 0, .int 2],
      .struct [("a", .list 3)]]⟩ }
    read "\x7ba: '((1) 2)\x7d" = .ok [f] ∧ evaluate 2 (.struct 2) i = .ok (.struct 4) j ∧
      j.heap.same (.struct 4) (.struct 2) = true ∧
      ∃ a, j.heap.Mentions (.struct 4) a ∧ j.heap.Mentions (.struct 2) a := by
  intro f heap i j
  have hread : read "\x7ba: '((1) 2)\x7d" = .ok [f] := by cbv
  have hreturned : f.Returned := .inl ⟨_, _, hread, List.mem_singleton_self f⟩
  have hparts : ∀ g : Form, g.Within (.struct [("a", .list [.list [.int 1], .int 2])]) →
      (∃ n, g = .int n) ∨ (∃ items, g = .list items) ∨ ∃ fields, g = .struct fields := by
    rintro g (_ | _ | _ | ⟨hfield, hg⟩)
    · exact .inr (.inr ⟨_, rfl⟩)
    cases List.mem_singleton.mp hfield
    obtain _ | ⟨hitem, hg⟩ := hg
    · exact .inr (.inl ⟨_, rfl⟩)
    rcases List.mem_pair.mp hitem with rfl | rfl
    · obtain _ | ⟨hitem, hg⟩ := hg
      · exact .inr (.inl ⟨_, rfl⟩)
      cases List.mem_singleton.mp hitem
      cases hg
      exact .inl ⟨1, rfl⟩
    · cases hg
      exact .inl ⟨2, rfl⟩
  have hplain : f.Plain := by
    constructor
    · intro path h
      obtain ⟨_, heq⟩ | ⟨_, heq⟩ | ⟨_, heq⟩ := hparts _ h <;> cases heq
    · intro items h
      obtain ⟨_, heq⟩ | ⟨_, heq⟩ | ⟨_, heq⟩ := hparts _ h <;> cases heq
  have heval : evaluate 2 (.struct 2) i = .ok (.struct 4) j := by cbv
  obtain ⟨hload, hcopies⟩ := literals_evaluate_to_copies hreturned hplain
  have hdepicts : i.heap.Depicts f (.struct 2) := hload {}
  obtain ⟨⟨-, -, hsame⟩, -, hshare, -⟩ := hcopies hdepicts heval
  have hnested : f.HasNestedList :=
    ⟨_, _, .field List.mem_cons_self .self, List.mem_cons_self⟩
  exact ⟨hread, heval, hsame, hshare.mpr hnested⟩

end Lisplet
