import Lisplet.Proofs.Readable
import Lisplet.Value.Text

/-!
# The text of what was loaded

The lists and structs of a form that was read get cells of their own, and the value made of the form
has the same canonical text as the form. A cell is created after the cells it mentions, so the walk
behind the text comes only to smaller addresses: it never meets a cell again, and its budget lasts.
-/

namespace Lisplet

def Form.itemText : Form → String
  | .list items => "(" ++ " ".intercalate (itemTexts items) ++ ")"
  | f => f.text

theorem Form.itemTexts_cons (f : Form) (fs : List Form) :
    itemTexts (f :: fs) = f.itemText :: itemTexts fs := by
  cases f <;> rfl

namespace Heap

/-! ## Loading adds cells -/

/-- The cells of a heap are the first cells of another. -/
def Begins (h k : Heap) : Prop :=
  h.cells.toList <+: k.cells.toList

theorem Begins.refl (h : Heap) : h.Begins h :=
  List.prefix_rfl

theorem Begins.trans {h k l : Heap} (hk : h.Begins k) (hl : k.Begins l) : h.Begins l :=
  List.IsPrefix.trans hk hl

theorem Begins.size_le {h k : Heap} (hk : h.Begins k) : h.size ≤ k.size := by
  have hlen := List.IsPrefix.length_le hk
  rwa [Array.length_toList, Array.length_toList] at hlen

theorem begins_alloc (h : Heap) (c : Cell) : h.Begins (h.alloc c).2 := by
  show h.cells.toList <+: (h.cells.push c).toList
  rw [Array.toList_push]
  exact List.prefix_append _ _

theorem size_alloc (h : Heap) (c : Cell) : (h.alloc c).2.size = h.size + 1 :=
  Array.size_push c

theorem begins_newList (h : Heap) (items : List Value) : h.Begins (h.newList items).2 := by
  unfold newList
  split
  · exact .refl h
  · exact begins_alloc h _

mutual

theorem begins_load : (f : Form) → ∀ h : Heap, h.Begins (h.load f).2
  | .nil, h | .true, h | .int _, h | .double _, h | .str _, h | .symbol _, h => .refl h
  | .list items, h => (begins_loadAll items h).trans (begins_newList _ _)
  | .expr items, h => begins_loadAll items h
  | .struct fields, h => (begins_loadFields fields h).trans (begins_alloc _ _)

theorem begins_loadAll : (fs : List Form) → ∀ h : Heap, h.Begins (h.loadAll fs).2
  | [], h => .refl h
  | f :: fs, h => (begins_load f h).trans (begins_loadAll fs _)

theorem begins_loadFields : (fs : List (String × Form)) → ∀ h : Heap, h.Begins (h.loadFields fs).2
  | [], h => .refl h
  | (_, f) :: fs, h => (begins_load f h).trans (begins_loadFields fs _)

end

/-! ## The walk through cells that were added -/

/-- A walk through `k` that has met no cell of `h` yet, and has the budget for all of them. -/
structure Overlooks (k : Heap) (budget : Nat) (path : List Nat) (h : Heap) : Prop where
  begins : h.Begins k
  budget : h.size ≤ budget
  path : ∀ p ∈ path, h.size ≤ p

variable {h k l : Heap} {budget : Nat} {path : List Nat}

theorem Overlooks.mono (hl : l.Overlooks budget path k) (hk : h.Begins k) :
    l.Overlooks budget path h :=
  ⟨hk.trans hl.begins, Nat.le_trans hk.size_le hl.budget,
    fun p hp => Nat.le_trans hk.size_le (hl.path p hp)⟩

theorem Overlooks.cell {c : Cell} (hk : k.Overlooks budget path (h.alloc c).2) :
    k.cells[h.size]? = some c := by
  obtain ⟨rest, hrest⟩ := hk.begins
  have hcells : k.cells.toList = h.cells.toList ++ c :: rest := by
    rw [← hrest, show (h.alloc c).2.cells.toList = h.cells.toList ++ [c] from Array.toList_push,
      List.append_assoc, List.singleton_append]
  rw [← Array.getElem?_toList, hcells]
  simp [size]

/-- The walk enters the cell that was added last, and then has those before it to go through. -/
theorem Overlooks.enter {c : Cell} (hk : k.Overlooks budget path (h.alloc c).2) :
    ∃ rest, k.Overlooks rest (h.size :: path) h ∧
      k.inside budget path h.size = c.render (k.inside rest (h.size :: path)) := by
  have hsize := size_alloc h c
  have hbudget := hk.budget
  have hpath := hk.path
  obtain ⟨rest, rfl⟩ : ∃ rest, budget = rest + 1 := ⟨budget - 1, by omega⟩
  refine ⟨rest, ⟨(begins_alloc h c).trans hk.begins, by omega, ?_⟩, ?_⟩
  · intro p hp
    rcases List.mem_cons.mp hp with rfl | hp
    · exact Nat.le_refl _
    · have := hpath p hp
      omega
  · have hnew : h.size ∉ path := by
      intro hmem
      have := hpath _ hmem
      omega
    have hcontains : path.contains h.size = false := by simpa using hnew
    rw [inside, hcontains, hk.cell]
    rfl

/-! ## Showing what was loaded -/

theorem loadAll_ne_nil {fs : List Form} (hne : fs ≠ []) : (h.loadAll fs).1 ≠ [] := by
  cases fs with
  | nil => exact absurd rfl hne
  | cons f fs => exact List.cons_ne_nil _ _

theorem newList_of_ne_nil {items : List Value} (hne : items ≠ []) :
    h.newList items = (.list h.size, (h.alloc (.list items)).2) := by
  rw [newList, if_neg (by simpa using hne)]
  rfl

/-- What stands between the brackets of a list that has just been created. -/
theorem Overlooks.inside_newList {items : List Value} (hne : items ≠ [])
    (hk : k.Overlooks budget path (h.newList items).2) :
    ∃ rest path', k.Overlooks rest path' h ∧ (h.newList items).1 = .list h.size ∧
      k.inside budget path h.size =
        " ".intercalate (items.map (Value.renderItem (k.inside rest path'))) := by
  rw [newList_of_ne_nil hne] at hk ⊢
  obtain ⟨rest, hrest, hinside⟩ := hk.enter
  exact ⟨rest, _, hrest, rfl, hinside⟩

-- By induction on the form. The walk is any one that has the cells of the form before it, since on
-- the way down it has entered the cells around them.
mutual

theorem renderItem_load {room : Nat} : (f : Form) → f.Literal room →
    ∀ {h : Heap} {budget : Nat} {path : List Nat}, k.Overlooks budget path (h.load f).2 →
    (h.load f).1.renderItem (k.inside budget path) = f.itemText
  | .nil, _, _, _, _, _ | .int _, _, _, _, _, _ | .double _, _, _, _, _, _
  | .str _, _, _, _, _, _ => rfl
  | .list items, hf, h, budget, path, hk => by
    obtain ⟨-, hne, hitems⟩ := hf
    obtain ⟨rest, path', hrest, hlist, hinside⟩ := hk.inside_newList (loadAll_ne_nil hne)
    have hload : (h.load (.list items)).1 = .list (h.loadAll items).2.size := hlist
    rw [hload, Value.renderItem, hinside, renderItems_loadAll items hitems hrest]
    rfl

theorem renderItems_loadAll {room : Nat} : (fs : List Form) → Form.LiteralAll room fs →
    ∀ {h : Heap} {budget : Nat} {path : List Nat}, k.Overlooks budget path (h.loadAll fs).2 →
    (h.loadAll fs).1.map (Value.renderItem (k.inside budget path)) = Form.itemTexts fs
  | [], _, _, _, _, _ => rfl
  | f :: fs, hfs, h, budget, path, hk => by
    rw [Form.itemTexts_cons, ← renderItem_load f hfs.1 (hk.mono (begins_loadAll fs _)),
      ← renderItems_loadAll fs hfs.2 hk]
    rfl

end

mutual

theorem render_load {room : Nat} : (f : Form) → f.Readable room →
    ∀ {h : Heap} {budget : Nat} {path : List Nat}, k.Overlooks budget path (h.load f).2 →
    (h.load f).1.render (k.inside budget path) = f.text
  | .nil, _, _, _, _, _ | .true, _, _, _, _, _ | .int _, _, _, _, _, _ | .double _, _, _, _, _, _
  | .str _, _, _, _, _, _ | .symbol _, _, _, _, _, _ => rfl
  | .list items, hf, h, budget, path, hk => by
    obtain ⟨-, hne, hitems⟩ := hf
    obtain ⟨rest, path', hrest, hlist, hinside⟩ := hk.inside_newList (loadAll_ne_nil hne)
    have hload : (h.load (.list items)).1 = .list (h.loadAll items).2.size := hlist
    rw [hload]
    show "'(" ++ k.inside budget path _ ++ ")" = _
    rw [hinside, renderItems_loadAll items hitems hrest]
    rfl
  | .expr items, hf, h, budget, path, hk => by
    show "(" ++ " ".intercalate (Value.renderAll _ (h.loadAll items).1) ++ ")" = _
    rw [renderAll_loadAll items hf.2.2 hk]
    rfl
  | .struct fields, hf, h, budget, path, hk => by
    obtain ⟨rest, hrest, hinside⟩ := Overlooks.enter hk
    show "\x7b" ++ k.inside budget path (h.loadFields fields).2.size ++ "\x7d" = _
    rw [hinside, Cell.render, renderFields_loadFields fields hf.2.2 hrest]
    rfl

theorem renderAll_loadAll {room : Nat} : (fs : List Form) → Form.ReadableAll room fs →
    ∀ {h : Heap} {budget : Nat} {path : List Nat}, k.Overlooks budget path (h.loadAll fs).2 →
    Value.renderAll (k.inside budget path) (h.loadAll fs).1 = Form.texts fs
  | [], _, _, _, _, _ => rfl
  | f :: fs, hfs, h, budget, path, hk => by
    rw [Form.texts, ← render_load f hfs.1 (hk.mono (begins_loadAll fs _)),
      ← renderAll_loadAll fs hfs.2 hk]
    rfl

theorem renderFields_loadFields {room : Nat} : (fs : List (String × Form)) →
    Form.ReadableFields room fs →
    ∀ {h : Heap} {budget : Nat} {path : List Nat}, k.Overlooks budget path (h.loadFields fs).2 →
    (h.loadFields fs).1.map (fun (key, v) => key ++ ": " ++ v.render (k.inside budget path)) =
      Form.fieldTexts fs
  | [], _, _, _, _, _ => rfl
  | (key, f) :: fs, hfs, h, budget, path, hk => by
    rw [Form.fieldTexts, ← render_load f hfs.1.2 (hk.mono (begins_loadFields fs _)),
      ← renderFields_loadFields fs hfs.2 hk]
    rfl

end

/-- The value of a form has the canonical text of the form. -/
theorem text_load {f : Form} {room : Nat} (hf : f.Readable room) (h : Heap) :
    (h.load f).2.text (h.load f).1 = f.text :=
  render_load f hf ⟨.refl _, Nat.le_succ _, nofun⟩

end Heap

end Lisplet
