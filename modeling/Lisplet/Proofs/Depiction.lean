import Lisplet.Proofs.Construction
import Lisplet.Proofs.Showing

/-!
# Values that stand for forms

Program text is kept as values, with the lists and structs of a form in cells. A value depicts a
form if it has the shape of the form all the way down; what is loaded depicts what was read. The
cells of such a value are the only ones that matter to it, and each of them stands for a part of the
form.
-/

namespace Lisplet

/-! ## Parts of a form -/

namespace Form

structure Plain (f : Form) : Prop where
  symbol (path : String) : ¬ (Form.symbol path).Within f
  expr (items : List Form) : ¬ (Form.expr items).Within f

def HasNestedList (f : Form) : Prop :=
  ∃ items inner, (Form.list items).Within f ∧ .list inner ∈ items

variable {e f g : Form} {room : Nat}

theorem Within.trans (hg : g.Within f) (hf : f.Within e) : g.Within e := by
  induction hf with
  | self => exact hg
  | item hmem _ ih => exact .item hmem ih
  | part hmem _ ih => exact .part hmem ih
  | field hmem _ ih => exact .field hmem ih

theorem Plain.within (hf : f.Plain) (hg : g.Within f) : g.Plain :=
  ⟨fun path h => hf.symbol path (h.trans hg), fun items h => hf.expr items (h.trans hg)⟩

theorem Plain.field {key : String} {fields : List (String × Form)}
    (hf : (Form.struct fields).Plain) (hmem : (key, g) ∈ fields) : g.Plain :=
  hf.within (.field hmem .self)

theorem Readable.item {items : List Form} (hf : (Form.list items).Readable room)
    (hmem : g ∈ items) : g.Literal (room - 1) :=
  literalAll_iff.mp hf.2.2 g hmem

theorem Readable.field {key : String} {fields : List (String × Form)}
    (hf : (Form.struct fields).Readable room) (hmem : (key, g) ∈ fields) : g.Readable (room - 1) :=
  (readableFields_iff.mp hf.2.2 (key, g) hmem).2

theorem Readable.within (hf : f.Readable room) (hg : g.Within f) : ∃ room, g.Readable room := by
  induction hg generalizing room with
  | self => exact ⟨room, hf⟩
  | item hmem _ ih => exact ih (hf.item hmem).readable
  | part hmem _ ih => exact ih (readableAll_iff.mp hf.2.2 _ hmem)
  | field hmem _ ih => exact ih (hf.field hmem)

/-- A literal that has a list in it is a list. -/
theorem Literal.eq_list {items : List Form} (hf : f.Literal room)
    (h : (Form.list items).Within f) : ∃ inner, f = .list inner := by
  cases f with
  | list inner => exact ⟨inner, rfl⟩
  | nil | int | double | str => cases h
  | true | symbol | expr | struct => exact hf.elim

end Form

namespace Heap

/-! ## Depicting a form -/

mutual

/-- The value has the shape of the form, with a list or a struct in a cell for each one of the
form. -/
def Depicts (h : Heap) : Form → Value → Prop
  | .nil, v => v = .nil
  | .true, v => v = .true
  | .int n, v => v = .int n
  | .double d, v => v = .double d
  | .str s, v => v = .str s
  | .symbol path, v => v = .symbol path
  | .list items, v => ∃ a vs, v = .list a ∧ h.cells[a]? = some (.list vs) ∧ h.DepictsAll items vs
  | .expr items, v => ∃ vs, v = .expr vs ∧ h.DepictsAll items vs
  | .struct fields, v =>
    ∃ a vs, v = .struct a ∧ h.cells[a]? = some (.struct vs) ∧ h.DepictsFields fields vs

def DepictsAll (h : Heap) : List Form → List Value → Prop
  | [], vs => vs = []
  | f :: fs, vs => ∃ u us, vs = u :: us ∧ h.Depicts f u ∧ h.DepictsAll fs us

def DepictsFields (h : Heap) : List (String × Form) → Record Value → Prop
  | [], vs => vs = []
  | (key, f) :: fs, vs => ∃ u us, vs = (key, u) :: us ∧ h.Depicts f u ∧ h.DepictsFields fs us

end

variable {h k l : Heap} {f g : Form} {u v w : Value} {vs : List Value} {c d : Cell} {a b t : Nat}

/-! ## The cells of a value -/

def Mentions (h : Heap) (v : Value) (a : Nat) : Prop :=
  ∃ b ∈ v.cells, h.Leads b a

/-- Whatever the value comes to in one heap, is the same in the other. -/
def Keeps (h k : Heap) (v : Value) : Prop :=
  ∀ a c, h.Mentions v a → h.cells[a]? = some c → k.cells[a]? = some c

theorem Leads.trans (hl : h.Leads a b) (hl' : h.Leads b t) : h.Leads a t := by
  induction hl with
  | here _ => exact hl'
  | into hc hmem _ ih => exact .into hc hmem (ih hl')

theorem Mentions.self (ha : a ∈ v.cells) : h.Mentions v a :=
  ⟨a, ha, .here a⟩

theorem Mentions.trans (ha : h.Mentions v a) (hl : h.Leads a t) : h.Mentions v t := by
  obtain ⟨b, hb, hba⟩ := ha
  exact ⟨b, hb, hba.trans hl⟩

theorem Mentions.enter (ha : h.Mentions v a) (hc : h.cells[a]? = some c)
    (hb : b ∈ c.cells) : h.Mentions v b :=
  ha.trans (.into hc hb (.here b))

theorem mem_cells_item (hv : v ∈ vs) (hb : b ∈ v.cells) : b ∈ (Cell.list vs).cells :=
  List.mem_flatMap.mpr ⟨v, hv, hb⟩

theorem mem_cells_field {us : Record Value} {key : String} (hv : (key, v) ∈ us)
    (hb : b ∈ v.cells) : b ∈ (Cell.struct us).cells :=
  List.mem_flatMap.mpr ⟨(key, v), hv, hb⟩

theorem mem_cells_expr (hv : v ∈ vs) (hb : b ∈ v.cells) : b ∈ (Value.expr vs).cells := by
  show b ∈ Value.cellsAll vs
  induction vs with
  | nil => cases hv
  | cons u us ih =>
    rw [Value.cellsAll, List.mem_append]
    rcases List.mem_cons.mp hv with rfl | hv
    · exact .inl hb
    · exact .inr (ih hv)

theorem Keeps.of_cells (hk : h.Keeps k u) (ha : a ∈ u.cells) (hc : h.cells[a]? = some c)
    (hv : ∀ b ∈ v.cells, b ∈ c.cells) : h.Keeps k v := by
  rintro t d ⟨b, hb, hbt⟩
  exact hk t d ⟨a, ha, .into hc (hv b hb) hbt⟩

mutual

/-- Nothing but the cells of a value matters to what it depicts. -/
theorem Depicts.keep : (f : Form) → ∀ {v}, h.Depicts f v → h.Keeps k v → k.Depicts f v
  | .nil, _, hv, _ | .true, _, hv, _ | .int _, _, hv, _ | .double _, _, hv, _ | .str _, _, hv, _
  | .symbol _, _, hv, _ => hv
  | .list items, _, hv, hk => by
    obtain ⟨a, vs, rfl, hc, hvs⟩ := hv
    have ha : a ∈ (Value.list a).cells := List.mem_singleton_self a
    refine ⟨a, vs, rfl, hk a _ (.self ha) hc, DepictsAll.keep items hvs fun v hv => ?_⟩
    exact hk.of_cells ha hc fun b hb => mem_cells_item hv hb
  | .expr items, _, hv, hk => by
    obtain ⟨vs, rfl, hvs⟩ := hv
    refine ⟨vs, rfl, DepictsAll.keep items hvs fun v hv => ?_⟩
    rintro a c ⟨b, hb, hba⟩
    exact hk a c ⟨b, mem_cells_expr hv hb, hba⟩
  | .struct fields, _, hv, hk => by
    obtain ⟨a, us, rfl, hc, hus⟩ := hv
    have ha : a ∈ (Value.struct a).cells := List.mem_singleton_self a
    refine ⟨a, us, rfl, hk a _ (.self ha) hc, DepictsFields.keep fields hus fun key v hv => ?_⟩
    exact hk.of_cells ha hc fun b hb => mem_cells_field hv hb

theorem DepictsAll.keep : (fs : List Form) → ∀ {vs}, h.DepictsAll fs vs →
    (∀ v ∈ vs, h.Keeps k v) → k.DepictsAll fs vs
  | [], _, hvs, _ => hvs
  | f :: fs, _, hvs, hk => by
    obtain ⟨u, us, rfl, hu, hus⟩ := hvs
    obtain ⟨hfirst, hrest⟩ := List.forall_mem_cons.mp hk
    exact ⟨u, us, rfl, Depicts.keep f hu hfirst, DepictsAll.keep fs hus hrest⟩

theorem DepictsFields.keep : (fs : List (String × Form)) → ∀ {us}, h.DepictsFields fs us →
    (∀ key v, (key, v) ∈ us → h.Keeps k v) → k.DepictsFields fs us
  | [], _, hus, _ => hus
  | (key, f) :: fs, _, hus, hk => by
    obtain ⟨u, us, rfl, hu, hus⟩ := hus
    exact ⟨u, us, rfl, Depicts.keep f hu (hk key u List.mem_cons_self),
      DepictsFields.keep fs hus fun key v hv => hk key v (List.mem_cons_of_mem _ hv)⟩

end

theorem Begins.cell (hk : h.Begins k) (hc : h.cells[a]? = some c) :
    k.cells[a]? = some c := by
  obtain ⟨rest, hrest⟩ := hk
  rw [← Array.getElem?_toList] at hc ⊢
  rw [← hrest]
  exact List.getElem?_append_left (List.getElem?_eq_some_iff.mp hc).1 ▸ hc

theorem Begins.keeps (hk : h.Begins k) (v : Value) : h.Keeps k v :=
  fun _ _ _ hc => hk.cell hc

theorem DepictsAll.mono {fs : List Form} (hvs : h.DepictsAll fs vs) (hk : h.Begins k) :
    k.DepictsAll fs vs :=
  hvs.keep fs fun v _ => hk.keeps v

/-! ## Loading -/

mutual

/-- What is loaded depicts the form. Lists must have items: without any they are loaded as `Nil`. -/
theorem depicts_load : (f : Form) → ∀ {room}, f.Readable room → ∀ h : Heap,
    (h.load f).2.Depicts f (h.load f).1
  | .nil, _, _, _ | .true, _, _, _ | .int _, _, _, _ | .double _, _, _, _ | .str _, _, _, _
  | .symbol _, _, _, _ => rfl
  | .list items, _, hf, h => by
    have hitems := depictsAll_load items (fun f hmem => (hf.item hmem).readable) h
    have hload : h.load (.list items) = _ := newList_of_ne_nil (loadAll_ne_nil hf.2.1)
    rw [hload]
    exact ⟨_, _, rfl, getElem?_alloc_self _ _, hitems.mono (begins_alloc _ _)⟩
  | .expr items, _, hf, h =>
    ⟨_, rfl, depictsAll_load items (Form.readableAll_iff.mp hf.2.2) h⟩
  | .struct fields, _, hf, h => by
    have hfields := depictsFields_load fields (fun key f hmem => hf.field hmem) h
    exact ⟨_, _, rfl, getElem?_alloc_self _ _,
      hfields.keep fields fun _ v _ => (begins_alloc _ _).keeps v⟩

theorem depictsAll_load : (fs : List Form) → ∀ {room}, (∀ f ∈ fs, f.Readable room) → ∀ h : Heap,
    (h.loadAll fs).2.DepictsAll fs (h.loadAll fs).1
  | [], _, _, _ => rfl
  | f :: fs, _, hfs, h => by
    obtain ⟨hf, hrest⟩ := List.forall_mem_cons.mp hfs
    exact ⟨_, _, rfl, (depicts_load f hf h).keep f ((begins_loadAll fs _).keeps _),
      depictsAll_load fs hrest _⟩

theorem depictsFields_load : (fs : List (String × Form)) → ∀ {room},
    (∀ key f, (key, f) ∈ fs → f.Readable room) → ∀ h : Heap,
    (h.loadFields fs).2.DepictsFields fs (h.loadFields fs).1
  | [], _, _, _ => rfl
  | (key, f) :: fs, _, hfs, h => by
    have hf := depicts_load f (hfs key f List.mem_cons_self) h
    exact ⟨_, _, rfl, hf.keep f ((begins_loadFields fs _).keeps _),
      depictsFields_load fs (fun key f hmem => hfs key f (List.mem_cons_of_mem _ hmem)) _⟩

end

/-! ## One item or field of what is depicted

The lemmas are about two heaps at once, since a value can depict the same form in both. -/

theorem DepictsAll.of_mem {fs : List Form} (hvs : h.DepictsAll fs vs) (hvs' : k.DepictsAll fs vs)
    (hmem : v ∈ vs) : ∃ f ∈ fs, h.Depicts f v ∧ k.Depicts f v := by
  induction fs generalizing vs with
  | nil =>
    rw [show vs = [] from hvs] at hmem
    cases hmem
  | cons f fs ih =>
    obtain ⟨u, us, rfl, hu, hus⟩ := hvs
    obtain ⟨_, _, heq, hu', hus'⟩ := hvs'
    cases heq
    rcases List.mem_cons.mp hmem with rfl | hmem
    · exact ⟨f, List.mem_cons_self, hu, hu'⟩
    · obtain ⟨g, hg, hdepicts⟩ := ih hus hus' hmem
      exact ⟨g, List.mem_cons_of_mem _ hg, hdepicts⟩

theorem DepictsFields.of_mem {fs : List (String × Form)} {us : Record Value} {key : String}
    (hus : h.DepictsFields fs us) (hus' : k.DepictsFields fs us) (hmem : (key, v) ∈ us) :
    ∃ f, (key, f) ∈ fs ∧ h.Depicts f v ∧ k.Depicts f v := by
  induction fs generalizing us with
  | nil =>
    rw [show us = [] from hus] at hmem
    cases hmem
  | cons e fs ih =>
    obtain ⟨name, f⟩ := e
    obtain ⟨u, us, rfl, hu, hus⟩ := hus
    obtain ⟨_, _, heq, hu', hus'⟩ := hus'
    cases heq
    rcases List.mem_cons.mp hmem with heq | hmem
    · cases heq
      exact ⟨f, List.mem_cons_self, hu, hu'⟩
    · obtain ⟨g, hg, hdepicts⟩ := ih hus hus' hmem
      exact ⟨g, List.mem_cons_of_mem _ hg, hdepicts⟩

theorem DepictsAll.exists_of_mem {fs : List Form} (hvs : h.DepictsAll fs vs) (hmem : f ∈ fs) :
    ∃ v ∈ vs, h.Depicts f v := by
  induction fs generalizing vs with
  | nil => cases hmem
  | cons g fs ih =>
    obtain ⟨u, us, rfl, hu, hus⟩ := hvs
    rcases List.mem_cons.mp hmem with rfl | hmem
    · exact ⟨u, List.mem_cons_self, hu⟩
    · obtain ⟨v, hv, hdepicts⟩ := ih hus hmem
      exact ⟨v, List.mem_cons_of_mem _ hv, hdepicts⟩

theorem DepictsFields.keys_eq {fs : List (String × Form)} {us : Record Value}
    (hus : h.DepictsFields fs us) : us.keys = Record.keys fs := by
  induction fs generalizing us with
  | nil => rw [show us = [] from hus]; rfl
  | cons e fs ih =>
    obtain ⟨key, f⟩ := e
    obtain ⟨u, us, rfl, -, hus⟩ := hus
    exact congrArg (key :: ·) (ih hus)

/-- The value of a plain form has a cell only if the form is a list or a struct. -/
theorem Depicts.of_mem_cells (hv : h.Depicts f v) (hf : f.Plain) (ha : a ∈ v.cells) :
    (∃ items vs, f = .list items ∧ v = .list a ∧ h.cells[a]? = some (.list vs) ∧
      h.DepictsAll items vs) ∨
    ∃ fields us, f = .struct fields ∧ v = .struct a ∧ h.cells[a]? = some (.struct us) ∧
      h.DepictsFields fields us := by
  cases f with
  | nil | true | int | double | str =>
    rw [show v = _ from hv] at ha
    cases ha
  | symbol path => exact absurd .self (hf.symbol path)
  | expr items => exact absurd .self (hf.expr items)
  | list items =>
    obtain ⟨b, vs, rfl, hc, hvs⟩ := hv
    obtain rfl : a = b := List.mem_singleton.mp ha
    exact .inl ⟨items, vs, rfl, rfl, hc, hvs⟩
  | struct fields =>
    obtain ⟨b, us, rfl, hc, hus⟩ := hv
    obtain rfl : a = b := List.mem_singleton.mp ha
    exact .inr ⟨fields, us, rfl, rfl, hc, hus⟩

/-! ## All cells of what is depicted -/

theorem Depicts.list_cell {items : List Form} (hv : h.Depicts (.list items) v) (ha : a ∈ v.cells)
    (hc : h.cells[a]? = some c) : ∃ vs, c = .list vs ∧ h.DepictsAll items vs := by
  obtain ⟨b, vs, rfl, hcell, hvs⟩ := hv
  obtain rfl : a = b := List.mem_singleton.mp ha
  exact ⟨vs, Option.some.inj (hc.symm.trans hcell), hvs⟩

theorem Depicts.struct_cell {fields : List (String × Form)} (hv : h.Depicts (.struct fields) v)
    (ha : a ∈ v.cells) (hc : h.cells[a]? = some c) :
    ∃ us, c = .struct us ∧ h.DepictsFields fields us := by
  obtain ⟨b, us, rfl, hcell, hus⟩ := hv
  obtain rfl : a = b := List.mem_singleton.mp ha
  exact ⟨us, Option.some.inj (hc.symm.trans hcell), hus⟩

/-- A cell that is mentioned in a cell of the value stands for a part of the form. -/
theorem Depicts.enter (hv : h.Depicts f v) (hv' : k.Depicts f v) (hf : f.Plain) (ha : a ∈ v.cells)
    (hc : h.cells[a]? = some c) (hc' : k.cells[a]? = some c) (hb : b ∈ c.cells) :
    ∃ g u, g.Within f ∧ h.Depicts g u ∧ k.Depicts g u ∧ b ∈ u.cells := by
  obtain ⟨items, _, rfl, _⟩ | ⟨fields, _, rfl, _⟩ := hv.of_mem_cells hf ha
  · obtain ⟨vs, rfl, hvs⟩ := hv.list_cell ha hc
    obtain ⟨_, heq, hvs'⟩ := hv'.list_cell ha hc'
    cases heq
    obtain ⟨u, hu, hbu⟩ := List.mem_flatMap.mp hb
    obtain ⟨g, hg, hdepicts, hdepicts'⟩ := hvs.of_mem hvs' hu
    exact ⟨g, u, .item hg .self, hdepicts, hdepicts', hbu⟩
  · obtain ⟨us, rfl, hus⟩ := hv.struct_cell ha hc
    obtain ⟨_, heq, hus'⟩ := hv'.struct_cell ha hc'
    cases heq
    obtain ⟨⟨key, u⟩, hu, hbu⟩ := List.mem_flatMap.mp hb
    obtain ⟨g, hg, hdepicts, hdepicts'⟩ := hus.of_mem hus' hu
    exact ⟨g, u, .field hg .self, hdepicts, hdepicts', hbu⟩

/-- Each cell of the value stands for a part of the form. -/
theorem Depicts.part (hv : h.Depicts f v) (hf : f.Plain) (ht : h.Mentions v t) :
    ∃ g u, g.Within f ∧ h.Depicts g u ∧ t ∈ u.cells := by
  obtain ⟨a, ha, hl⟩ := ht
  induction hl generalizing f v with
  | here t => exact ⟨f, v, .self, hv, ha⟩
  | into hc hb _ ih =>
    obtain ⟨e, x, he, hx, -, hbx⟩ := hv.enter hv hf ha hc hc hb
    obtain ⟨g, u, hg, hu⟩ := ih hx (hf.within he) hbx
    exact ⟨g, u, hg.trans he, hu⟩

/-- The heap has all the cells that the value comes to. -/
def Closed (h : Heap) (v : Value) : Prop :=
  ∀ a, h.Mentions v a → a < h.size

theorem Depicts.closed (hv : h.Depicts f v) (hf : f.Plain) : h.Closed v := by
  intro t ht
  obtain ⟨g, u, hg, hu, hcell⟩ := hv.part hf ht
  obtain ⟨_, _, _, _, hc, _⟩ | ⟨_, _, _, _, hc, _⟩ := hu.of_mem_cells (hf.within hg) hcell
  · exact (Array.getElem?_eq_some_iff.mp hc).1
  · exact (Array.getElem?_eq_some_iff.mp hc).1

/-- A value that is kept comes to no other cells than before. -/
theorem Closed.mentions (hv : h.Closed v) (hk : h.Keeps k v) (ht : k.Mentions v t) :
    h.Mentions v t := by
  obtain ⟨a, ha, hl⟩ := ht
  have hmentions : h.Mentions v a := .self ha
  clear ha
  induction hl with
  | here t => exact hmentions
  | @into a b t c hc hb _ ih =>
    -- The cell was there before, so it is the same in both heaps.
    have hcell := Array.getElem?_eq_getElem (hv a hmentions)
    have hsame := hk a _ hmentions hcell
    rw [hc] at hsame
    cases hsame
    exact ih (hmentions.enter hcell hb)

/-! ## Writing a cell of what is depicted -/

theorem keeps_write (hd : h.cells[a]? = some d) (ha : ¬ h.Mentions v a) (c : Cell) :
    h.Keeps (h.write a c) v := by
  intro b e hb he
  have hne : a ≠ b := by
    rintro rfl
    exact ha hb
  rw [getElem?_write hd, if_neg hne]
  exact he

theorem Depicts.head_item {x y : Value} (hv : h.Depicts f v) (hv' : k.Depicts f v) (hf : f.Plain)
    (hmem : a ∈ v.cells) (ha : h.cells[a]? = some (.list (x :: vs)))
    (ha' : k.cells[a]? = some (.list (y :: vs))) : ∃ g, h.Depicts g x ∧ k.Depicts g y := by
  obtain ⟨items, _, rfl, _⟩ | ⟨fields, _, rfl, _⟩ := hv.of_mem_cells hf hmem
  · obtain ⟨_, heq, hvs⟩ := hv.list_cell hmem ha
    obtain ⟨_, heq', hvs'⟩ := hv'.list_cell hmem ha'
    cases heq
    cases heq'
    cases items with
    | nil => cases hvs
    | cons g items =>
      obtain ⟨_, _, heq, hx, _⟩ := hvs
      obtain ⟨_, _, heq', hy, _⟩ := hvs'
      cases heq
      cases heq'
      exact ⟨g, hx, hy⟩
  · obtain ⟨_, heq, _⟩ := hv.struct_cell hmem ha
    cases heq

/-- If a list of the value has got another first item, the value depicts its form as before only if
the new item stands for the same form as the old one. -/
theorem Depicts.first_item {x y : Value} (hv : h.Depicts f v) (hv' : k.Depicts f v) (hf : f.Plain)
    (hmentions : h.Mentions v a) (ha : h.cells[a]? = some (.list (x :: vs)))
    (ha' : k.cells[a]? = some (.list (y :: vs)))
    (hrest : ∀ b c, b ≠ a → h.cells[b]? = some c → k.cells[b]? = some c) :
    ∃ g, h.Depicts g x ∧ k.Depicts g y := by
  obtain ⟨b, hb, hl⟩ := hmentions
  induction hl generalizing f v with
  | here a => exact hv.head_item hv' hf hb ha ha'
  | @into b b' a c hc hb' _ ih =>
    -- The way may come to the list before it ends there.
    by_cases hba : b = a
    · subst hba
      exact hv.head_item hv' hf hb ha ha'
    · obtain ⟨g, u, hg, hu, hu', hmem⟩ := hv.enter hv' hf hb hc (hrest b c hba hc) hb'
      exact ih hu hu' (hf.within hg) ha ha' hrest hmem

end Heap

end Lisplet
