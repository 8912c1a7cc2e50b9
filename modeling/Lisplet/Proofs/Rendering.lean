import Lisplet.Proofs.Depiction
import Lisplet.Proofs.Walks

/-!
# Where a text is cut short

The text of a value keeps to the path of cells it is inside of, and shows a cell of that path as
`...`. A plain rendering would keep no path: it is a function that satisfies the equations of the
rendering at every cell there is a way to. Such a function exists exactly if no cell on the way holds
itself, and then it is unique and gives the text. Otherwise the text is cut short at least once.

How often a text is cut short is counted by a walk of its own. That the count is right shows in the
texts: with another mark in place of `...`, a text changes by the length of the mark, that many
times.
-/

namespace Lisplet

theorem length_intercalate (texts : List String) :
    (" ".intercalate texts).length = (texts.map String.length).sum + (texts.length - 1) := by
  induction texts with
  | nil => rfl
  | cons text texts ih =>
    cases texts with
    | nil => simp
    | cons next texts =>
      rw [String.intercalate_cons_cons, String.length_append, String.length_append, ih]
      simp only [List.map_cons, List.sum_cons, List.length_cons, show " ".length = 1 from rfl]
      omega

theorem length_le_intercalate {text : String} {texts : List String} (h : text ∈ texts) :
    text.length ≤ (" ".intercalate texts).length := by
  have hsum : text.length ≤ (texts.map String.length).sum :=
    List.single_le_sum (fun _ _ => Nat.zero_le _) _ (List.mem_map_of_mem h)
  rw [length_intercalate]
  omega

/-! ## What a text says about a cell -/

/-- How much the insides of the cells add to a text. -/
def insideLength (inside : Nat → String) (cells : List Nat) : Nat :=
  (cells.map fun a => (inside a).length).sum

@[simp]
theorem insideLength_nil (inside : Nat → String) : insideLength inside [] = 0 :=
  rfl

@[simp]
theorem insideLength_singleton (inside : Nat → String) (a : Nat) :
    insideLength inside [a] = (inside a).length := by
  simp [insideLength]

@[simp]
theorem insideLength_append (inside : Nat → String) (as bs : List Nat) :
    insideLength inside (as ++ bs) = insideLength inside as + insideLength inside bs := by
  simp [insideLength]

theorem le_insideLength {inside : Nat → String} {a : Nat} {cells : List Nat} (ha : a ∈ cells) :
    (inside a).length ≤ insideLength inside cells :=
  List.single_le_sum (fun _ _ => Nat.zero_le _) _ (List.mem_map_of_mem ha)

/-- Side by side, texts are as long as their own parts and the insides of all their cells. -/
theorem length_intercalate_map {α : Type} {inside : Nat → String} {text own : α → String}
    {cells : α → List Nat}
    (htext : ∀ x, (text x).length = (own x).length + insideLength inside (cells x))
    (xs : List α) : (" ".intercalate (xs.map text)).length =
      (" ".intercalate (xs.map own)).length + insideLength inside (xs.flatMap cells) := by
  have hsum : ((xs.map text).map String.length).sum =
      ((xs.map own).map String.length).sum + insideLength inside (xs.flatMap cells) := by
    induction xs with
    | nil => rfl
    | cons x xs ih =>
      rw [List.flatMap_cons, insideLength_append]
      simp only [List.map_cons, List.sum_cons]
      rw [ih, htext x]
      omega
  simp only [length_intercalate, List.length_map]
  omega

def blank (_ : Nat) : String :=
  ""

namespace Value

variable {inside other : Nat → String}

theorem length_renderAll (vs : List Value) : (renderAll inside vs).length = vs.length := by
  induction vs with
  | nil => rfl
  | cons v vs ih => rw [renderAll, List.length_cons, List.length_cons, ih]

mutual

/-- A text is as long as its own part and the insides of the cells of the value. -/
theorem length_render (inside : Nat → String) : (v : Value) →
    (v.render inside).length = (v.render blank).length + insideLength inside v.cells
  | .nil | .true | .int _ | .double _ | .str _ | .symbol _ | .primitive .. | .checked ..
  | .goto _ | .label _ | .error _ => (Nat.add_zero _).symm
  | .list a | .struct a => by
    simp only [render, cells, blank, String.length_append, insideLength_singleton]
    simp only [show "".length = 0 from rfl]
    omega
  | .expr items => by
    have hsum := sum_length_renderAll inside items
    simp only [render, cells, String.length_append, length_intercalate, length_renderAll]
    omega
  | .closure _ _ _ body => by
    have hbody := length_render inside body
    simp only [render, cells, String.length_append]
    omega
  | .leaving v | .breaking v => by
    have hv := length_render inside v
    simp only [render, cells, String.length_append]
    omega

theorem sum_length_renderAll (inside : Nat → String) : (vs : List Value) →
    ((renderAll inside vs).map String.length).sum =
      ((renderAll blank vs).map String.length).sum + insideLength inside (cellsAll vs)
  | [] => rfl
  | v :: vs => by
    have hv := length_render inside v
    have hvs := sum_length_renderAll inside vs
    simp only [renderAll, cellsAll, List.map_cons, List.sum_cons, insideLength_append]
    omega

end

theorem length_renderItem (inside : Nat → String) (v : Value) :
    (v.renderItem inside).length = (v.renderItem blank).length + insideLength inside v.cells := by
  cases v with
  | list a =>
    simp only [renderItem, cells, blank, String.length_append, insideLength_singleton]
    simp only [show "".length = 0 from rfl]
    omega
  | _ => exact length_render inside _

/-- A value that has a cell shows at least the brackets around it. -/
theorem length_render_pos {v : Value} {a : Nat} (ha : a ∈ v.cells) : 0 < (v.render blank).length := by
  cases v with
  | list | struct | expr | closure | leaving | breaking =>
    simp only [render, String.length_append]
    exact Nat.add_pos_right _ (by decide)
  | _ => cases ha

theorem length_renderItem_pos {v : Value} {a : Nat} (ha : a ∈ v.cells) :
    0 < (v.renderItem blank).length := by
  cases v with
  | list =>
    simp only [renderItem, String.length_append]
    exact Nat.add_pos_right _ (by decide)
  | _ => exact length_render_pos ha

mutual

/-- Only the cells of a value matter to its text. -/
theorem render_congr : (v : Value) → (∀ a ∈ v.cells, inside a = other a) →
    v.render inside = v.render other
  | .nil, _ | .true, _ | .int _, _ | .double _, _ | .str _, _ | .symbol _, _ | .primitive .., _
  | .checked .., _ | .goto _, _ | .label _, _ | .error _, _ => rfl
  | .list a, h | .struct a, h => by
    rw [render, render, h a (List.mem_singleton_self a)]
  | .expr items, h => by
    rw [render, render, renderAll_congr items h]
  | .closure _ _ _ body, h => by
    rw [render, render, render_congr body h]
  | .leaving v, h | .breaking v, h => by
    rw [render, render, render_congr v h]

theorem renderAll_congr : (vs : List Value) → (∀ a ∈ cellsAll vs, inside a = other a) →
    renderAll inside vs = renderAll other vs
  | [], _ => rfl
  | v :: vs, h => by
    rw [cellsAll] at h
    obtain ⟨hv, hvs⟩ := List.forall_mem_append.mp h
    rw [renderAll, renderAll, render_congr v hv, renderAll_congr vs hvs]

end

theorem renderItem_congr {v : Value} (h : ∀ a ∈ v.cells, inside a = other a) :
    v.renderItem inside = v.renderItem other := by
  cases v with
  | list a => rw [renderItem, renderItem, h a (List.mem_singleton_self a)]
  | _ => exact render_congr _ h

end Value

namespace Cell

variable {inside other : Nat → String}

theorem length_render (inside : Nat → String) (c : Cell) :
    (c.render inside).length = (c.render blank).length + insideLength inside c.cells := by
  cases c with
  | list items => exact length_intercalate_map (Value.length_renderItem inside) items
  | struct fields =>
    refine length_intercalate_map (fun field => ?_) fields
    obtain ⟨key, v⟩ := field
    have hv := v.length_render inside
    simp only [String.length_append]
    omega

/-- The contents of a cell show more than the inside of a cell among them. -/
theorem length_lt_render {c : Cell} {a : Nat} (ha : a ∈ c.cells) :
    (inside a).length < (c.render inside).length := by
  have hinside : (inside a).length ≤ insideLength inside c.cells := le_insideLength ha
  have hown : 0 < (c.render blank).length := by
    cases c with
    | list items =>
      obtain ⟨v, hv, hav⟩ := List.mem_flatMap.mp ha
      exact (Value.length_renderItem_pos hav).trans_le
        (length_le_intercalate (List.mem_map_of_mem hv))
    | struct fields =>
      obtain ⟨field, hfield, hav⟩ := List.mem_flatMap.mp ha
      refine Nat.lt_of_lt_of_le ?_ (length_le_intercalate (List.mem_map_of_mem hfield))
      rw [String.length_append]
      exact Nat.add_pos_right _ (Value.length_render_pos hav)
  rw [length_render inside]
  omega

theorem render_congr {c : Cell} (h : ∀ a ∈ c.cells, inside a = other a) :
    c.render inside = c.render other := by
  cases c with
  | list items =>
    have hitems : items.map (Value.renderItem inside) = items.map (Value.renderItem other) :=
      List.map_congr_left fun v hv =>
        Value.renderItem_congr fun a ha => h a (List.mem_flatMap.mpr ⟨v, hv, ha⟩)
    rw [render, render, hitems]
  | struct fields =>
    rw [render, render]
    refine congrArg (String.intercalate _) (List.map_congr_left fun field hfield => ?_)
    have hv : field.2.render inside = field.2.render other :=
      Value.render_congr field.2 fun a ha => h a (List.mem_flatMap.mpr ⟨field, hfield, ha⟩)
    dsimp only
    rw [hv]

end Cell

namespace Heap

variable {h : Heap} {v : Value} {c : Cell} {mark : String} {path : List Nat} {a b : Nat}

/-- A walk is at a cell it is inside of, or enters a new cell, or finds none. -/
theorem walk_induction {P : List Nat → Nat → Prop} (known : ∀ path a, a ∈ path → P path a)
    (none : ∀ path a, a ∉ path → h.cells[a]? = none → P path a)
    (cell : ∀ path a c, a ∉ path → h.cells[a]? = some c → (∀ b ∈ c.cells, P (a :: path) b) →
      P path a) (path : List Nat) (a : Nat) : P path a := by
  by_cases hnew : a ∈ path
  · exact known path a hnew
  · cases hc : h.cells[a]? with
    | none => exact none path a hnew hc
    | some c =>
      have hfewer := unvisited_cons_lt (mem_places hc) hnew
      exact cell path a c hnew hc fun b _ => walk_induction known none cell (a :: path) b
termination_by unvisited h.places path

/-! ## Counting the cuts -/

/-- How often the text of the cell at `a` is cut short, inside the cells of `path`. -/
def cellCuts (h : Heap) (path : List Nat) (a : Nat) : Nat :=
  if _hnew : a ∈ path then 1
  else
    match _hc : h.cells[a]? with
    | some c => (c.cells.map fun b => h.cellCuts (a :: path) b).sum
    | none => 0
termination_by unvisited h.places path
decreasing_by exact unvisited_cons_lt (mem_places _hc) _hnew

def cuts (h : Heap) (v : Value) : Nat :=
  (v.cells.map (h.cellCuts [])).sum

theorem cellCuts_of_mem (ha : a ∈ path) : h.cellCuts path a = 1 := by
  rw [cellCuts, dif_pos ha]

theorem cellCuts_of_cell (hnew : a ∉ path) (hc : h.cells[a]? = some c) :
    h.cellCuts path a = (c.cells.map (h.cellCuts (a :: path))).sum := by
  rw [cellCuts, dif_neg hnew]
  split
  next d hd =>
    cases hc.symm.trans hd
    rfl
  next hd => cases hc.symm.trans hd

theorem cellCuts_of_none (hnew : a ∉ path) (hc : h.cells[a]? = none) : h.cellCuts path a = 0 := by
  rw [cellCuts, dif_neg hnew]
  split
  next d hd => cases hc.symm.trans hd
  next => rfl

-- The text of a cell grows with the mark by its cuts; so does everything that is made of such texts.
theorem insideLength_contentsText (cells : List Nat)
    (hcells : ∀ a ∈ cells, (h.contentsText mark path a).length =
      (h.contentsText "" path a).length + h.cellCuts path a * mark.length) :
    insideLength (h.contentsText mark path) cells =
      insideLength (h.contentsText "" path) cells +
        (cells.map (h.cellCuts path)).sum * mark.length := by
  rw [insideLength, insideLength, ← List.sum_map_mul_right, ← List.sum_map_add]
  exact congrArg List.sum (List.map_congr_left hcells)

theorem length_contentsText (h : Heap) (mark : String) (path : List Nat) (a : Nat) :
    (h.contentsText mark path a).length =
      (h.contentsText "" path a).length + h.cellCuts path a * mark.length := by
  induction path, a using walk_induction (h := h) with
  | known path a ha =>
    rw [contentsText_of_mem ha, contentsText_of_mem ha, cellCuts_of_mem ha, Nat.one_mul,
      show "".length = 0 from rfl, Nat.zero_add]
  | none path a hnew hc =>
    rw [contentsText_of_none hnew hc, contentsText_of_none hnew hc, cellCuts_of_none hnew hc,
      Nat.zero_mul, Nat.add_zero]
  | cell path a c hnew hc ih =>
    rw [contentsText_of_cell hnew hc, contentsText_of_cell hnew hc, cellCuts_of_cell hnew hc,
      c.length_render (h.contentsText mark (a :: path)), insideLength_contentsText c.cells ih,
      c.length_render (h.contentsText "" (a :: path)), Nat.add_assoc]

/-- The mark stands in a text as often as the text is cut short. -/
theorem length_textMarked (h : Heap) (mark : String) (v : Value) :
    (h.textMarked mark v).length = (h.textMarked "" v).length + h.cuts v * mark.length := by
  have hcells := insideLength_contentsText v.cells fun a _ => h.length_contentsText mark [] a
  rw [textMarked, v.length_render (h.contentsText mark []), hcells, textMarked,
    v.length_render (h.contentsText "" []), cuts, Nat.add_assoc]

/-! ## Cells that hold themselves -/

theorem Leads.eq_or_into {t : Nat} (hl : h.Leads a t) (hc : h.cells[a]? = some c) :
    t = a ∨ ∃ b ∈ c.cells, h.Leads b t := by
  cases hl with
  | here _ => exact .inl rfl
  | into hd hb hrest =>
    cases hc.symm.trans hd
    exact .inr ⟨_, hb, hrest⟩

theorem Leads.eq_of_none {t : Nat} (hl : h.Leads a t) (hc : h.cells[a]? = none) : t = a := by
  cases hl with
  | here _ => rfl
  | into hd _ _ => cases hc.symm.trans hd

theorem InsideItself.back (ha : h.InsideItself a) (hc : h.cells[a]? = some c) :
    ∃ b ∈ c.cells, h.Leads b a := by
  obtain ⟨d, b, hd, hb, hback⟩ := ha
  cases hc.symm.trans hd
  exact ⟨b, hb, hback⟩

/-- A walk is cut short exactly if there is a way back to its path or to a cell that holds itself. -/
theorem cellCuts_pos_iff (path : List Nat) (a : Nat) :
    0 < h.cellCuts path a ↔
      (∃ p ∈ path, h.Leads a p) ∨ ∃ x, h.Leads a x ∧ h.InsideItself x := by
  induction path, a using walk_induction (h := h) with
  | known path a ha =>
    rw [cellCuts_of_mem ha]
    exact ⟨fun _ => .inl ⟨a, ha, .here a⟩, fun _ => Nat.one_pos⟩
  | none path a hnew hc =>
    rw [cellCuts_of_none hnew hc]
    refine ⟨fun hlt => absurd hlt (Nat.lt_irrefl 0), ?_⟩
    rintro (⟨p, hp, hl⟩ | ⟨x, hl, d, b, hd, -⟩)
    · exact absurd (hl.eq_of_none hc ▸ hp) hnew
    · cases hc.symm.trans (hl.eq_of_none hc ▸ hd)
  | cell path a c hnew hc ih =>
    have hsum : 0 < h.cellCuts path a ↔ ∃ b ∈ c.cells, 0 < h.cellCuts (a :: path) b := by
      rw [cellCuts_of_cell hnew hc, List.sum_pos_iff_exists_pos_nat]
      simp only [List.mem_map, exists_exists_and_eq_and]
    rw [hsum]
    constructor
    · rintro ⟨b, hb, hpos⟩
      rcases (ih b hb).mp hpos with ⟨p, hp, hl⟩ | ⟨x, hl, hx⟩
      · rcases List.mem_cons.mp hp with rfl | hp
        · exact .inr ⟨p, .here p, c, b, hc, hb, hl⟩
        · exact .inl ⟨p, hp, .into hc hb hl⟩
      · exact .inr ⟨x, .into hc hb hl, hx⟩
    · rintro (⟨p, hp, hl⟩ | ⟨x, hl, hx⟩)
      · rcases hl.eq_or_into hc with rfl | ⟨b, hb, hl⟩
        · exact absurd hp hnew
        · exact ⟨b, hb, (ih b hb).mpr (.inl ⟨p, List.mem_cons_of_mem a hp, hl⟩)⟩
      · rcases hl.eq_or_into hc with rfl | ⟨b, hb, hl⟩
        · obtain ⟨b, hb, hback⟩ := hx.back hc
          exact ⟨b, hb, (ih b hb).mpr (.inl ⟨x, List.mem_cons_self, hback⟩)⟩
        · exact ⟨b, hb, (ih b hb).mpr (.inr ⟨x, hl, hx⟩)⟩

/-- No list or struct that there is a way to from the value holds itself. -/
def Acyclic (h : Heap) (v : Value) : Prop :=
  ∀ a, h.Mentions v a → ¬ h.InsideItself a

theorem cuts_eq_zero_iff : h.cuts v = 0 ↔ h.Acyclic v := by
  have hcell : ∀ a, h.cellCuts [] a = 0 ↔ ∀ x, h.Leads a x → ¬ h.InsideItself x := by
    intro a
    have hpos := cellCuts_pos_iff (h := h) [] a
    simp only [List.not_mem_nil, false_and, exists_false, false_or] at hpos
    rw [← not_iff_not, ← ne_eq, ← Nat.pos_iff_ne_zero, hpos]
    push Not
    rfl
  rw [cuts, List.sum_eq_zero_iff, List.forall_mem_map]
  constructor
  · rintro hcuts x ⟨a, ha, hl⟩
    exact (hcell a).mp (hcuts a ha) x hl
  · intro hacyclic a ha
    exact (hcell a).mpr fun x hl => hacyclic x ⟨a, ha, hl⟩

/-! ## The plain rendering -/

/-- The function gives the inside of every cell there is a way to, as its contents say and without
regard to where the cell is met. -/
def Unfolds (h : Heap) (v : Value) (inside : Nat → String) : Prop :=
  ∀ a, h.Mentions v a → inside a = (h.cells[a]?).elim "" (·.render inside)

section

variable {inside : Nat → String}

theorem contentsText_of_not_mem (hnew : a ∉ path) : h.contentsText mark path a =
    (h.cells[a]?).elim "" (·.render (h.contentsText mark (a :: path))) := by
  cases hc : h.cells[a]? with
  | none => exact contentsText_of_none hnew hc
  | some c => exact contentsText_of_cell hnew hc

-- Without cycles the walk never comes back to its path. So it agrees with everything that satisfies
-- its equations off the path, whether that keeps a path of its own or none.
theorem contentsText_eq_of_acyclic (texts : List Nat → Nat → String) (hacyclic : h.Acyclic v)
    (htexts : ∀ path a, h.Mentions v a → a ∉ path →
      texts path a = (h.cells[a]?).elim "" (·.render (texts (a :: path))))
    (path path' : List Nat) (a : Nat) (ha : h.Mentions v a) (hfree : ∀ p ∈ path, ¬ h.Leads a p)
    (hfree' : ∀ p ∈ path', ¬ h.Leads a p) : h.contentsText mark path a = texts path' a := by
  induction path, a using walk_induction (h := h) generalizing path' with
  | known path a hmem => exact absurd (.here a) (hfree a hmem)
  | none path a hnew hc =>
    have hnew' : a ∉ path' := fun hmem => hfree' a hmem (.here a)
    rw [contentsText_of_none hnew hc, htexts path' a ha hnew', hc, Option.elim_none]
  | cell path a c hnew hc ih =>
    have hnew' : a ∉ path' := fun hmem => hfree' a hmem (.here a)
    rw [contentsText_of_cell hnew hc, htexts path' a ha hnew', hc, Option.elim_some]
    refine Cell.render_congr fun b hb => ?_
    have hahead : ∀ {ps : List Nat}, (∀ p ∈ ps, ¬ h.Leads a p) → ∀ p ∈ a :: ps, ¬ h.Leads b p := by
      intro ps hps p hp hl
      rcases List.mem_cons.mp hp with rfl | hp
      · exact hacyclic p ha ⟨c, b, hc, hb, hl⟩
      · exact hps p hp (.into hc hb hl)
    exact ih b hb (a :: path') (ha.enter hc hb) (hahead hfree) (hahead hfree')

theorem unfolds_contentsText (hacyclic : h.Acyclic v) : h.Unfolds v (h.contentsText mark []) := by
  intro a ha
  rw [contentsText_of_not_mem List.not_mem_nil]
  cases hc : h.cells[a]? with
  | none => rfl
  | some c =>
    refine Cell.render_congr fun b hb => ?_
    refine contentsText_eq_of_acyclic (h.contentsText mark) hacyclic
      (fun _ _ _ => contentsText_of_not_mem) [a] [] b (ha.enter hc hb) (fun p hp hl => ?_)
      (fun p hp => absurd hp List.not_mem_nil)
    rw [List.mem_singleton] at hp
    subst hp
    exact hacyclic p ha ⟨c, b, hc, hb, hl⟩

theorem Unfolds.length_le (hinside : h.Unfolds v inside) (hl : h.Leads a b) (ha : h.Mentions v a) :
    (inside b).length ≤ (inside a).length := by
  induction hl with
  | here a => exact Nat.le_refl _
  | @into a b t c hc hb _ ih =>
    have hlt : (inside b).length < (inside a).length := by
      rw [hinside a ha, hc]
      exact Cell.length_lt_render hb
    exact (ih (ha.enter hc hb)).trans hlt.le

/-- No text is longer than itself, so a plain rendering does not meet a cell inside itself. -/
theorem Unfolds.acyclic (hinside : h.Unfolds v inside) : h.Acyclic v := by
  rintro a ha ⟨c, b, hc, hb, hback⟩
  have hlt : (inside b).length < (inside a).length := by
    rw [hinside a ha, hc]
    exact Cell.length_lt_render hb
  have hle := hinside.length_le hback (ha.enter hc hb)
  omega

theorem Unfolds.textMarked_eq (hinside : h.Unfolds v inside) (mark : String) :
    h.textMarked mark v = v.render inside := by
  refine Value.render_congr v fun a ha => ?_
  refine contentsText_eq_of_acyclic (fun _ => inside) hinside.acyclic
    (fun _ b hb _ => hinside b hb) [] [] a (.self ha) ?_ ?_
  all_goals exact fun p hp => absurd hp List.not_mem_nil

end

/-- The text of a value is the plain rendering, which keeps no path, wherever that exists: exactly
where no cell on the way holds itself. Elsewhere the text is cut short. A mark for the cuts shows in
a text as often as the text is cut short. -/
theorem text_cut_short_iff_cyclic (h : Heap) (v : Value) :
    h.text v = h.textMarked "..." v ∧
    (∀ mark, (h.textMarked mark v).length = (h.textMarked "" v).length + h.cuts v * mark.length) ∧
    (0 < h.cuts v ↔ ∃ a, h.Mentions v a ∧ h.InsideItself a) ∧
    (h.Acyclic v ↔ ∃ inside, h.Unfolds v inside) ∧
    ∀ inside, h.Unfolds v inside → ∀ mark, h.textMarked mark v = v.render inside := by
  refine ⟨h.text_eq v, fun mark => h.length_textMarked mark v, ?_, ?_, ?_⟩
  · rw [Nat.pos_iff_ne_zero, ne_eq, cuts_eq_zero_iff, Acyclic]
    push Not
    rfl
  · constructor
    · exact fun hacyclic => ⟨h.contentsText "" [], unfolds_contentsText hacyclic⟩
    · rintro ⟨inside, hinside⟩
      exact hinside.acyclic
  · exact fun inside hinside => hinside.textMarked_eq

/-- A list that stands twice in another is shown twice; a list in itself is not. -/
theorem text_cut_short_iff_cyclic_shared :
    (⟨#[.list [.int 1], .list [.list 0, .list 0]]⟩ : Heap).text (.list 1) = "'((1) (1))" ∧
      0 < (⟨#[.list [.list 0]]⟩ : Heap).cuts (.list 0) := by
  constructor
  · obtain ⟨htext, -, -, -, hplain⟩ := text_cut_short_iff_cyclic
      ⟨#[.list [.int 1], .list [.list 0, .list 0]]⟩ (.list 1)
    rw [htext, hplain (fun a => if a = 0 then "1" else if a = 1 then "(1) (1)" else "")]
    · rfl
    · rintro (_ | _ | a) _
      · rfl
      · rfl
      · rfl
  · obtain ⟨-, -, hcuts, -⟩ := text_cut_short_iff_cyclic ⟨#[.list [.list 0]]⟩ (.list 0)
    refine hcuts.mpr ⟨0, ⟨0, List.mem_singleton_self 0, .here 0⟩, .list [.list 0], 0, rfl, ?_, .here 0⟩
    exact List.mem_singleton_self 0

end Heap

end Lisplet
