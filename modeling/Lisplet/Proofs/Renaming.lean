import Lisplet.Proofs.Pairing
import Lisplet.Proofs.Showing
import Lisplet.Proofs.Walks

/-!
# Cells at other addresses

A heap may hold the cells of another one at other addresses, and values mention a cell by its address.
Nothing that a walk through the heap finds out depends on where a cell is: not the text of a value, not
what the text shows, not whether two values are equal.
-/

namespace Lisplet

/-- Every cell of the second run has been moved from its address. -/
def Pairing.along (move : Nat → Nat) : Pairing where
  list a b := a = move b
  struct a b := a = move b

inductive Pairing.AlikeCell (p : Pairing) : Option Cell → Option Cell → Prop
  | none : AlikeCell p none none
  | list {vs ws : List Value} : p.AlikeAll vs ws → AlikeCell p (some (.list vs)) (some (.list ws))
  | struct {r t : Record Value} : p.AlikeFields r t →
      AlikeCell p (some (.struct r)) (some (.struct t))

/-- The first heap has the cells of the second, each at the address it has been moved to. -/
def Heap.Moves (move : Nat → Nat) (h k : Heap) : Prop :=
  ∀ a, (Pairing.along move).AlikeCell h.cells[move a]? k.cells[a]?

namespace Pairing

variable {p : Pairing} {move : Nat → Nat} {v w v' w' : Value} {vs ws vs' ws' : List Value}
  {r t r' t' : Record Value} {c d c' d' : Cell} {β : Type}

theorem AlikeAll.map_eq {f g : Value → β} (hfg : ∀ {v w}, p.Alike v w → f v = g w)
    (h : p.AlikeAll vs ws) : vs.map f = ws.map g := by
  induction vs generalizing ws with
  | nil =>
    cases h
    rfl
  | cons v vs ih =>
    cases h with
    | cons hv hs => rw [List.map_cons, List.map_cons, hfg hv, ih hs]

theorem AlikeFields.map_eq {f g : String × Value → β}
    (hfg : ∀ {v w} key, p.Alike v w → f (key, v) = g (key, w)) (h : p.AlikeFields r t) :
    r.map f = t.map g := by
  induction r generalizing t with
  | nil =>
    cases h
    rfl
  | cons e r ih =>
    cases h with
    | cons key hv hr => rw [List.map_cons, List.map_cons, hfg key hv, ih hr]

/-! ## Texts -/

section

variable {inside inside' : Nat → String}

mutual

theorem Alike.render (h : ∀ a, inside (move a) = inside' a) :
    ∀ {v w : Value}, (along move).Alike v w → v.render inside = w.render inside'
  | _, _, .nil | _, _, .true | _, _, .int _ | _, _, .double _ | _, _, .str _ => rfl
  | .list _, .list b, .list rfl => by rw [Value.render, Value.render, h b]
  | .struct _, .struct b, .struct rfl => by rw [Value.render, Value.render, h b]
  | _, _, .symbol _ => rfl
  | _, _, .expr hs => by rw [Value.render, Value.render, AlikeAll.renderAll h hs]
  | _, _, .primitive .. | _, _, .checked .. => rfl
  | .closure _ r _ _, .closure _ t _ _, .closure _ _ hr hv => by
    have hkeys : r.map Prod.fst = t.map Prod.fst := hr.keys_eq
    rw [Value.render, Value.render, hkeys, Alike.render h hv]
  | _, _, .leaving hv => by rw [Value.render, Value.render, Alike.render h hv]
  | _, _, .breaking hv => by rw [Value.render, Value.render, Alike.render h hv]
  | _, _, .goto _ | _, _, .label _ | _, _, .error _ => rfl

theorem AlikeAll.renderAll (h : ∀ a, inside (move a) = inside' a) :
    ∀ {vs ws : List Value}, (along move).AlikeAll vs ws →
      Value.renderAll inside vs = Value.renderAll inside' ws
  | _, _, .nil => rfl
  | _, _, .cons hv hs => by
    rw [Value.renderAll, Value.renderAll, Alike.render h hv, AlikeAll.renderAll h hs]

end

theorem Alike.renderItem (h : ∀ a, inside (move a) = inside' a) (hv : (along move).Alike v w) :
    v.renderItem inside = w.renderItem inside' := by
  have hrender := hv.render h
  cases hv with
  | @list a b hab =>
    cases hab
    rw [Value.renderItem, Value.renderItem, h b]
  | _ => exact hrender

theorem AlikeCell.render (h : ∀ a, inside (move a) = inside' a)
    (hc : (along move).AlikeCell (some c) (some d)) : c.render inside = d.render inside' := by
  cases hc with
  | list hs => exact congrArg (" ".intercalate ·) (hs.map_eq fun hv => hv.renderItem h)
  | struct hr =>
    refine congrArg (" ".intercalate ·) (hr.map_eq fun key hv => ?_)
    exact congrArg (key ++ ": " ++ ·) (hv.render h)

end

/-! ## The cells of a value -/

mutual

theorem Alike.cells : ∀ {v w : Value}, (along move).Alike v w → v.cells = w.cells.map move
  | _, _, .nil | _, _, .true | _, _, .int _ | _, _, .double _ | _, _, .str _ => rfl
  | .list _, .list _, .list rfl => rfl
  | .struct _, .struct _, .struct rfl => rfl
  | _, _, .symbol _ => rfl
  | _, _, .expr hs => AlikeAll.cellsAll hs
  | _, _, .primitive .. | _, _, .checked .. => rfl
  | _, _, .closure _ _ _ hv => by rw [Value.cells, Value.cells, Alike.cells hv]
  | _, _, .leaving hv => by rw [Value.cells, Value.cells, Alike.cells hv]
  | _, _, .breaking hv => by rw [Value.cells, Value.cells, Alike.cells hv]
  | _, _, .goto _ | _, _, .label _ | _, _, .error _ => rfl

theorem AlikeAll.cellsAll : ∀ {vs ws : List Value}, (along move).AlikeAll vs ws →
    Value.cellsAll vs = (Value.cellsAll ws).map move
  | _, _, .nil => rfl
  | _, _, .cons hv hs => by
    rw [Value.cellsAll, Value.cellsAll, Alike.cells hv, AlikeAll.cellsAll hs, List.map_append]

end

theorem AlikeCell.cells (hc : (along move).AlikeCell (some c) (some d)) :
    c.cells = d.cells.map move := by
  cases hc with
  | list hs =>
    rw [Cell.cells, Cell.cells, List.map_flatMap, List.flatMap_def, List.flatMap_def]
    exact congrArg List.flatten (hs.map_eq fun hv => hv.cells)
  | struct hr =>
    rw [Cell.cells, Cell.cells, List.map_flatMap, List.flatMap_def, List.flatMap_def]
    exact congrArg List.flatten (hr.map_eq fun _ hv => hv.cells)

/-! ## Comparison -/

section

variable {cells cells' : Nat → Nat → Bool}

mutual

theorem Alike.same (h : ∀ a b, cells (move a) (move b) = cells' a b) :
    ∀ {v v' w w' : Value}, (along move).Alike v v' → (along move).Alike w w' →
      v.same cells w = v'.same cells' w'
  | _, _, _, _, .nil, hw | _, _, _, _, .true, hw | _, _, _, _, .int _, hw
  | _, _, _, _, .double _, hw | _, _, _, _, .str _, hw | _, _, _, _, .symbol _, hw
  | _, _, _, _, .primitive .., hw | _, _, _, _, .checked .., hw | _, _, _, _, .closure .., hw
  | _, _, _, _, .goto _, hw | _, _, _, _, .label _, hw | _, _, _, _, .error _, hw => by
    cases hw <;> rfl
  | .list _, .list a, _, _, .list rfl, hw => by
    cases hw with
    | list hb =>
      cases hb
      exact h a _
    | _ => rfl
  | .struct _, .struct a, _, _, .struct rfl, hw => by
    cases hw with
    | struct hb =>
      cases hb
      exact h a _
    | _ => rfl
  | _, _, _, _, .expr hs, hw => by
    cases hw with
    | expr hs' => exact AlikeAll.sameAll h hs hs'
    | _ => rfl
  | _, _, _, _, .leaving hv, hw => by
    cases hw with
    | leaving hw => rw [Value.same, Value.same, Alike.same h hv hw]
    | _ => rfl
  | _, _, _, _, .breaking hv, hw => by
    cases hw with
    | breaking hw => rw [Value.same, Value.same, Alike.same h hv hw]
    | _ => rfl

theorem AlikeAll.sameAll (h : ∀ a b, cells (move a) (move b) = cells' a b) :
    ∀ {vs vs' ws ws' : List Value}, (along move).AlikeAll vs vs' → (along move).AlikeAll ws ws' →
      Value.sameAll cells vs ws = Value.sameAll cells' vs' ws'
  | _, _, _, _, .nil, .nil | _, _, _, _, .nil, .cons _ _ | _, _, _, _, .cons _ _, .nil => rfl
  | _, _, _, _, .cons hv hs, .cons hw hs' => by
    rw [Value.sameAll, Value.sameAll, Alike.same h hv hw, AlikeAll.sameAll h hs hs']

end

theorem AlikeCell.same (h : ∀ a b, cells (move a) (move b) = cells' a b)
    (hc : (along move).AlikeCell (some c) (some c')) (hd : (along move).AlikeCell (some d) (some d')) :
    c.same cells d = c'.same cells' d' := by
  cases hc with
  | list hs =>
    cases hd with
    | list hs' => exact hs.sameAll h hs'
    | struct => rfl
  | struct hr =>
    cases hd with
    | list => rfl
    | struct hr' =>
      have hall : ∀ (r : Record Value) (f : String × Value → Bool), r.all f = (r.map f).all id :=
        fun r f => (List.all_map (l := r) (f := f) (p := id)).symm
      rw [Cell.same, Cell.same, hr.length_eq, hr'.length_eq, hall, hall]
      refine congrArg (_ && List.all · id) (hr.map_eq fun {v w} key hv => ?_)
      dsimp only
      rcases hr'.get? key with ⟨hget, hget'⟩ | ⟨u, u', hget, hget', hu⟩
      · rw [hget, hget']
      · rw [hget, hget']
        exact hv.same h hu

end

end Pairing

namespace Heap

variable {move : Nat → Nat} {h k : Heap} {v w v' w' : Value} {a b t : Nat}

/-! ## Walks -/

theorem Moves.cell {d : Cell} (hm : h.Moves move k) (hd : k.cells[a]? = some d) :
    ∃ c, h.cells[move a]? = some c ∧ (Pairing.along move).AlikeCell (some c) (some d) := by
  have ha := hm a
  rw [hd] at ha
  cases hc : h.cells[move a]? with
  | none =>
    rw [hc] at ha
    cases ha
  | some c => exact ⟨c, rfl, hc ▸ ha⟩

theorem Moves.none (hm : h.Moves move k) (hk : k.cells[a]? = none) : h.cells[move a]? = none := by
  have ha := hm a
  rw [hk] at ha
  cases hc : h.cells[move a]? with
  | none => rfl
  | some c =>
    rw [hc] at ha
    cases ha

variable (hmove : Function.Injective move) (hm : h.Moves move k)
include hmove hm

theorem Moves.contentsText (mark : String) (path : List Nat) (a : Nat) :
    h.contentsText mark (path.map move) (move a) = k.contentsText mark path a := by
  have hmem : move a ∈ path.map move ↔ a ∈ path := List.mem_map_of_injective hmove
  by_cases hnew : a ∈ path
  · rw [contentsText_of_mem hnew, contentsText_of_mem (hmem.mpr hnew)]
  · cases hk : k.cells[a]? with
    | none =>
      rw [contentsText_of_none hnew hk, contentsText_of_none (mt hmem.mp hnew) (hm.none hk)]
    | some d =>
      obtain ⟨c, hc, halike⟩ := hm.cell hk
      have hfewer := unvisited_cons_lt (mem_places hk) hnew
      rw [contentsText_of_cell hnew hk, contentsText_of_cell (mt hmem.mp hnew) hc]
      exact halike.render fun b => Moves.contentsText mark (a :: path) b
termination_by unvisited k.places path

theorem Moves.text (hv : (Pairing.along move).Alike v v') : h.text v = k.text v' := by
  rw [text_eq, text_eq]
  exact hv.render fun a => hm.contentsText hmove "..." [] a

theorem Moves.leads : h.Leads (move a) (move t) ↔ k.Leads a t := by
  constructor
  · intro hl
    generalize hx : move a = x at hl
    generalize hy : move t = y at hl
    induction hl generalizing a with
    | here x =>
      obtain rfl := hmove (hx.trans hy.symm)
      exact .here a
    | @into x b y c hc hb _ ih =>
      subst hx
      cases hk : k.cells[a]? with
      | none => cases (hm.none hk).symm.trans hc
      | some d =>
        obtain ⟨c', hc', halike⟩ := hm.cell hk
        cases hc'.symm.trans hc
        rw [halike.cells] at hb
        obtain ⟨b', hb', rfl⟩ := List.mem_map.mp hb
        exact .into hk hb' (ih rfl hy)
  · intro hl
    induction hl with
    | here a => exact .here (move a)
    | into hk hb _ ih =>
      obtain ⟨c, hc, halike⟩ := hm.cell hk
      refine .into hc ?_ ih
      rw [halike.cells]
      exact List.mem_map_of_mem hb

theorem Moves.shows (t : Nat) (hv : (Pairing.along move).Alike v v') :
    h.shows (move t) v = k.shows t v' := by
  rw [Bool.eq_iff_iff, shows_iff, shows_iff, hv.cells]
  constructor
  · rintro ⟨_, hmem, hl⟩
    obtain ⟨a, ha, rfl⟩ := List.mem_map.mp hmem
    exact ⟨a, ha, (hm.leads hmove).mp hl⟩
  · rintro ⟨a, ha, hl⟩
    exact ⟨move a, List.mem_map_of_mem ha, (hm.leads hmove).mpr hl⟩

theorem Moves.sameContents (path : List (Nat × Nat)) (a b : Nat) :
    h.sameContents (path.map (Prod.map move move)) (move a) (move b) = k.sameContents path a b := by
  have hknown : (move a = move b ∨ (move a, move b) ∈ path.map (Prod.map move move)) ↔
      (a = b ∨ (a, b) ∈ path) :=
    or_congr hmove.eq_iff (List.mem_map_of_injective (hmove.prodMap hmove) (a := (a, b)))
  by_cases hnew : a = b ∨ (a, b) ∈ path
  · rw [sameContents_of_known hnew, sameContents_of_known (hknown.mpr hnew)]
  · have hnew' := mt hknown.mp hnew
    cases ha : k.cells[a]? with
    | none =>
      rw [sameContents_of_none hnew (.inl ha), sameContents_of_none hnew' (.inl (hm.none ha))]
    | some c =>
      cases hb : k.cells[b]? with
      | none =>
        rw [sameContents_of_none hnew (.inr hb), sameContents_of_none hnew' (.inr (hm.none hb))]
      | some d =>
        obtain ⟨c', hc', hc⟩ := hm.cell ha
        obtain ⟨d', hd', hd⟩ := hm.cell hb
        have hplace : (a, b) ∈ k.places ×ˢ k.places :=
          List.pair_mem_product.mpr ⟨mem_places ha, mem_places hb⟩
        have hfewer := unvisited_cons_lt hplace fun hmem => hnew (.inr hmem)
        rw [sameContents_of_cells hnew ha hb, sameContents_of_cells hnew' hc' hd']
        exact hc.same (fun x y => Moves.sameContents ((a, b) :: path) x y) hd
termination_by unvisited (k.places ×ˢ k.places) path

theorem Moves.same (hv : (Pairing.along move).Alike v v') (hw : (Pairing.along move).Alike w w') :
    h.same v w = k.same v' w' := by
  rw [same_eq, same_eq]
  exact hv.same (fun a b => hm.sameContents hmove [] a b) hw

end Heap

end Lisplet
