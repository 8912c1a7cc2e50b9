import Lisplet.Proofs.Bisimilarity
import Lisplet.Proofs.Walks

/-!
# Equality is bisimilarity

The comparison of values takes two cells for equal when it meets them again inside themselves, and a
cell for equal to itself without looking. It decides bisimilarity nonetheless. If values are
bisimilar, the walk never comes upon a difference. If the walk finds no difference, there is none up
to any depth: what is assumed of a pair further out is needed of it only to a smaller depth.
-/

namespace Lisplet

/-! ## What a comparison needs of the cells -/

section

variable {f g : Nat → Nat → Bool}

mutual

theorem Value.same_mono (hfg : ∀ a b, f a b → g a b) : (v w : Value) → v.same f w → v.same g w
  | .list a, w, h => by
    cases w with
    | list b => exact hfg a b h
    | _ => exact h
  | .struct a, w, h => by
    cases w with
    | struct b => exact hfg a b h
    | _ => exact h
  | .expr xs, w, h => by
    cases w with
    | expr ys => exact Value.sameAll_mono hfg xs ys h
    | _ => exact h
  | .leaving v, w, h => by
    cases w with
    | leaving w => exact Value.same_mono hfg v w h
    | _ => exact h
  | .breaking v, w, h => by
    cases w with
    | breaking w => exact Value.same_mono hfg v w h
    | _ => exact h
  | .nil, w, h | .true, w, h | .int _, w, h | .double _, w, h | .str _, w, h | .symbol _, w, h
  | .primitive .., w, h | .checked .., w, h | .closure .., w, h | .goto _, w, h | .label _, w, h
  | .error _, w, h => by
    cases w <;> exact h

theorem Value.sameAll_mono (hfg : ∀ a b, f a b → g a b) : (vs ws : List Value) →
    Value.sameAll f vs ws → Value.sameAll g vs ws
  | [], ws, h => by
    cases ws <;> exact h
  | v :: vs, ws, h => by
    cases ws with
    | nil => exact h
    | cons w ws =>
      rw [Value.sameAll, Bool.and_eq_true] at h ⊢
      exact ⟨Value.same_mono hfg v w h.1, Value.sameAll_mono hfg vs ws h.2⟩

end

theorem Value.sameAll_iff {vs ws : List Value} :
    Value.sameAll f vs ws ↔ List.Forall₂ (fun v w => v.same f w) vs ws := by
  induction vs generalizing ws with
  | nil => cases ws <;> simp [Value.sameAll]
  | cons v vs ih =>
    cases ws with
    | nil => simp [Value.sameAll]
    | cons w ws => rw [Value.sameAll, Bool.and_eq_true, ih, List.forall₂_cons]

theorem Cell.same_struct_iff {fs gs : Record Value} : (Cell.struct fs).same f (.struct gs) ↔
    fs.length = gs.length ∧
      ∀ key v, (key, v) ∈ fs → ∃ w, gs.get? key = some w ∧ v.same f w := by
  rw [Cell.same, Bool.and_eq_true, beq_iff_eq, List.all_eq_true, Prod.forall]
  refine and_congr_right fun _ => forall₃_congr fun key v _ => ?_
  dsimp only
  cases Record.get? key gs <;> simp

theorem Cell.same_mono (hfg : ∀ a b, f a b → g a b) {c d : Cell} (h : c.same f d) : c.same g d := by
  cases c with
  | list xs =>
    cases d with
    | list ys => exact Value.sameAll_mono hfg xs ys h
    | struct gs => exact h
  | struct fs =>
    cases d with
    | list ys => exact h
    | struct gs =>
      obtain ⟨hlength, hfields⟩ := Cell.same_struct_iff.mp h
      refine Cell.same_struct_iff.mpr ⟨hlength, fun key v hmem => ?_⟩
      obtain ⟨w, hw, hvw⟩ := hfields key v hmem
      exact ⟨w, hw, Value.same_mono hfg v w hvw⟩

end

namespace Heap

variable {h : Heap} {u v w x : Value} {a b : Nat} {R : Value → Value → Prop}

/-! ## Bisimilar values are equal -/

def RelatedCells (R : Value → Value → Prop) (a b : Nat) : Prop :=
  R (.list a) (.list b) ∨ R (.struct a) (.struct b)

section

variable {f : Nat → Nat → Bool}

mutual

theorem same_of_related (hR : h.IsBisimulation R) (hcells : ∀ a b, RelatedCells R a b → f a b) :
    (v w : Value) → R v w → v.same f w
  | .list _, w, hvw => by
    cases hR _ w hvw with
    | list => exact hcells _ _ (.inl hvw)
  | .struct _, w, hvw => by
    cases hR _ w hvw with
    | struct => exact hcells _ _ (.inr hvw)
  | .expr xs, w, hvw => by
    cases hR _ w hvw with
    | expr hitems => exact sameAll_of_related hR hcells xs _ hitems
  | .leaving v, w, hvw => by
    cases hR _ w hvw with
    | leaving hpayload => exact same_of_related hR hcells v _ hpayload
  | .breaking v, w, hvw => by
    cases hR _ w hvw with
    | breaking hpayload => exact same_of_related hR hcells v _ hpayload
  | .double _, w, hvw => by
    cases hR _ w hvw with
    | double hxy => exact hxy
  | .error _, w, hvw => by
    cases hR _ w hvw with
    | error hmessage hcontext => simp [Value.same, Error.same, hmessage, hcontext]
  | .nil, w, hvw | .true, w, hvw | .int _, w, hvw | .str _, w, hvw | .symbol _, w, hvw
  | .primitive .., w, hvw | .checked .., w, hvw | .closure .., w, hvw | .goto _, w, hvw
  | .label _, w, hvw => by
    cases hR _ w hvw
    simp [Value.same]

theorem sameAll_of_related (hR : h.IsBisimulation R)
    (hcells : ∀ a b, RelatedCells R a b → f a b) :
    (vs ws : List Value) → List.Forall₂ R vs ws → Value.sameAll f vs ws
  | [], _, .nil => rfl
  | v :: vs, w :: ws, .cons hvw hrest => by
    rw [Value.sameAll, same_of_related hR hcells v w hvw, sameAll_of_related hR hcells vs ws hrest]
    rfl

end

end

-- Along a relation between matching values the walk meets no difference, whatever its path is.
theorem sameContents_of_related (hh : h.DistinctKeys) (hR : h.IsBisimulation R)
    (path : List (Nat × Nat)) (a b : Nat) (hab : RelatedCells R a b) : h.sameContents path a b := by
  by_cases hknown : a = b ∨ (a, b) ∈ path
  · exact sameContents_of_known hknown
  · have hfewer : ∀ {c d : Cell}, h.cells[a]? = some c → h.cells[b]? = some d →
        unvisited (h.places ×ˢ h.places) ((a, b) :: path) <
          unvisited (h.places ×ˢ h.places) path := fun hc hd =>
      unvisited_cons_lt (List.pair_mem_product.mpr ⟨mem_places hc, mem_places hd⟩)
        fun hmem => hknown (.inr hmem)
    rcases hab with hab | hab
    · cases hR _ _ hab with
      | list ha hb hitems =>
        have hsmaller := hfewer ha hb
        rw [sameContents_of_cells hknown ha hb]
        exact sameAll_of_related hR
          (fun x y => sameContents_of_related hh hR ((a, b) :: path) x y) _ _ hitems
    · cases hR _ _ hab with
      | @struct _ _ fs gs ha hb hfields =>
        have hsmaller := hfewer ha hb
        rw [sameContents_of_cells hknown ha hb, Cell.same_struct_iff]
        obtain ⟨hlength, hmem⟩ := (Record.rel_get?_iff (hh a fs ha) (hh b gs hb)).mp hfields
        refine ⟨hlength, fun key v hv => ?_⟩
        obtain ⟨w, hw, hvw⟩ := hmem key v hv
        exact ⟨w, hw, same_of_related hR
          (fun x y => sameContents_of_related hh hR ((a, b) :: path) x y) v w hvw⟩
termination_by unvisited (h.places ×ˢ h.places) path

theorem same_of_bisimilar (hh : h.DistinctKeys) (hvw : h.Bisimilar v w) : h.same v w := by
  obtain ⟨R, hR, hvw⟩ := hvw
  rw [same_eq]
  exact same_of_related hR (sameContents_of_related hh hR []) v w hvw

/-! ## Equal values are bisimilar -/

/-- Whether the cells at `a` and `b` are equal as far as `n` steps show, with no regard to a path. -/
def agree (h : Heap) : Nat → Nat → Nat → Bool
  | 0, _, _ => true
  | n + 1, a, b =>
    a == b ||
      match h.cells[a]?, h.cells[b]? with
      | some c, some d => c.same (h.agree n) d
      | _, _ => false

variable {n : Nat} {c d : Cell}

theorem agree_self (h : Heap) (n a : Nat) : h.agree n a a := by
  cases n <;> simp [agree]

theorem agree_of_cells (hc : h.cells[a]? = some c) (hd : h.cells[b]? = some d)
    (hcd : c.same (h.agree n) d) : h.agree (n + 1) a b := by
  simp [agree, hc, hd, hcd]

theorem cells_of_agree (hne : a ≠ b) (hab : h.agree (n + 1) a b) :
    ∃ c d, h.cells[a]? = some c ∧ h.cells[b]? = some d ∧ c.same (h.agree n) d := by
  rw [agree, Bool.or_eq_true, beq_iff_eq] at hab
  rcases hab with heq | hab
  · exact absurd heq hne
  · split at hab
    next c d hc hd => exact ⟨c, d, hc, hd, hab⟩
    next => cases hab

/-- What shows no difference in more steps shows none in fewer. -/
theorem agree_of_succ (n a b : Nat) (hab : h.agree (n + 1) a b) : h.agree n a b := by
  induction n generalizing a b with
  | zero => rfl
  | succ n ih =>
    by_cases heq : a = b
    · exact heq ▸ h.agree_self (n + 1) a
    · obtain ⟨c, d, hc, hd, hcd⟩ := cells_of_agree heq hab
      exact agree_of_cells hc hd (Cell.same_mono ih hcd)

-- By induction on the number of steps. The pair that is entered is on the path from then on, and the
-- induction hypothesis, used once for the pair itself, shows that it may be.
theorem agree_of_sameContents (n : Nat) {path : List (Nat × Nat)} {a b : Nat}
    (hab : h.sameContents path a b) (hpath : ∀ p q, (p, q) ∈ path → h.agree n p q) :
    h.agree n a b := by
  induction n generalizing path a b with
  | zero => rfl
  | succ n ih =>
    by_cases hknown : a = b ∨ (a, b) ∈ path
    · rcases hknown with heq | hmem
      · exact heq ▸ h.agree_self (n + 1) a
      · exact hpath a b hmem
    · have hpath' : ∀ p q, (p, q) ∈ path → h.agree n p q := fun p q hmem =>
        agree_of_succ n p q (hpath p q hmem)
      have hentered : ∀ p q, (p, q) ∈ (a, b) :: path → h.agree n p q := by
        intro p q hmem
        rcases List.mem_cons.mp hmem with heq | hmem
        · cases heq
          exact ih hab hpath'
        · exact hpath' p q hmem
      cases hc : h.cells[a]? with
      | none =>
        rw [sameContents_of_none hknown (.inl hc)] at hab
        cases hab
      | some c =>
        cases hd : h.cells[b]? with
        | none =>
          rw [sameContents_of_none hknown (.inr hd)] at hab
          cases hab
        | some d =>
          rw [sameContents_of_cells hknown hc hd] at hab
          exact agree_of_cells hc hd (Cell.same_mono (fun x y hxy => ih hxy hentered) hab)

theorem same_self {f : Nat → Nat → Bool} (hf : ∀ a, f a a) (hv : h.Comparable v) : v.same f v := by
  refine same_of_related h.isBisimulation_eq ?_ v v ⟨rfl, hv⟩
  rintro a b (⟨heq, -⟩ | ⟨heq, -⟩)
  all_goals
    cases heq
    exact hf a

theorem items_of_agree {xs ys : List Value} (hv : h.Comparable (.list a))
    (ha : h.cells[a]? = some (.list xs)) (hb : h.cells[b]? = some (.list ys))
    (hab : h.agree (n + 1) a b) : List.Forall₂ (fun v w => v.same (h.agree n) w) xs ys := by
  by_cases heq : a = b
  · subst heq
    cases ha.symm.trans hb
    exact List.forall₂_same.mpr fun u hu => same_self (h.agree_self n) (hv.part (.item ha hu))
  · obtain ⟨c, d, hc, hd, hcd⟩ := cells_of_agree heq hab
    cases ha.symm.trans hc
    cases hb.symm.trans hd
    exact Value.sameAll_iff.mp hcd

theorem fields_of_agree {fs gs : Record Value} (hh : h.DistinctKeys)
    (hv : h.Comparable (.struct a)) (ha : h.cells[a]? = some (.struct fs))
    (hb : h.cells[b]? = some (.struct gs)) (hab : h.agree (n + 1) a b) (key : String) :
    Option.Rel (fun v w => v.same (h.agree n) w) (fs.get? key) (gs.get? key) := by
  by_cases heq : a = b
  · subst heq
    cases ha.symm.trans hb
    cases hu : Record.get? key fs with
    | none => exact .none
    | some u =>
      exact .some (same_self (h.agree_self n) (hv.part (.field ha (Record.mem_of_get? hu))))
  · obtain ⟨c, d, hc, hd, hcd⟩ := cells_of_agree heq hab
    cases ha.symm.trans hc
    cases hb.symm.trans hd
    exact (Record.rel_get?_iff (hh a fs ha) (hh b gs hb)).mpr (Cell.same_struct_iff.mp hcd) key

/-- No number of steps shows a difference between the values, and both can be compared. -/
structure Indistinct (h : Heap) (v w : Value) : Prop where
  left : h.Comparable v
  right : h.Comparable w
  same (n : Nat) : v.same (h.agree n) w

theorem Indistinct.list (hvw : h.Indistinct (.list a) (.list b)) :
    h.Matches h.Indistinct (.list a) (.list b) := by
  obtain ⟨xs, ha⟩ := hvw.left.list
  obtain ⟨ys, hb⟩ := hvw.right.list
  have hitems := forall₂_forall fun n => items_of_agree hvw.left ha hb (hvw.same (n + 1))
  refine .list ha hb (forall₂_imp_of_mem hitems fun u hu t ht hut => ?_)
  exact ⟨hvw.left.part (.item ha hu), hvw.right.part (.item hb ht), hut⟩

theorem Indistinct.expr {xs ys : List Value} (hvw : h.Indistinct (.expr xs) (.expr ys)) :
    h.Matches h.Indistinct (.expr xs) (.expr ys) := by
  have hitems := forall₂_forall fun n => Value.sameAll_iff.mp (hvw.same n)
  refine .expr (forall₂_imp_of_mem hitems fun u hu t ht hut => ?_)
  exact ⟨hvw.left.part (.expr hu), hvw.right.part (.expr ht), hut⟩

theorem Indistinct.struct (hh : h.DistinctKeys) (hvw : h.Indistinct (.struct a) (.struct b)) :
    h.Matches h.Indistinct (.struct a) (.struct b) := by
  obtain ⟨fs, ha⟩ := hvw.left.struct
  obtain ⟨gs, hb⟩ := hvw.right.struct
  refine .struct ha hb fun key => ?_
  have hkey := optionRel_forall fun n =>
    fields_of_agree hh hvw.left ha hb (hvw.same (n + 1)) key
  refine optionRel_imp_of_eq hkey fun u t hu ht hut => ?_
  exact ⟨hvw.left.part (.field ha (Record.mem_of_get? hu)),
    hvw.right.part (.field hb (Record.mem_of_get? ht)), hut⟩

-- Constructor by constructor: values of two constructors are told apart at once.
theorem isBisimulation_indistinct (hh : h.DistinctKeys) : h.IsBisimulation h.Indistinct := by
  intro v w hvw
  have hsame := hvw.same 0
  cases v with
  | nil => cases w with
    | nil => exact .nil
    | _ => cases hsame
  | true => cases w with
    | true => exact .true
    | _ => cases hsame
  | int m => cases w with
    | int n =>
      obtain rfl : m = n := beq_iff_eq.mp hsame
      exact .int m
    | _ => cases hsame
  | double x => cases w with
    | double y => exact .double hsame
    | _ => cases hsame
  | str s => cases w with
    | str t =>
      obtain rfl : s = t := beq_iff_eq.mp hsame
      exact .str s
    | _ => cases hsame
  | symbol p => cases w with
    | symbol q =>
      obtain rfl : p = q := beq_iff_eq.mp hsame
      exact .symbol p
    | _ => cases hsame
  | goto s => cases w with
    | goto t =>
      obtain rfl : s = t := beq_iff_eq.mp hsame
      exact .goto s
    | _ => cases hsame
  | label s => cases w with
    | label t =>
      obtain rfl : s = t := beq_iff_eq.mp hsame
      exact .label s
    | _ => cases hsame
  | primitive i => cases w with
    | primitive j =>
      obtain rfl : i = j := beq_iff_eq.mp hsame
      exact .primitive
    | _ => cases hsame
  | checked i => cases w with
    | checked j =>
      obtain rfl : i = j := beq_iff_eq.mp hsame
      exact .checked
    | _ => cases hsame
  | closure i => cases w with
    | closure j =>
      obtain rfl : i = j := beq_iff_eq.mp hsame
      exact .closure
    | _ => cases hsame
  | error e => cases w with
    | error f =>
      obtain ⟨hmessage, hcontext⟩ := Bool.and_eq_true_iff.mp hsame
      exact .error (beq_iff_eq.mp hmessage) (beq_iff_eq.mp hcontext)
    | _ => cases hsame
  | list a => cases w with
    | list b => exact hvw.list
    | _ => cases hsame
  | expr xs => cases w with
    | expr ys => exact hvw.expr
    | _ => cases hsame
  | struct a => cases w with
    | struct b => exact hvw.struct hh
    | _ => cases hsame
  | leaving u => cases w with
    | leaving t => exact .leaving ⟨hvw.left.part (.leaving u), hvw.right.part (.leaving t), hvw.same⟩
    | _ => cases hsame
  | breaking u => cases w with
    | breaking t =>
      exact .breaking ⟨hvw.left.part (.breaking u), hvw.right.part (.breaking t), hvw.same⟩
    | _ => cases hsame

theorem bisimilar_of_same (hh : h.DistinctKeys) (hv : h.Comparable v) (hw : h.Comparable w)
    (hvw : h.same v w) : h.Bisimilar v w := by
  refine ⟨h.Indistinct, isBisimulation_indistinct hh, hv, hw, fun n => ?_⟩
  rw [same_eq] at hvw
  exact Value.same_mono (fun a b hab => agree_of_sameContents n hab fun _ _ hmem =>
    absurd hmem List.not_mem_nil) v w hvw

/-! ## Equality -/

/-- The comparison of two values comes to an end without a budget, and finds them equal exactly if
they are bisimilar. So it is an equivalence, on values with cycles too. -/
theorem same_iff_bisimilar (hh : h.DistinctKeys) (hv : h.Comparable v) (hw : h.Comparable w)
    (hx : h.Comparable x) :
    h.same v w = v.same (h.sameContents []) w ∧
    (h.same v w = true ↔ h.Bisimilar v w) ∧
    h.same v v = true ∧
    h.same w v = h.same v w ∧
    (h.same v w = true → h.same w x = true → h.same v x = true) := by
  have hiff : ∀ {v w : Value}, h.Comparable v → h.Comparable w →
      (h.same v w = true ↔ h.Bisimilar v w) := fun hv hw =>
    ⟨bisimilar_of_same hh hv hw, same_of_bisimilar hh⟩
  refine ⟨h.same_eq v w, hiff hv hw, (hiff hv hv).mpr (bisimilar_self hv), ?_, ?_⟩
  · rw [Bool.eq_iff_iff, hiff hw hv, hiff hv hw]
    exact ⟨Bisimilar.symm, Bisimilar.symm⟩
  · intro hvw hwx
    exact (hiff hv hx).mpr (((hiff hv hw).mp hvw).trans ((hiff hw hx).mp hwx))

/-- Two lists, each of which holds itself beside a one, are equal. -/
theorem same_iff_bisimilar_knotted :
    (⟨#[.list [.int 1, .list 0], .list [.int 1, .list 1]]⟩ : Heap).same (.list 0) (.list 1) = true ∧
      (⟨#[.list [.int 1, .list 0], .list [.int 1, .list 1]]⟩ : Heap).same (.list 1) (.list 0) =
        true := by
  let h : Heap := ⟨#[.list [.int 1, .list 0], .list [.int 1, .list 1]]⟩
  have hkeys : h.DistinctKeys := by
    intro a fs ha
    match a with
    | 0 | 1 => cases ha
    | n + 2 => cases ha
  have hcell : ∀ a, a = 0 ∨ a = 1 → h.cells[a]? = some (.list [.int 1, .list a]) := by
    rintro a (rfl | rfl) <;> rfl
  have hcontains : ∀ a, a = 0 ∨ a = 1 → ∀ u, h.Contains (.list a) u → u = .list a ∨ u = .int 1 := by
    intro a ha u hu
    induction hu with
    | refl => exact .inl rfl
    | tail _ hpart ih =>
      rcases ih with rfl | rfl
      · cases hpart with
        | item hc hmem =>
          cases (hcell a ha).symm.trans hc
          simp only [List.mem_cons, List.not_mem_nil, or_false] at hmem
          exact hmem.symm
      · cases hpart
  have hcomparable : ∀ a, a = 0 ∨ a = 1 → h.Comparable (.list a) := by
    intro a ha
    constructor
    · intro u hu
      rcases hcontains a ha u hu with rfl | rfl
      · exact ⟨_, hcell a ha⟩
      · trivial
    · intro hnan
      rcases hcontains a ha _ hnan with heq | heq
      · cases heq
      · cases heq
  have h0 := hcomparable 0 (.inl rfl)
  have h1 := hcomparable 1 (.inr rfl)
  obtain ⟨-, hiff, -, hsymm, -⟩ := same_iff_bisimilar hkeys h0 h1 h0
  have hsame : h.same (.list 0) (.list 1) = true := by
    refine hiff.mpr ⟨fun v w => v = .int 1 ∧ w = .int 1 ∨ v = .list 0 ∧ w = .list 1, ?_,
      .inr ⟨rfl, rfl⟩⟩
    rintro v w (⟨rfl, rfl⟩ | ⟨rfl, rfl⟩)
    · exact .int 1
    · exact .list (hcell 0 (.inl rfl)) (hcell 1 (.inr rfl))
        (.cons (.inl ⟨rfl, rfl⟩) (.cons (.inr ⟨rfl, rfl⟩) .nil))
  exact ⟨hsame, hsymm.trans hsame⟩

end Heap

end Lisplet
