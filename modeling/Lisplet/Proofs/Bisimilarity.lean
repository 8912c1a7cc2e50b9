import Lisplet.Proofs.Evolution
import Lisplet.Proofs.Literals

/-!
# Bisimilar values

Two values are bisimilar if some relation holds between them under which related values look the same
and have related parts. On heaps with cycles this says what it is for two values to have the same
shape all the way down. Bisimilarity is symmetric and transitive; a value is bisimilar to itself
unless there is a way from it to a NaN, which differs from everything.
-/

namespace Lisplet

/-! ## Numbers -/

namespace Double

/-- The number that a double stands for: none, an infinity, or a fraction. -/
def number? : Double → Option (Bool ⊕ ℚ)
  | .nan => none
  | .infinite s => some (.inl s)
  | .finite s m e => some (.inr (signed s m * 2 ^ e))

theorem signed_shiftLeft {s : Bool} {m : Nat} {e g : Int} (hg : g ≤ e) :
    ((signed s (m <<< (e - g).toNat) : Int) : ℚ) = signed s m * 2 ^ e * 2 ^ (-g) := by
  have hsigned : signed s (m <<< (e - g).toNat) = signed s m * 2 ^ (e - g).toNat := by
    cases s <;> simp [signed, Nat.shiftLeft_eq]
  have hpow : (2 : ℚ) ^ (e - g).toNat = 2 ^ (e - g) := by
    rw [← zpow_natCast, Int.toNat_of_nonneg (by omega)]
  rw [hsigned, Int.cast_mul, Int.cast_pow, Int.cast_ofNat, hpow, sub_eq_add_neg,
    zpow_add₀ two_ne_zero, mul_assoc]

/-- Doubles are the same if they stand for the same number. -/
theorem same_iff {x y : Double} : x.same y = true ↔ x.number? = y.number? ∧ x ≠ .nan := by
  cases x with
  | nan => simp [same, compare?]
  | infinite s => cases y with
    | nan => simp [same, compare?, number?]
    | infinite t => cases s <;> cases t <;> simp [same, compare?, number?]
    | finite t n f => cases s <;> simp [same, compare?, number?]
  | finite s m e => cases y with
    | nan => simp [same, compare?, number?]
    | infinite t => cases t <;> simp [same, compare?, number?]
    | finite t n f =>
      -- Both mantissas are brought to the smaller exponent, which changes neither number.
      have hpos : (2 : ℚ) ^ (-(min e f)) ≠ 0 := zpow_ne_zero _ two_ne_zero
      simp only [same, compare?, number?, beq_iff_eq, Option.some.injEq, compare_eq_iff_eq,
        Sum.inr.injEq, ne_eq, reduceCtorEq, not_false_eq_true, and_true]
      rw [← Int.cast_inj (α := ℚ), signed_shiftLeft (min_le_left e f),
        signed_shiftLeft (min_le_right e f), mul_left_inj' hpos]

theorem same_symm {x y : Double} (h : x.same y = true) : y.same x = true := by
  obtain ⟨hxy, hx⟩ := same_iff.mp h
  refine same_iff.mpr ⟨hxy.symm, ?_⟩
  rintro rfl
  cases x <;> simp_all [number?]

theorem same_trans {x y z : Double} (h : x.same y = true) (h' : y.same z = true) :
    x.same z = true := by
  obtain ⟨hxy, hx⟩ := same_iff.mp h
  obtain ⟨hyz, -⟩ := same_iff.mp h'
  exact same_iff.mpr ⟨hxy.trans hyz, hx⟩

end Double

/-! ## Records -/

namespace Record

variable {α β : Type} {key : String} {r : Record α} {t : Record β}

theorem mem_of_get? {value : α} (h : r.get? key = some value) : (key, value) ∈ r := by
  induction r with
  | nil => cases h
  | cons e r ih =>
    obtain ⟨k, v⟩ := e
    by_cases hk : k = key
    · rw [get?, if_pos hk] at h
      cases h
      exact hk ▸ List.mem_cons_self
    · rw [get?, if_neg hk] at h
      exact List.mem_cons_of_mem _ (ih h)

theorem mem_keys_iff : key ∈ r.keys ↔ ∃ value, r.get? key = some value := by
  rw [mem_keys_iff_has, has, Option.isSome_iff_exists]

/-- With distinct keys, two records have related values under the same keys if they are equally long
and each value of the first has a related one in the second. -/
theorem rel_get?_iff {R : α → β → Prop} (hr : r.keys.Nodup) (ht : t.keys.Nodup) :
    (∀ key, Option.Rel R (r.get? key) (t.get? key)) ↔
      r.length = t.length ∧ ∀ key v, (key, v) ∈ r → ∃ w, t.get? key = some w ∧ R v w := by
  have hlength : ∀ {γ : Type} (s : Record γ), s.keys.length = s.length := fun s => List.length_map _
  constructor
  · intro h
    have hkeys : r.keys.Perm t.keys := by
      rw [List.perm_ext_iff_of_nodup hr ht]
      intro key
      have hkey := h key
      rw [mem_keys_iff, mem_keys_iff]
      generalize r.get? key = x at hkey ⊢
      generalize t.get? key = y at hkey ⊢
      cases hkey <;> simp
    refine ⟨?_, fun key v hmem => ?_⟩
    · rw [← hlength r, ← hlength t, hkeys.length_eq]
    · have hkey := h key
      rw [get?_of_mem hr hmem] at hkey
      generalize t.get? key = y at hkey ⊢
      cases hkey with
      | some hvw => exact ⟨_, rfl, hvw⟩
  · rintro ⟨hlen, hmem⟩ key
    have hsub : r.keys ⊆ t.keys := by
      intro key hkey
      obtain ⟨v, hv⟩ := mem_keys_iff.mp hkey
      obtain ⟨w, hw, -⟩ := hmem key v (mem_of_get? hv)
      exact mem_keys_iff.mpr ⟨w, hw⟩
    -- As many keys on either side, and those of the one among those of the other.
    have hkeys : r.keys.Perm t.keys := by
      refine (List.subperm_of_subset hr hsub).perm_of_length_le ?_
      rw [hlength, hlength, hlen]
    cases hv : r.get? key with
    | some v =>
      obtain ⟨w, hw, hvw⟩ := hmem key v (mem_of_get? hv)
      rw [hw]
      exact .some hvw
    | none =>
      cases hw : t.get? key with
      | none => exact .none
      | some w =>
        obtain ⟨v, hv'⟩ := mem_keys_iff.mp (hkeys.mem_iff.mpr (mem_keys_iff.mpr ⟨w, hw⟩))
        cases hv.symm.trans hv'

end Record

/-! ## Relations between parts -/

section

variable {α β γ : Type} {R : α → β → Prop} {S : β → γ → Prop} {xs : List α} {ys : List β}
  {zs : List γ} {x : Option α} {y : Option β} {z : Option γ}

theorem forall₂_comp (hxy : List.Forall₂ R xs ys) (hyz : List.Forall₂ S ys zs) :
    List.Forall₂ (Relation.Comp R S) xs zs := by
  induction hxy generalizing zs with
  | nil =>
    cases hyz
    exact .nil
  | cons hx _ ih =>
    cases hyz with
    | cons hz hrest => exact .cons ⟨_, hx, hz⟩ (ih hrest)

theorem forall₂_imp_of_mem {T : α → β → Prop} (h : List.Forall₂ R xs ys)
    (himp : ∀ v ∈ xs, ∀ w ∈ ys, R v w → T v w) : List.Forall₂ T xs ys := by
  obtain ⟨hlength, hzip⟩ := List.forall₂_iff_zip.mp h
  refine List.forall₂_iff_zip.mpr ⟨hlength, fun hmem => ?_⟩
  obtain ⟨hv, hw⟩ := List.of_mem_zip hmem
  exact himp _ hv _ hw (hzip hmem)

theorem forall₂_forall {T : Nat → α → β → Prop} (h : ∀ n, List.Forall₂ (T n) xs ys) :
    List.Forall₂ (fun v w => ∀ n, T n v w) xs ys := by
  refine List.forall₂_iff_zip.mpr ⟨(List.forall₂_iff_zip.mp (h 0)).1, fun hmem n => ?_⟩
  exact (List.forall₂_iff_zip.mp (h n)).2 hmem

theorem optionRel_flip (h : Option.Rel R x y) : Option.Rel (flip R) y x := by
  cases h with
  | some h => exact .some h
  | none => exact .none

theorem optionRel_comp (hxy : Option.Rel R x y) (hyz : Option.Rel S y z) :
    Option.Rel (Relation.Comp R S) x z := by
  cases hxy with
  | some hx =>
    cases hyz with
    | some hz => exact .some ⟨_, hx, hz⟩
  | none =>
    cases hyz
    exact .none

theorem optionRel_imp_of_eq {T : α → β → Prop} (h : Option.Rel R x y)
    (himp : ∀ v w, x = some v → y = some w → R v w → T v w) : Option.Rel T x y := by
  cases h with
  | some h => exact .some (himp _ _ rfl rfl h)
  | none => exact .none

theorem optionRel_forall {T : Nat → α → β → Prop} (h : ∀ n, Option.Rel (T n) x y) :
    Option.Rel (fun v w => ∀ n, T n v w) x y := by
  cases x with
  | none =>
    cases h 0
    exact .none
  | some v =>
    cases y with
    | none => cases h 0
    | some w => exact .some fun n => Option.rel_some_some.mp (h n)

end

namespace Heap

variable {h : Heap} {u v w x : Value} {a b : Nat} {R S : Value → Value → Prop}

/-! ## Bisimilar values -/

/-- The values look the same, and their parts are related. -/
inductive Matches (h : Heap) (R : Value → Value → Prop) : Value → Value → Prop
  | nil : Matches h R .nil .nil
  | true : Matches h R .true .true
  | int (n : Int64) : Matches h R (.int n) (.int n)
  | double {x y : Double} : x.same y → Matches h R (.double x) (.double y)
  | str (s : String) : Matches h R (.str s) (.str s)
  | symbol (path : String) : Matches h R (.symbol path) (.symbol path)
  | goto (target : String) : Matches h R (.goto target) (.goto target)
  | label (name : String) : Matches h R (.label name) (.label name)
  -- Lists and expressions have equally many items, related one by one.
  | list {a b : Nat} {xs ys : List Value} : h.cells[a]? = some (.list xs) →
      h.cells[b]? = some (.list ys) → List.Forall₂ R xs ys → Matches h R (.list a) (.list b)
  | expr {xs ys : List Value} : List.Forall₂ R xs ys → Matches h R (.expr xs) (.expr ys)
  -- Structs have the same keys, in any order, with related values.
  | struct {a b : Nat} {fs gs : Record Value} : h.cells[a]? = some (.struct fs) →
      h.cells[b]? = some (.struct gs) → (∀ key, Option.Rel R (fs.get? key) (gs.get? key)) →
      Matches h R (.struct a) (.struct b)
  | leaving {v w : Value} : R v w → Matches h R (.leaving v) (.leaving w)
  | breaking {v w : Value} : R v w → Matches h R (.breaking v) (.breaking w)
  -- Primitives and closures are the same object.
  | primitive {id : Nat} {name name' : String} {op op' : Operation} :
      Matches h R (.primitive id name op) (.primitive id name' op')
  | checked {id : Nat} {name name' : String} {kinds kinds' : List Kind} {op op' : Operation} :
      Matches h R (.checked id name kinds op) (.checked id name' kinds' op')
  | closure {id : Nat} {captured captured' : Record Value} {params params' : List String}
      {body body' : Value} :
      Matches h R (.closure id captured params body) (.closure id captured' params' body')
  | error {e f : Error} : e.message = f.message → e.context = f.context →
      Matches h R (.error e) (.error f)

def IsBisimulation (h : Heap) (R : Value → Value → Prop) : Prop :=
  ∀ v w, R v w → h.Matches R v w

def Bisimilar (h : Heap) (v w : Value) : Prop :=
  ∃ R, h.IsBisimulation R ∧ R v w

theorem Matches.symm (hvw : h.Matches R v w) : h.Matches (flip R) w v := by
  cases hvw with
  | double hxy => exact .double (Double.same_symm hxy)
  | list ha hb hitems => exact .list hb ha hitems.flip
  | expr hitems => exact .expr hitems.flip
  | struct ha hb hfields =>
    exact .struct hb ha fun key => optionRel_flip (hfields key)
  | leaving hvw => exact .leaving hvw
  | breaking hvw => exact .breaking hvw
  | error hmessage hcontext => exact .error hmessage.symm hcontext.symm
  | _ => constructor

theorem Bisimilar.symm (hvw : h.Bisimilar v w) : h.Bisimilar w v := by
  obtain ⟨R, hR, hvw⟩ := hvw
  exact ⟨flip R, fun v w hwv => (hR w v hwv).symm, hvw⟩

theorem Matches.trans (hvw : h.Matches R v w) (hwx : h.Matches S w x) :
    h.Matches (Relation.Comp R S) v x := by
  cases hvw with
  | double hxy =>
    cases hwx with
    | double hyz => exact .double (Double.same_trans hxy hyz)
  | list ha hb hitems =>
    cases hwx with
    | list hb' hc hitems' =>
      cases hb.symm.trans hb'
      exact .list ha hc (forall₂_comp hitems hitems')
  | expr hitems =>
    cases hwx with
    | expr hitems' => exact .expr (forall₂_comp hitems hitems')
  | struct ha hb hfields =>
    cases hwx with
    | struct hb' hc hfields' =>
      cases hb.symm.trans hb'
      exact .struct ha hc fun key => optionRel_comp (hfields key) (hfields' key)
  | leaving hvw =>
    cases hwx with
    | leaving hwx => exact .leaving ⟨_, hvw, hwx⟩
  | breaking hvw =>
    cases hwx with
    | breaking hwx => exact .breaking ⟨_, hvw, hwx⟩
  | error hmessage hcontext =>
    cases hwx with
    | error hmessage' hcontext' =>
      exact .error (hmessage.trans hmessage') (hcontext.trans hcontext')
  | _ =>
    cases hwx
    constructor

theorem Bisimilar.trans (hvw : h.Bisimilar v w) (hwx : h.Bisimilar w x) : h.Bisimilar v x := by
  obtain ⟨R, hR, hvw⟩ := hvw
  obtain ⟨S, hS, hwx⟩ := hwx
  refine ⟨Relation.Comp R S, ?_, w, hvw, hwx⟩
  rintro v x ⟨w, hvw, hwx⟩
  exact (hR v w hvw).trans (hS w x hwx)

/-! ## Values that can be compared -/

/-- What a comparison looks at in a value, one step down. -/
inductive Part (h : Heap) : Value → Value → Prop
  | item {a : Nat} {xs : List Value} {u : Value} : h.cells[a]? = some (.list xs) → u ∈ xs →
      Part h (.list a) u
  | field {a : Nat} {fs : Record Value} {key : String} {u : Value} :
      h.cells[a]? = some (.struct fs) → (key, u) ∈ fs → Part h (.struct a) u
  | expr {xs : List Value} {u : Value} : u ∈ xs → Part h (.expr xs) u
  | leaving (u : Value) : Part h (.leaving u) u
  | breaking (u : Value) : Part h (.breaking u) u

def Contains (h : Heap) : Value → Value → Prop :=
  Relation.ReflTransGen h.Part

/-- A list has its items in a list cell, a struct its fields in a struct cell. -/
def Kinded (h : Heap) : Value → Prop
  | .list a => ∃ xs : List Value, h.cells[a]? = some (.list xs)
  | .struct a => ∃ fs : Record Value, h.cells[a]? = some (.struct fs)
  | _ => True

def DistinctKeys (h : Heap) : Prop :=
  ∀ (a : Nat) (fs : Record Value), h.cells[a]? = some (.struct fs) → fs.keys.Nodup

/-- There is no way from the value to a NaN, and every list and struct on the way is where it should
be. -/
structure Comparable (h : Heap) (v : Value) : Prop where
  kinded : ∀ u, h.Contains v u → h.Kinded u
  no_nan : ¬ h.Contains v (.double .nan)

theorem Comparable.part (hv : h.Comparable v) (hu : h.Part v u) : h.Comparable u :=
  ⟨fun t ht => hv.kinded t (.head hu ht), fun ht => hv.no_nan (.head hu ht)⟩

theorem Comparable.list (hv : h.Comparable (.list a)) : ∃ xs, h.cells[a]? = some (.list xs) :=
  hv.kinded _ .refl

theorem Comparable.struct (hv : h.Comparable (.struct a)) :
    ∃ fs : Record Value, h.cells[a]? = some (.struct fs) :=
  hv.kinded _ .refl

theorem Comparable.double {d : Double} (hv : h.Comparable (.double d)) : d ≠ .nan := by
  rintro rfl
  exact hv.no_nan .refl

theorem isBisimulation_eq (h : Heap) : h.IsBisimulation fun v w => v = w ∧ h.Comparable v := by
  rintro v _ ⟨rfl, hv⟩
  cases v with
  | double d => exact .double (Double.same_self hv.double)
  | list a =>
    obtain ⟨xs, ha⟩ := hv.list
    exact .list ha ha (List.forall₂_same.mpr fun u hu => ⟨rfl, hv.part (.item ha hu)⟩)
  | expr xs => exact .expr (List.forall₂_same.mpr fun u hu => ⟨rfl, hv.part (.expr hu)⟩)
  | struct a =>
    obtain ⟨fs, ha⟩ := hv.struct
    refine .struct ha ha fun key => ?_
    cases hu : Record.get? key fs with
    | none => exact .none
    | some u => exact .some ⟨rfl, hv.part (.field ha (Record.mem_of_get? hu))⟩
  | leaving u => exact .leaving ⟨rfl, hv.part (.leaving u)⟩
  | breaking u => exact .breaking ⟨rfl, hv.part (.breaking u)⟩
  | error e => exact .error rfl rfl
  | _ => constructor

theorem bisimilar_self (hv : h.Comparable v) : h.Bisimilar v v :=
  ⟨_, h.isBisimulation_eq, rfl, hv⟩

/-! ### Values of a session -/

theorem alike_of_mem {p : Pairing} {vs : List Value} (hvs : p.AlikeAll vs vs) (hv : v ∈ vs) :
    p.Alike v v := by
  induction vs with
  | nil => cases hv
  | cons u us ih =>
    cases hvs with
    | cons hu hus =>
      rcases List.mem_cons.mp hv with rfl | hv
      · exact hu
      · exact ih hus hv

theorem alike_of_mem_fields {p : Pairing} {r : Record Value} {key : String}
    (hr : p.AlikeFields r r) (hv : (key, v) ∈ r) : p.Alike v v := by
  induction r with
  | nil => cases hv
  | cons e r ih =>
    cases hr with
    | cons _ he hr =>
      rcases List.mem_cons.mp hv with heq | hv
      · cases heq
        exact he
      · exact ih hr hv

theorem Coherent.alike_part (hh : h.Coherent) (hv : h.self.Alike v v) (hu : h.Part v u) :
    h.self.Alike u u := by
  cases hu with
  | item ha hmem => exact alike_of_mem (hh.refers _ _ ha) hmem
  | field ha hmem => exact alike_of_mem_fields (hh.refers _ _ ha) hmem
  | expr hmem =>
    cases hv with
    | expr hvs => exact alike_of_mem hvs hmem
  | leaving =>
    cases hv with
    | leaving hu => exact hu
  | breaking =>
    cases hv with
    | breaking hu => exact hu

theorem Coherent.kinded (hh : h.Coherent) (hv : h.self.Alike v v) (hu : h.Contains v u) :
    h.Kinded u := by
  have halike : h.self.Alike u u := by
    induction hu with
    | refl => exact hv
    | tail _ hpart ih => exact hh.alike_part ih hpart
  cases halike with
  | list ha => exact ha.2
  | struct ha => exact ha.2
  | _ => trivial

/-- Whatever a variable of a session holds can be compared, unless there is a way to a NaN. -/
theorem comparable_of_reachable {i : Interpreter} (hi : i.Reachable) {name : String}
    (hv : i.env.get? name = some v) (hnan : ¬ i.heap.Contains v (.double .nan)) :
    i.heap.DistinctKeys ∧ i.heap.Comparable v := by
  have hcoherent := hi.coherent
  refine ⟨fun a _ hfs => hcoherent.heap.kept a _ hfs, fun u hu => ?_, hnan⟩
  rcases hcoherent.env.get? name with ⟨hnone, -⟩ | ⟨w, w', hw, hw', halike⟩
  · cases hv.symm.trans hnone
  · cases hv.symm.trans hw
    cases hv.symm.trans hw'
    exact hcoherent.heap.kinded halike hu

end Heap

end Lisplet
