import Mathlib
import Lisplet.Value.Text

/-!
# Which cells a text shows

The walk behind the text of a value never enters a cell inside itself, and it has a budget. Neither
keeps it from a cell: a walk that comes back to a cell can start over from there, and a walk that
does not come back is no longer than the heap. So a text shows a cell exactly if there is any way at
all from the value to the cell.
-/

namespace Lisplet

namespace Heap

inductive Leads (h : Heap) : Nat → Nat → Prop
  | here (a : Nat) : Leads h a a
  | into {a b t : Nat} {c : Cell} : h.cells[a]? = some c → b ∈ c.cells → Leads h b t → Leads h a t

/-- The cell holds itself, by itself or inside other cells. -/
def InsideItself (h : Heap) (a : Nat) : Prop :=
  ∃ c b, h.cells[a]? = some c ∧ b ∈ c.cells ∧ h.Leads b a

inductive LeadsPast (h : Heap) (path : List Nat) : Nat → Nat → Prop
  | here {a : Nat} : a ∉ path → LeadsPast h path a a
  | into {a b t : Nat} {c : Cell} : a ∉ path → h.cells[a]? = some c → b ∈ c.cells →
      LeadsPast h path b t → LeadsPast h path a t

variable {h : Heap} {path : List Nat} {a b t : Nat}

theorem Leads.past_nil (hl : h.Leads a t) : h.LeadsPast [] a t := by
  induction hl with
  | here a => exact .here List.not_mem_nil
  | into hc hb _ ih => exact .into List.not_mem_nil hc hb ih

-- A way that meets `a` is cut to what comes after it met `a` for the last time.
theorem LeadsPast.cut (hl : h.LeadsPast path b t) :
    h.LeadsPast (a :: path) b t ∨ a = t ∨
      ∃ c b', h.cells[a]? = some c ∧ b' ∈ c.cells ∧ h.LeadsPast (a :: path) b' t := by
  induction hl with
  | @here b hb =>
    by_cases hab : a = b
    · exact .inr (.inl hab)
    · refine .inl (.here ?_)
      rw [List.mem_cons]
      rintro (rfl | hmem)
      · exact hab rfl
      · exact hb hmem
  | @into b b' t c hb hc hb' _ ih =>
    rcases ih with hpast | hlast
    · by_cases hab : a = b
      · subst hab
        exact .inr (.inr ⟨c, b', hc, hb', hpast⟩)
      · refine .inl (.into ?_ hc hb' hpast)
        rw [List.mem_cons]
        rintro (rfl | hmem)
        · exact hab rfl
        · exact hb hmem
    · exact .inr hlast

/-- A way ends where it begins, or its first step leads to a way that never comes back. -/
theorem LeadsPast.first (hl : h.LeadsPast path a t) :
    a = t ∨ ∃ c b, h.cells[a]? = some c ∧ b ∈ c.cells ∧ h.LeadsPast (a :: path) b t := by
  cases hl with
  | here _ => exact .inl rfl
  | into _ hc hb hrest =>
    rcases hrest.cut with hpast | hlast
    · exact .inr ⟨_, _, hc, hb, hpast⟩
    · exact hlast

theorem LeadsPast.not_mem (hl : h.LeadsPast path a t) : a ∉ path := by
  cases hl with
  | here ha => exact ha
  | into ha _ _ _ => exact ha

/-- A heap has an end, so a walk from list to list that has none comes back to a list. -/
theorem insideItself_of_walk {a : Nat → Nat} (hwalk : ∀ n, .list (a (n + 1)) ∈ h.items (a n)) :
    ∃ b, h.InsideItself b := by
  have hcell : ∀ n, ∃ c, h.cells[a n]? = some c ∧ a (n + 1) ∈ c.cells := by
    intro n
    have hn := hwalk n
    unfold items at hn
    split at hn
    next items hc => exact ⟨_, hc, List.mem_flatMap.mpr ⟨_, hn, by simp [Value.cells]⟩⟩
    next => cases hn
  have hsize : ∀ n, a n < h.size := by
    intro n
    obtain ⟨c, hc, _⟩ := hcell n
    exact (Array.getElem?_eq_some_iff.mp hc).1
  have hleads : ∀ m k, h.Leads (a m) (a (m + k)) := by
    intro m k
    induction k generalizing m with
    | zero => exact .here _
    | succ k ih =>
      obtain ⟨c, hc, hmem⟩ := hcell m
      have hrest := ih (m + 1)
      rw [Nat.add_right_comm] at hrest
      exact .into hc hmem hrest
  have hback : ∃ m k, a (m + 1 + k) = a m := by
    obtain ⟨m, n, hne, heq⟩ :=
      Finite.exists_ne_map_eq_of_infinite fun n => (⟨a n, hsize n⟩ : Fin h.size)
    have heq' : a m = a n := congrArg Fin.val heq
    rcases Nat.lt_or_gt_of_ne hne with hlt | hgt
    · exact ⟨m, n - (m + 1), by rw [Nat.add_sub_cancel' hlt, heq']⟩
    · exact ⟨n, m - (n + 1), by rw [Nat.add_sub_cancel' hgt, heq']⟩
  obtain ⟨m, k, hmk⟩ := hback
  obtain ⟨c, hc, hmem⟩ := hcell m
  have hreturn := hleads (m + 1) k
  rw [hmk] at hreturn
  exact ⟨a m, c, a (m + 1), hc, hmem, hreturn⟩

/-! ## The walk finds every way -/

theorem leads_of_leadsTo {budget : Nat} (hl : h.leadsTo t budget path a = true) : h.Leads a t := by
  induction budget generalizing path a with
  | zero => cases hl
  | succ budget ih =>
    unfold leadsTo at hl
    split at hl
    · cases hl
    · split at hl
      next heq =>
        rw [beq_iff_eq] at heq
        subst heq
        exact .here a
      next =>
        split at hl
        next c hc =>
          obtain ⟨b, hb, hbt⟩ := List.any_eq_true.mp hl
          exact .into hc hb (ih hbt)
        next => cases hl

/-- Different cells of the heap are no more than the heap has. -/
theorem length_le_size (hpath : path.Nodup) (hlt : ∀ p ∈ path, p < h.size) :
    path.length ≤ h.size := by
  have hsub : path ⊆ List.range h.size := fun p hp => List.mem_range.mpr (hlt p hp)
  have hlen := (List.subperm_of_subset hpath hsub).length_le
  rwa [List.length_range] at hlen

-- The budget is what the heap has left beside the path, and one more for the cell at the end.
theorem leadsTo_of_leadsPast {budget : Nat} (hl : h.LeadsPast path a t) (hpath : path.Nodup)
    (hlt : ∀ p ∈ path, p < h.size) (hbudget : budget + path.length = h.size + 1) :
    h.leadsTo t budget path a = true := by
  induction budget generalizing path a with
  | zero =>
    have hlen := length_le_size hpath hlt
    omega
  | succ budget ih =>
    have ha : a ∉ path := hl.not_mem
    have hnot : path.contains a = false := by simpa using ha
    unfold leadsTo
    simp only [hnot, Bool.false_eq_true, if_false]
    split
    next => rfl
    next hne =>
      rcases hl.first with heq | ⟨c, b, hc, hb, hrest⟩
      · exact absurd (beq_iff_eq.mpr heq) hne
      · have hsize : a < h.size := (Array.getElem?_eq_some_iff.mp hc).1
        have hlt' : ∀ p ∈ a :: path, p < h.size := by
          intro p hp
          rcases List.mem_cons.mp hp with rfl | hp
          · exact hsize
          · exact hlt p hp
        rw [hc]
        refine List.any_eq_true.mpr ⟨b, hb, ih hrest (List.nodup_cons.mpr ⟨ha, hpath⟩) hlt' ?_⟩
        rw [List.length_cons]
        omega

/-- The text of a value shows a cell exactly if there is a way from the value to the cell. -/
theorem shows_iff {v : Value} : h.shows t v = true ↔ ∃ a ∈ v.cells, h.Leads a t := by
  unfold shows
  rw [List.any_eq_true]
  constructor
  · rintro ⟨a, ha, hl⟩
    exact ⟨a, ha, leads_of_leadsTo hl⟩
  · rintro ⟨a, ha, hl⟩
    refine ⟨a, ha, leadsTo_of_leadsPast hl.past_nil List.nodup_nil ?_ (by simp)⟩
    intro p hp
    cases hp

end Heap

end Lisplet
