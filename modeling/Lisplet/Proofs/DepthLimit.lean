import Mathlib
import Lisplet.Proofs.Simulation

/-!
# The depth limit is only a limit

Two runs over the very same cells may be at different levels, or under different limits. As long as
the one with the lower limit is never refused a level, nothing in its states but the limit itself
tells it from the other. To be refused a level is an error like any other, which a program can
catch; a strict engine halts instead, so that a run of it that comes to an end was never refused.
-/

namespace Lisplet

/-- What two runs over the same cells may differ in: their levels only. -/
structure Levels where
  nests : Nesting → Prop
  excuses : Halt → Prop
  not_excuses (e : Error) : ¬ excuses (.error e)
  follows : Prop
  nests_eq (hfollows : follows) {n : Nesting} : nests n →
    n.left = n.right ∧ n.leftLimit = n.rightLimit
  deeper {n : Nesting} : nests n → n.left < n.leftLimit → n.right < n.rightLimit ∧ nests n.deeper

def Levels.lockstep (l : Levels) : Lockstep where
  World := Unit
  Later _ _ := True
  refl _ := trivial
  trans _ _ := trivial
  pairing _ := .same
  within _ := .refl _
  heaps _ h k := h = k
  nests := l.nests
  excuses := l.excuses
  not_excuses := l.not_excuses
  follows := l.follows
  pairing_eq _ _ := .refl _
  heaps_eq := fun _ {_ _ _} h => h
  nests_eq := l.nests_eq
  deeper := l.deeper
  text := by
    rintro _ h _ v v' rfl hv
    rw [hv.eq (.refl _)]
  shows := by
    rintro _ h _ a _ v v' rfl rfl hv
    rw [hv.eq (.refl _)]
  same := by
    rintro _ h _ u u' v v' rfl hu hv
    rw [hu.eq (.refl _), hv.eq (.refl _)]
  lists := by
    rintro _ a _ c _ rfl rfl
    exact Iff.rfl
  structs := by
    rintro _ a _ c _ rfl rfl
    exact Iff.rfl
  items := by
    rintro _ h _ a _ rfl rfl
    exact .refl _
  fields := by
    rintro _ h _ a _ rfl rfl
    exact .refl _
  newList := by
    rintro _ h _ vs vs' rfl hvs -
    rw [hvs.eq (.refl _)]
    exact ⟨(), trivial, rfl, rfl⟩
  copyList := by
    rintro _ h _ a _ rfl rfl
    exact ⟨(), trivial, rfl, rfl⟩
  newStruct := by
    rintro _ h _ r t rfl hr -
    rw [hr.eq (.refl _)]
    exact ⟨(), trivial, rfl, rfl⟩
  storeItem := by
    rintro _ h _ a _ v v' k rfl rfl hv -
    rw [hv.eq (.refl _)]
    exact ⟨(), trivial, rfl⟩
  storeField := by
    rintro _ h _ a _ v v' key rfl rfl hv
    rw [hv.eq (.refl _)]
    exact ⟨(), trivial, rfl⟩

theorem Levels.rel_iff {l : Levels} {n : Nesting} {i j : Interpreter} :
    l.lockstep.Rel () n i j ↔
      l.nests n ∧ i.depth = n.left ∧ i.maxDepth = n.leftLimit ∧
        j = { i with depth := n.right, maxDepth := n.rightLimit } := by
  constructor
  · intro h
    refine ⟨h.nests, h.left, h.leftLimit, ?_⟩
    have huses := h.uses.eq (.refl _)
    have henv := h.env.eq (.refl _)
    have hheap : i.heap = j.heap := h.heap
    rw [hheap, henv, h.help, h.console, h.nextId, huses, ← h.right, ← h.rightLimit]
  · rintro ⟨hnests, hleft, hlimit, rfl⟩
    exact ⟨rfl, .refl _, rfl, rfl, rfl, .refl _, hnests, hleft, hlimit, rfl, rfl⟩

/-! ## Strict engines -/

/-- Runs the evaluation of `v`, unless it would be refused the level that it needs. -/
def Eval.unlessRefused (v : Value) (act : Eval Value) : Eval Value := fun i =>
  if v.nests = true ∧ ¬ i.depth < i.maxDepth then .error .alarm i else act i

/-- The engine with the given amount of fuel that raises the alarm where the plain one is refused a
level. The alarm cannot be caught. -/
def Engine.strict : Nat → Engine
  | 0 => .ofFuel 0
  | fuel + 1 =>
    { fuel := fuel + 1
      evaluate := fun v => Eval.unlessRefused v ((strict fuel).step v)
      apply := fun f vs => (strict fuel).applyTo f vs }

/-- A strict engine keeps in step with a plain one as long as it is not refused a level. -/
theorem Lockstep.drives_strict {S : Lockstep} (halarm : S.excuses .alarm) (hfollows : ¬ S.follows)
    {fuel fuel₂ : Nat} (hfuel : S.Fuels fuel fuel₂) :
    S.Drives (.strict fuel) (.ofFuel fuel₂) := by
  induction fuel generalizing fuel₂ with
  | zero =>
    refine ⟨hfuel, fun _ => ?_, fun _ _ => ?_⟩
    · exact sim_outOfFuel hfuel fun hzero => by rw [hzero]; rfl
    · exact sim_outOfFuel hfuel fun hzero => by rw [hzero]; rfl
  | succ fuel ih =>
    obtain ⟨k, rfl, hk⟩ := hfuel.pred
    refine ⟨hfuel, ?_, fun hf hvs => sim_applyTo (ih hk) hf hvs⟩
    intro w n v v' hv i j hrel
    show Ends w n S.values (Eval.unlessRefused v ((Engine.strict fuel).step v) i)
      ((Engine.ofFuel k).step v' j)
    unfold Eval.unlessRefused
    by_cases hrefused : v.nests = true ∧ ¬ i.depth < i.maxDepth
    · rw [if_pos hrefused]
      exact .inl ⟨halarm, fun h => absurd h hfollows⟩
    · rw [if_neg hrefused]
      refine sim_step (ih hk) hv (fun hnests => .inl ?_) i j hrel
      rw [← hrel.left, ← hrel.leftLimit]
      exact Decidable.not_not.mp fun hnot => hrefused ⟨hnests, hnot⟩

namespace Interpreter

def withLimit (i : Interpreter) (d : Nat) : Interpreter :=
  { i with maxDepth := d }

theorem withLimit_eq_self {i : Interpreter} {d : Nat} (h : i.maxDepth = d) : i.withLimit d = i := by
  subst h
  rfl

def Refused (i : Interpreter) (fuel : Nat) (source : String) : Prop :=
  (i.run ((Engine.strict fuel).topForms (read source))).1 = .error .alarm

end Interpreter

/-! ## Two limits -/

/-- Runs at the same level under two limits, the first not above the second. -/
def Levels.limits {d d₂ : Nat} (hle : d ≤ d₂) (excuses : Halt → Prop)
    (not_excuses : ∀ e, ¬ excuses (.error e)) : Levels where
  nests n := n.left = n.right ∧ n.leftLimit = d ∧ n.rightLimit = d₂
  excuses := excuses
  not_excuses := not_excuses
  follows := False
  nests_eq := False.elim
  deeper := by
    rintro n ⟨hlevel, rfl, rfl⟩ hlt
    exact ⟨by omega, congrArg (· + 1) hlevel, rfl, rfl⟩

namespace Levels

variable {d d₂ : Nat} (hle : d ≤ d₂) (excuses : Halt → Prop)
  (not_excuses : ∀ e, ¬ excuses (.error e))

theorem limits_rel (i : Interpreter) :
    (limits hle excuses not_excuses).lockstep.Rel () ⟨i.depth, d, i.depth, d₂⟩ (i.withLimit d)
      (i.withLimit d₂) :=
  rel_iff.mpr ⟨⟨rfl, rfl, rfl⟩, rfl, rfl, rfl⟩

variable {hle excuses not_excuses}

theorem eq_withLimit_of_rel {n : Nesting} {i j : Interpreter}
    (h : (limits hle excuses not_excuses).lockstep.Rel () n i j) :
    i.maxDepth = d ∧ j = i.withLimit d₂ := by
  obtain ⟨⟨hlevel, hd, hlimit⟩, hdepth, hmax, rfl⟩ := rel_iff.mp h
  refine ⟨hmax.trans hd, ?_⟩
  rw [Interpreter.withLimit, ← hlimit, ← hlevel, ← hdepth]

/-- Unless the first run is excused, it keeps its limit, and the second comes to the same. -/
theorem run_eq_of_drives {fuel fuel₂ : Nat}
    (hdrives : (limits hle excuses not_excuses).lockstep.Drives (.strict fuel) (.ofFuel fuel₂))
    {source : String} {i : Interpreter} {outcome : Interpreter.Outcome} {j : Interpreter}
    (hrun : (i.withLimit d).run ((Engine.strict fuel).topForms (read source)) = (outcome, j))
    (hexcuses : ∀ h, outcome = .error h → ¬ excuses h) :
    j.maxDepth = d ∧
      (i.withLimit d₂).run (evalSource fuel₂ source) = (outcome, j.withLimit d₂) := by
  have hends := Lockstep.sim_topForms hdrives (Reader.ofSource source []) _ _
    (limits_rel hle excuses not_excuses i)
  rw [Engine.topForms_ofFuel] at hends
  change Lockstep.Ends () _ _ ((Engine.strict fuel).topForms (read source) (i.withLimit d))
    (evalSource fuel₂ source (i.withLimit d₂)) at hends
  unfold Interpreter.run at hrun ⊢
  generalize (Engine.strict fuel).topForms (read source) (i.withLimit d) = r at hends hrun
  generalize evalSource fuel₂ source (i.withLimit d₂) = t at hends ⊢
  cases r with
  | ok v i' =>
    cases hrun
    cases t with
    | ok v' j' =>
      obtain ⟨_, -, hrel, hv⟩ := hends
      obtain ⟨hmax, rfl⟩ := eq_withLimit_of_rel hrel
      obtain rfl := Pairing.Alike.eq (.refl _) hv
      exact ⟨hmax, rfl⟩
    | error e j' => exact hends.elim
  | error e i' =>
    cases hrun
    rcases hends with ⟨he, -⟩ | ⟨_, j', rfl, -, hrel⟩
    · exact absurd he (hexcuses e rfl)
    · obtain ⟨hmax, rfl⟩ := eq_withLimit_of_rel hrel
      exact ⟨hmax, rfl⟩

end Levels

open Lockstep

/-- A strict run that is not refused a level is the plain one. -/
theorem run_eq_strict {i : Interpreter} {fuel : Nat} {source : String}
    (h : ¬ i.Refused fuel source) :
    i.run (evalSource fuel source) = i.run ((Engine.strict fuel).topForms (read source)) := by
  let l := Levels.limits (Nat.le_refl i.maxDepth) (· = .alarm) nofun
  have hdrives : l.lockstep.Drives (.strict fuel) (.ofFuel fuel) := drives_strict rfl id (.inl rfl)
  generalize hrun : i.run ((Engine.strict fuel).topForms (read source)) = p
  obtain ⟨outcome, j⟩ := p
  obtain ⟨hmax, hplain⟩ := Levels.run_eq_of_drives hdrives hrun <| by
    rintro e rfl rfl
    exact h (by rw [Interpreter.Refused, hrun])
  rwa [Interpreter.withLimit_eq_self hmax] at hplain

/-- A run that ends without being refused a level ends in the same way under a higher limit. -/
theorem run_withLimit {i : Interpreter} {d d₂ fuel fuel₂ : Nat} {source : String} (hle : d ≤ d₂)
    (hfuel : fuel ≤ fuel₂) (hrefused : ¬ (i.withLimit d).Refused fuel source)
    (hends : ((i.withLimit d).run (evalSource fuel source)).1 ≠ .error .outOfFuel) :
    (i.withLimit d₂).run (evalSource fuel₂ source) =
      (((i.withLimit d).run (evalSource fuel source)).1,
        ((i.withLimit d).run (evalSource fuel source)).2.withLimit d₂) := by
  rw [run_eq_strict hrefused] at hends ⊢
  let l := Levels.limits hle (fun h => h = .alarm ∨ h = .outOfFuel) nofun
  have hdrives : l.lockstep.Drives (.strict fuel) (.ofFuel fuel₂) :=
    drives_strict (S := l.lockstep) (.inl rfl) id (.inr ⟨.inr rfl, id, hfuel⟩)
  generalize hrun : (i.withLimit d).run ((Engine.strict fuel).topForms (read source)) = p
    at hends
  obtain ⟨outcome, j⟩ := p
  refine (Levels.run_eq_of_drives hdrives hrun ?_).2
  rintro e rfl (rfl | rfl)
  · exact hrefused (by rw [Interpreter.Refused, hrun])
  · exact hends rfl

/-! ## The level during a run -/

/-- Runs at the same level, which is never above both the limit and the level at the start. -/
def Levels.within (start limit : Nat) : Levels where
  nests n := n.left = n.right ∧ n.leftLimit = limit ∧ n.rightLimit = limit ∧
    n.left ≤ max start limit
  excuses _ := False
  not_excuses _ := id
  follows := True
  nests_eq := by
    rintro - n ⟨hlevel, rfl, hlimit, -⟩
    exact ⟨hlevel, hlimit.symm⟩
  deeper := by
    rintro n ⟨hlevel, hleft, hright, -⟩ hlt
    refine ⟨by omega, congrArg (· + 1) hlevel, hleft, hright, ?_⟩
    show n.left + 1 ≤ max start limit
    omega

/-- A watch for the level during a run never has a reason to raise its alarm. -/
theorem run_watched_level (i : Interpreter) (fuel : Nat) (source : String) :
    i.run ((Engine.watched
        (fun j _ => j.depth ≤ max i.depth i.maxDepth ∧ j.maxDepth = i.maxDepth) fuel).topForms
        (read source)) =
      i.run (evalSource fuel source) := by
  let l := Levels.within i.depth i.maxDepth
  have hminds : l.lockstep.Minds
      (fun j _ => j.depth ≤ max i.depth i.maxDepth ∧ j.maxDepth = i.maxDepth) := by
    refine .inr ⟨fun _ => id, fun w n j hand hrel => ?_⟩
    obtain ⟨-, hlimit, -, hlevel⟩ := hrel.nests
    exact ⟨hrel.left ▸ hlevel, hrel.leftLimit.trans hlimit⟩
  have hdepth : ∀ n, l.nests n → n.left < n.leftLimit ∨ ¬ n.right < n.rightLimit := by
    rintro n ⟨hlevel, hleft, hright, -⟩
    omega
  have hlax : ∀ (j : Interpreter) (hand : Hand),
      j.depth ≤ max i.depth i.maxDepth ∧ j.maxDepth = i.maxDepth → True := fun _ _ _ => trivial
  have hdrives := drives_watched trivial hminds hlax hdepth fuel
  have hrel : l.lockstep.Rel () ⟨i.depth, i.maxDepth, i.depth, i.maxDepth⟩ i i :=
    Levels.rel_iff.mpr ⟨⟨rfl, rfl, rfl, Nat.le_max_left _ _⟩, rfl, rfl, rfl⟩
  have hends := sim_topForms hdrives (Reader.ofSource source []) i i hrel
  rw [Engine.watched_true, Engine.topForms_ofFuel] at hends
  have heq := hends.eq trivial fun _ _ _ => id
  change _ = evalSource fuel source i at heq
  unfold Interpreter.run
  exact heq ▸ rfl

/-- What a computation would do beyond the limit makes no difference one level deeper. -/
theorem descend_congr {act act' : Eval Value} (h : ∀ j, j.depth ≤ j.maxDepth → act j = act' j) :
    Eval.descend act = Eval.descend act' := by
  funext i
  unfold Eval.descend
  by_cases hlt : i.depth < i.maxDepth
  · rw [if_pos hlt, if_pos hlt, h { i with depth := i.depth + 1 } hlt]
  · rw [if_neg hlt, if_neg hlt]

/-- A source that is evaluated under one limit, with an end and without being refused a level, has
the same outcome, the same effects and the same output under every higher limit. And at every
moment of every run, at the start and the end of each evaluation and each application, the level is
within the limit, or at most as high as it was at the start; what is run one level deeper is run
within the limit. -/
theorem depth_limit_only_limits (i : Interpreter) (fuel : Nat) (source : String) :
    (∀ d d₂ fuel₂, d ≤ d₂ → fuel ≤ fuel₂ → ¬ (i.withLimit d).Refused fuel source →
      ((i.withLimit d).run (evalSource fuel source)).1 ≠ .error .outOfFuel →
      (i.withLimit d₂).run (evalSource fuel₂ source) =
        (((i.withLimit d).run (evalSource fuel source)).1,
          ((i.withLimit d).run (evalSource fuel source)).2.withLimit d₂)) ∧
    i.run ((Engine.watched
        (fun j _ => j.depth ≤ max i.depth i.maxDepth ∧ j.maxDepth = i.maxDepth) fuel).topForms
        (read source)) = i.run (evalSource fuel source) ∧
    ∀ act act' : Eval Value, (∀ j, j.depth ≤ j.maxDepth → act j = act' j) →
      Eval.descend act = Eval.descend act' :=
  ⟨fun _ _ _ hle hfuel hrefused hends => run_withLimit hle hfuel hrefused hends,
    run_watched_level i fuel source, fun _ _ h => descend_congr h⟩

-- Three levels are needed, and there are three. With one level less the program would catch the
-- error and go on.
theorem depth_limit_only_limits_nested :
    ¬ ((Interpreter.fresh 3 {}).withLimit 3).Refused 9 "(try (add 1 (add 2 3)) e 0)" ∧
    (((Interpreter.fresh 3 {}).withLimit 400).run
      (evalSource 9 "(try (add 1 (add 2 3)) e 0)")).1 = .ok (.int 6) := by
  have hstrict : (((Interpreter.fresh 3 {}).withLimit 3).run
      ((Engine.strict 9).topForms (read "(try (add 1 (add 2 3)) e 0)"))).1 = .ok (.int 6) := by
    cbv
  have hrefused : ¬ ((Interpreter.fresh 3 {}).withLimit 3).Refused 9
      "(try (add 1 (add 2 3)) e 0)" := by
    rw [Interpreter.Refused, hstrict]
    intro heq
    cases heq
  have hplain := run_eq_strict hrefused
  obtain ⟨hlimits, -, -⟩ := depth_limit_only_limits (.fresh 3 {}) 9 "(try (add 1 (add 2 3)) e 0)"
  have hends : (((Interpreter.fresh 3 {}).withLimit 3).run
      (evalSource 9 "(try (add 1 (add 2 3)) e 0)")).1 ≠ .error .outOfFuel := by
    rw [hplain, hstrict]
    intro heq
    cases heq
  have hrun := hlimits 3 400 9 (by decide) (Nat.le_refl 9) hrefused hends
  exact ⟨hrefused, by rw [hrun, hplain, hstrict]⟩

end Lisplet
