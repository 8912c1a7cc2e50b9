import Lisplet.Proofs.Effect

/-!
# Scopes and their guards

Between a scope and the drop of its guard the environment can be changed at will. What is left of it
afterwards depends on how the guards are dropped.

When the operations in between are well bracketed, the drop leaves the environment as it was before
the scope, changed by just those operations that went past the frames of the scope: global
definitions, and assignments to names that none of these frames bound at the time.

In any other order, and with any pushes and pops, a guard still keeps to its own height. The frames
below its own are left alone and all others are removed.
-/

namespace Lisplet

namespace Environment

variable {α : Type}

/-- An operation on an environment. A guard is named by the number of guards made before it. -/
inductive Act (α : Type) where
  | set (name : String) (value : α)
  | setLocal (name : String) (value : α)
  | defineGlobal (name : String) (value : α)
  | push (frame : Record α)
  | pop
  | scope (frame : Record α)
  | drop (guard : Nat)

/-- An environment with the guards made on it, the oldest first. One that was dropped is `none`. -/
structure Guarded (α : Type) where
  env : Environment α
  guards : List (Option Guard) := []

namespace Guarded

/-- Carries out one operation. There is nothing to a guard that does not exist or was dropped. -/
def step (s : Guarded α) : Act α → Guarded α
  | .set name value => { s with env := s.env.set name value }
  | .setLocal name value => { s with env := s.env.setLocal name value }
  | .defineGlobal name value => { s with env := s.env.defineGlobal name value }
  | .push frame => { s with env := s.env.push frame }
  | .pop => { s with env := s.env.pop.2 }
  | .scope frame => ⟨(s.env.scope frame).1, s.guards ++ [some (s.env.scope frame).2]⟩
  | .drop n =>
    match s.guards[n]?.join with
    | some g => ⟨s.env.release g, s.guards.set n none⟩
    | none => s

def run (s : Guarded α) (acts : List (Act α)) : Guarded α :=
  acts.foldl step s

@[simp] theorem run_nil (s : Guarded α) : s.run [] = s := rfl

@[simp] theorem run_cons (s : Guarded α) (a : Act α) (acts : List (Act α)) :
    s.run (a :: acts) = (s.step a).run acts := rfl

@[simp] theorem run_append (s : Guarded α) (acts rest : List (Act α)) :
    s.run (acts ++ rest) = (s.run acts).run rest :=
  List.foldl_append ..

end Guarded

/-! ## Well-bracketed operations -/

/-- Operations of which every scope is closed by the drop of its guard, with well-bracketed
operations in between. `n` and `m` are the numbers of guards made before and after. -/
inductive Bracketed : Nat → List (Act α) → Nat → Prop
  | nil {n : Nat} : Bracketed n [] n
  | set {n m : Nat} {acts : List (Act α)} (name : String) (value : α) :
      Bracketed n acts m → Bracketed n (.set name value :: acts) m
  | setLocal {n m : Nat} {acts : List (Act α)} (name : String) (value : α) :
      Bracketed n acts m → Bracketed n (.setLocal name value :: acts) m
  | defineGlobal {n m : Nat} {acts : List (Act α)} (name : String) (value : α) :
      Bracketed n acts m → Bracketed n (.defineGlobal name value :: acts) m
  | scope {n m k : Nat} {inner rest : List (Act α)} (frame : Record α) :
      Bracketed (n + 1) inner m → Bracketed m rest k →
      Bracketed n (.scope frame :: inner ++ .drop n :: rest) k

/-- Whether an operation goes past the given innermost frames. -/
def Act.passes (locals : List (Record α)) : Act α → Bool
  | .defineGlobal .. => true
  | .set name _ => locals.all fun f => !f.has name
  | _ => false

/-- The operations that go past all frames but the `base` outermost, each judged by the frames that
are there when it is carried out. -/
def Guarded.outward (base : Nat) (s : Guarded α) : List (Act α) → List (Act α)
  | [] => []
  | a :: acts =>
    if a.passes (s.env.frames.take (s.env.depth - base)) then a :: outward base (s.step a) acts
    else outward base (s.step a) acts

theorem Guarded.outward_append (base : Nat) (s : Guarded α) (acts rest : List (Act α)) :
    s.outward base (acts ++ rest) = s.outward base acts ++ (s.run acts).outward base rest := by
  induction acts generalizing s with
  | nil => rfl
  | cons a acts ih =>
    simp only [List.cons_append, outward, run_cons, ih]
    split <;> rfl

/-! ## An environment under further frames -/

def pile (e : Environment α) (locals : List (Record α)) : Environment α :=
  { e with frames := locals ++ e.frames }

theorem setInFrames_append_of_unbound {name : String} {value : α} {locals : List (Record α)}
    (h : locals.all (fun f => !f.has name) = true) (fs : List (Record α)) :
    setInFrames name value (locals ++ fs) = (setInFrames name value fs).map (locals ++ ·) := by
  induction locals with
  | nil => simp
  | cons f locals ih =>
    simp only [List.all_cons, Bool.and_eq_true, Bool.not_eq_eq_eq_not, Bool.not_true] at h
    simp only [List.cons_append, setInFrames, h.1, Bool.false_eq_true, if_false, ih h.2,
      Option.map_map]
    rfl

theorem setInFrames_append_of_bound {name : String} {locals : List (Record α)}
    (h : locals.all (fun f => !f.has name) = false) (value : α) (fs : List (Record α)) :
    ∃ locals', locals'.length = locals.length ∧
      setInFrames name value (locals ++ fs) = some (locals' ++ fs) := by
  induction locals with
  | nil => cases h
  | cons f locals ih =>
    by_cases hf : f.has name = true
    · exact ⟨f.insert name value :: locals, rfl, by simp [setInFrames, hf]⟩
    · simp only [List.all_cons, hf, Bool.not_false, Bool.true_and] at h
      obtain ⟨locals', hlength, hset⟩ := ih h
      exact ⟨f :: locals', by simp [hlength], by simp [setInFrames, hf, hset]⟩

theorem depth_set (e : Environment α) (name : String) (value : α) :
    (e.set name value).depth = e.depth := by
  simpa [depth] using congrArg List.length (keys_frames_set e name value)

/-- `live` is `outer` with `k` further frames inside of its own. -/
def Piled (k : Nat) (outer live : Environment α) : Prop :=
  ∃ locals, locals.length = k ∧ live = outer.pile locals

namespace Piled

variable {k : Nat} {outer live : Environment α}

theorem depth (h : Piled k outer live) : live.depth = k + outer.depth := by
  obtain ⟨locals, rfl, rfl⟩ := h
  exact List.length_append

theorem defineGlobal (h : Piled k outer live) (name : String) (value : α) :
    Piled k (outer.defineGlobal name value) (live.defineGlobal name value) := by
  obtain ⟨locals, hk, rfl⟩ := h
  exact ⟨locals, hk, rfl⟩

theorem setLocal (h : Piled (k + 1) outer live) (name : String) (value : α) :
    Piled (k + 1) outer (live.setLocal name value) := by
  obtain ⟨locals, hk, rfl⟩ := h
  obtain ⟨f, locals, rfl⟩ := List.exists_cons_of_length_eq_add_one hk
  exact ⟨f.insert name value :: locals, hk, rfl⟩

/-- The innermost `k` frames of the live environment decide whose binding is assigned to. -/
theorem set (h : Piled k outer live) (name : String) (value : α) :
    Piled k
      (if (live.frames.take k).all (fun f => !f.has name) then outer.set name value else outer)
      (live.set name value) := by
  obtain ⟨locals, rfl, rfl⟩ := h
  simp only [pile, List.take_left]
  split
  next hlocals =>
    refine ⟨locals, rfl, ?_⟩
    simp only [Environment.set, setInFrames_append_of_unbound hlocals]
    cases setInFrames name value outer.frames <;> rfl
  next hlocals =>
    obtain ⟨locals', hlength, hset⟩ :=
      setInFrames_append_of_bound (by simpa using hlocals) value outer.frames
    refine ⟨locals', hlength, ?_⟩
    simp only [Environment.set, hset, pile]

theorem scope (h : Piled k outer live) (frame : Record α) :
    Piled (k + 1) outer (live.scope frame).1 := by
  obtain ⟨locals, rfl, rfl⟩ := h
  exact ⟨frame :: locals, rfl, rfl⟩

theorem release (h : Piled (k + 1) outer live) :
    Piled k outer (live.release ⟨k + outer.depth + 1⟩) := by
  obtain ⟨locals, hk, rfl⟩ := h
  obtain ⟨f, locals, rfl⟩ := List.exists_cons_of_length_eq_add_one hk
  refine ⟨locals, by simpa using hk, ?_⟩
  have hk : locals.length = k := by simpa using hk
  have hone : (f :: (locals ++ outer.frames)).length - (k + outer.frames.length) = 1 := by
    simp only [List.length_cons, List.length_append]
    omega
  simp only [Environment.release, truncate, pile, Environment.depth, Nat.add_sub_cancel,
    List.cons_append, hone, List.drop_one, List.tail_cons]

theorem eq (h : Piled 0 outer live) : live = outer := by
  obtain ⟨locals, hk, rfl⟩ := h
  rw [List.length_eq_zero_iff.mp hk]
  rfl

end Piled

/-! ## Guards -/

namespace Guarded

variable {s : Guarded α} {g : Guard} {n m : Nat}

theorem step_drop (h : s.guards[n]? = some (some g)) :
    s.step (.drop n) = ⟨s.env.release g, s.guards.set n none⟩ := by
  simp only [step, h, Option.join_some]

/-- A guard stays until it is dropped. -/
theorem getElem?_guards_step {a : Act α} (h : s.guards[n]? = some (some g)) (ha : a ≠ .drop n) :
    (s.step a).guards[n]? = some (some g) := by
  cases a with
  | set | setLocal | defineGlobal | push | pop => exact h
  | scope frame =>
    obtain ⟨hn, -⟩ := List.getElem?_eq_some_iff.mp h
    exact (List.getElem?_append_left hn).trans h
  | drop k =>
    simp only [step]
    split
    · have hk : k ≠ n := fun hk => ha (hk ▸ rfl)
      exact (List.getElem?_set_ne hk).trans h
    · exact h

theorem getElem?_guards_run {acts : List (Act α)} (h : s.guards[n]? = some (some g))
    (hacts : .drop n ∉ acts) : (s.run acts).guards[n]? = some (some g) := by
  induction acts generalizing s with
  | nil => exact h
  | cons a acts ih =>
    obtain ⟨ha, hacts⟩ := not_or.mp (mt List.mem_cons.mpr hacts)
    exact ih (getElem?_guards_step h (Ne.symm ha)) hacts

theorem getElem?_guards_step_scope (s : Guarded α) (frame : Record α) :
    (s.step (.scope frame)).guards[s.guards.length]? = some (some ⟨s.env.depth + 1⟩) := by
  simp [step, Environment.scope, push, depth]

theorem length_guards_step_drop (s : Guarded α) (n : Nat) :
    (s.step (.drop n)).guards.length = s.guards.length := by
  simp only [step]
  split
  · exact List.length_set
  · rfl

end Guarded

theorem Bracketed.le {n m : Nat} {acts : List (Act α)} (h : Bracketed n acts m) : n ≤ m := by
  induction h with
  | nil => exact Nat.le_refl _
  | set _ _ _ ih | setLocal _ _ _ ih | defineGlobal _ _ _ ih => exact ih
  | scope _ _ _ ihinner ihrest => exact Nat.le_trans (Nat.le_of_succ_le ihinner) ihrest

theorem Bracketed.length_guards {n m : Nat} {acts : List (Act α)} (h : Bracketed n acts m)
    {s : Guarded α} (hn : s.guards.length = n) : (s.run acts).guards.length = m := by
  induction h generalizing s with
  | nil => exact hn
  | set _ _ _ ih | setLocal _ _ _ ih | defineGlobal _ _ _ ih => exact ih hn
  | scope frame _ _ ihinner ihrest =>
    simp only [List.cons_append, Guarded.run_cons, Guarded.run_append]
    refine ihrest ((Guarded.length_guards_step_drop ..).trans (ihinner ?_))
    simp [Guarded.step, hn]

/-- Well-bracketed operations drop no guard but those they make. -/
theorem Bracketed.not_mem {n m k : Nat} {acts : List (Act α)} (h : Bracketed n acts m)
    (hk : k < n) : .drop k ∉ acts := by
  induction h with
  | nil => exact List.not_mem_nil
  | set _ _ _ ih | setLocal _ _ _ ih | defineGlobal _ _ _ ih => simpa using ih hk
  | @scope n m _ inner rest frame hinner _ ihinner ihrest =>
    have hm : k < m := Nat.lt_of_lt_of_le (Nat.lt_succ_of_lt hk) hinner.le
    have hne : k ≠ n := Nat.ne_of_lt hk
    simp [ihinner (Nat.lt_succ_of_lt hk), ihrest hm, hne]

/-! ## What a scope leaves behind -/

namespace Guarded

variable {k n m : Nat} {s r : Guarded α} {acts : List (Act α)}

theorem depth_step_of_passes {locals : List (Record α)} {a : Act α}
    (h : a.passes locals = true) (s : Guarded α) : (s.step a).env.depth = s.env.depth := by
  cases a with
  | set name value => exact depth_set ..
  | defineGlobal => rfl
  | setLocal | push | pop | scope | drop => cases h

theorem depth_run_outward (base : Nat) (r s : Guarded α) (acts : List (Act α)) :
    (r.run (s.outward base acts)).env.depth = r.env.depth := by
  induction acts generalizing r s with
  | nil => rfl
  | cons a acts ih =>
    simp only [outward]
    split
    next hpasses => exact (ih ..).trans (depth_step_of_passes hpasses r)
    next => exact ih ..

-- By induction on the brackets. The live environment is at every moment the replay of the
-- operations that went past its inner frames, under as many of these as there are scopes open.
theorem piled_run {base : Nat} (h : Bracketed n acts m) (hn : s.guards.length = n)
    (hs : Piled (k + 1) r.env s.env) (hbase : r.env.depth = base) :
    Piled (k + 1) (r.run (s.outward base acts)).env (s.run acts).env := by
  induction h generalizing k s r with
  | nil => exact hs
  | set name value _ ih =>
    have hstep := hs.set name value
    simp only [outward, Act.passes, hs.depth, hbase, Nat.add_sub_cancel, run_cons]
    split at hstep
    next hpasses =>
      rw [if_pos hpasses]
      exact ih (s := s.step (.set name value)) (r := r.step (.set name value)) hn hstep
        ((depth_set ..).trans hbase)
    next hpasses =>
      rw [if_neg hpasses]
      exact ih (s := s.step (.set name value)) hn hstep hbase
  | setLocal name value _ ih =>
    exact ih (s := s.step (.setLocal name value)) hn (hs.setLocal name value) hbase
  | defineGlobal name value _ ih =>
    exact ih (s := s.step (.defineGlobal name value))
      (r := r.step (.defineGlobal name value)) hn (hs.defineGlobal name value) hbase
  | @scope n m _ inner rest frame hinner hrest ihinner ihrest =>
    let opened := s.step (.scope frame)
    let closed := (opened.run inner).step (.drop n)
    have hlength : opened.guards.length = n + 1 := by simp [opened, step, hn]
    have hopened : Piled (k + 2) r.env opened.env := hs.scope frame
    have hrun := ihinner hlength hopened hbase
    have hdepth : (r.run (opened.outward base inner)).env.depth = base :=
      (depth_run_outward ..).trans hbase
    have hheld : (opened.run inner).guards[n]? = some (some ⟨s.env.depth + 1⟩) :=
      getElem?_guards_run (hn ▸ getElem?_guards_step_scope s frame)
        (hinner.not_mem (Nat.lt_succ_self n))
    have hclosed : Piled (k + 1) (r.run (opened.outward base inner)).env closed.env := by
      have hheight :
          s.env.depth + 1 = k + 1 + (r.run (opened.outward base inner)).env.depth + 1 := by
        rw [hs.depth, hbase, hdepth]
      simp only [closed, step_drop hheld, hheight]
      exact hrun.release
    have hclosedLength : closed.guards.length = m :=
      (length_guards_step_drop ..).trans (hinner.length_guards hlength)
    have houtward : s.outward base (.scope frame :: inner ++ .drop n :: rest) =
        opened.outward base inner ++ closed.outward base rest := by
      simp [opened, closed, outward, Act.passes, outward_append]
    rw [houtward, run_append, List.cons_append, run_cons, run_append, run_cons]
    exact ihrest hclosedLength hclosed hdepth

/-- A guard keeps the frames below its own, the outermost ones, and nothing else changes. -/
theorem step_drop_scope {frame : Record α} (hacts : .drop s.guards.length ∉ acts) :
    (s.run (.scope frame :: acts ++ [.drop s.guards.length])).env =
      (s.run (.scope frame :: acts)).env.truncate s.env.depth := by
  have hheld := getElem?_guards_run (getElem?_guards_step_scope s frame) hacts
  simp only [List.cons_append, run_cons, run_append, run_nil, step_drop hheld]
  rfl

end Guarded

/-- The frames that are kept, seen from the outermost one. -/
theorem reverse_frames_truncate (e : Environment α) (n : Nat) :
    (e.truncate n).frames.reverse = e.frames.reverse.take (min e.depth n) := by
  simp only [truncate, depth, List.take_reverse]
  congr 2
  omega

/-- Scopes are hygienic, from any environment and with any guards already made. After well-bracketed
operations, dropping the guard of a scope leaves the environment from before the scope, changed in
order by just the operations that went past the frames of the scope. And whatever happens to the
environment, other guards included, dropping the guard leaves the globals and the frames below its
own, as many of them as there still are, and removes all others. -/
theorem scope_hygiene (s : Guarded α) (frame : Record α) :
    (∀ acts m, Bracketed (s.guards.length + 1) acts m →
      (s.run (.scope frame :: acts ++ [.drop s.guards.length])).env =
        (s.run ((s.step (.scope frame)).outward s.env.depth acts)).env) ∧
    (∀ acts, .drop s.guards.length ∉ acts →
      let own := (s.step (.scope frame)).env.depth
      let before := s.run (.scope frame :: acts)
      let after := s.run (.scope frame :: acts ++ [.drop s.guards.length])
      after.env.globals = before.env.globals ∧
        after.env.frames.reverse =
          before.env.frames.reverse.take (min before.env.depth (own - 1))) := by
  constructor
  · intro acts m hacts
    have hpiled : Piled 1 s.env (s.step (.scope frame)).env :=
      ⟨[frame], rfl, rfl⟩
    have hrun := Guarded.piled_run hacts (s := s.step (.scope frame)) (by simp [Guarded.step])
      hpiled rfl
    rw [Guarded.step_drop_scope (hacts.not_mem (Nat.lt_succ_self _))]
    have hdepth := Guarded.depth_run_outward s.env.depth s (s.step (.scope frame)) acts
    have hrelease := hrun.release.eq
    rw [Nat.zero_add, hdepth] at hrelease
    exact hrelease
  · intro acts hacts own before after
    have hafter : after.env = before.env.truncate (own - 1) := Guarded.step_drop_scope hacts
    rw [hafter]
    exact ⟨rfl, reverse_frames_truncate ..⟩

/-- A scope in which a global is assigned to before and after it is shadowed, and a frame outside
within and after a nested scope; and a scope whose frame is long gone when its guard is dropped. -/
theorem scope_hygiene_nested :
    let s : Guarded Nat := ⟨⟨[("x", 1)], [[("y", 2)]]⟩, [some ⟨1⟩]⟩
    let nested : List (Act Nat) :=
      [.set "x" 3, .setLocal "x" 4, .scope [("y", 5)], .set "x" 6, .set "y" 7, .drop 2,
        .set "y" 8, .defineGlobal "f" 9]
    let crossed : List (Act Nat) :=
      [.push [], .scope [("z", 3)], .drop 0, .push [("w", 4)], .push []]
    ((s.run (.scope [("f", 0)] :: nested ++ [.drop 1])).env =
      ⟨[("x", 3), ("f", 9)], [[("y", 8)]]⟩) ∧
    (s.run (.scope [("f", 0)] :: crossed ++ [.drop 1])).env.frames.reverse = [[("w", 4)]] := by
  have hinner : Bracketed 2 (.scope [("y", 5)] :: [.set "x" 6, .set "y" 7] ++
      .drop 2 :: [.set "y" 8, .defineGlobal "f" 9]) 3 :=
    .scope _ (.set _ _ (.set _ _ .nil)) (.set _ _ (.defineGlobal _ _ .nil))
  refine ⟨((scope_hygiene _ _).1 _ 3 ?_).trans ?_, ((scope_hygiene _ _).2 _ ?_).2.trans ?_⟩
  · exact .set _ _ (.setLocal _ _ hinner)
  · rfl
  · simp
  · rfl

end Environment

end Lisplet
