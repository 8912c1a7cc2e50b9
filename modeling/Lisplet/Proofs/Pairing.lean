import Lisplet.Interpreter.Run

/-!
# Values of two runs

Two runs of an interpreter are compared through a pairing: which cell of the one run stands for
which cell of the other. Values are alike when they differ in nothing but the cells they mention,
and these are paired. What an operation can tell of a value without looking into the heap it can
tell of both.
-/

namespace Lisplet

/-- Which list and which struct of one run stands for which of another. -/
structure Pairing where
  list : Nat → Nat → Prop
  struct : Nat → Nat → Prop

namespace Pairing

mutual

/-- Values that differ in nothing but the cells they mention, which are paired. -/
inductive Alike (p : Pairing) : Value → Value → Prop
  | nil : Alike p .nil .nil
  | true : Alike p .true .true
  | int (n : Int64) : Alike p (.int n) (.int n)
  | double (d : Double) : Alike p (.double d) (.double d)
  | str (s : String) : Alike p (.str s) (.str s)
  | list {a b : Nat} (h : p.list a b) : Alike p (.list a) (.list b)
  | struct {a b : Nat} (h : p.struct a b) : Alike p (.struct a) (.struct b)
  | symbol (path : String) : Alike p (.symbol path) (.symbol path)
  | expr {vs ws : List Value} (h : AlikeAll p vs ws) : Alike p (.expr vs) (.expr ws)
  | primitive (id : Nat) (name : String) (op : Operation) :
      Alike p (.primitive id name op) (.primitive id name op)
  | checked (id : Nat) (name : String) (contract : List Kind) (op : Operation) :
      Alike p (.checked id name contract op) (.checked id name contract op)
  | closure (id : Nat) (params : List String) {r q : List (String × Value)} {v w : Value}
      (hcaptured : AlikeFields p r q) (hbody : Alike p v w) :
      Alike p (.closure id r params v) (.closure id q params w)
  | leaving {v w : Value} (h : Alike p v w) : Alike p (.leaving v) (.leaving w)
  | breaking {v w : Value} (h : Alike p v w) : Alike p (.breaking v) (.breaking w)
  | goto (target : String) : Alike p (.goto target) (.goto target)
  | label (name : String) : Alike p (.label name) (.label name)
  | error (e : Error) : Alike p (.error e) (.error e)

inductive AlikeAll (p : Pairing) : List Value → List Value → Prop
  | nil : AlikeAll p [] []
  | cons {v w : Value} {vs ws : List Value} (h : Alike p v w) (hs : AlikeAll p vs ws) :
      AlikeAll p (v :: vs) (w :: ws)

inductive AlikeFields (p : Pairing) : List (String × Value) → List (String × Value) → Prop
  | nil : AlikeFields p [] []
  | cons (key : String) {v w : Value} {r q : List (String × Value)} (h : Alike p v w)
      (hs : AlikeFields p r q) : AlikeFields p ((key, v) :: r) ((key, w) :: q)

end

structure Within (p q : Pairing) : Prop where
  list : ∀ {a b : Nat}, p.list a b → q.list a b
  struct : ∀ {a b : Nat}, p.struct a b → q.struct a b

theorem Within.refl (p : Pairing) : p.Within p :=
  ⟨id, id⟩

variable {p q : Pairing} {v w : Value} {vs ws : List Value} {r t : Record Value}

mutual

theorem Alike.mono (h : p.Within q) : ∀ {v w : Value}, p.Alike v w → q.Alike v w
  | _, _, .nil => .nil
  | _, _, .true => .true
  | _, _, .int n => .int n
  | _, _, .double d => .double d
  | _, _, .str s => .str s
  | _, _, .list ha => .list (h.list ha)
  | _, _, .struct ha => .struct (h.struct ha)
  | _, _, .symbol path => .symbol path
  | _, _, .expr hs => .expr (AlikeAll.mono h hs)
  | _, _, .primitive id name op => .primitive id name op
  | _, _, .checked id name contract op => .checked id name contract op
  | _, _, .closure id params hr hv => .closure id params (AlikeFields.mono h hr) (Alike.mono h hv)
  | _, _, .leaving hv => .leaving (Alike.mono h hv)
  | _, _, .breaking hv => .breaking (Alike.mono h hv)
  | _, _, .goto target => .goto target
  | _, _, .label name => .label name
  | _, _, .error e => .error e

theorem AlikeAll.mono (h : p.Within q) :
    ∀ {vs ws : List Value}, p.AlikeAll vs ws → q.AlikeAll vs ws
  | _, _, .nil => .nil
  | _, _, .cons hv hs => .cons (Alike.mono h hv) (AlikeAll.mono h hs)

theorem AlikeFields.mono (h : p.Within q) :
    ∀ {r t : List (String × Value)}, p.AlikeFields r t → q.AlikeFields r t
  | _, _, .nil => .nil
  | _, _, .cons key hv hs => .cons key (Alike.mono h hv) (AlikeFields.mono h hs)

end

/-! ## One run and itself -/

def same : Pairing :=
  ⟨Eq, Eq⟩

mutual

theorem Alike.eq (h : p.Within same) : ∀ {v w : Value}, p.Alike v w → v = w
  | _, _, .nil | _, _, .true | _, _, .int _ | _, _, .double _ | _, _, .str _ => rfl
  | _, _, .list ha => congrArg _ (h.list ha)
  | _, _, .struct ha => congrArg _ (h.struct ha)
  | _, _, .symbol _ => rfl
  | _, _, .expr hs => congrArg _ (AlikeAll.eq h hs)
  | _, _, .primitive .. | _, _, .checked .. => rfl
  | _, _, .closure _ _ hr hv => by rw [AlikeFields.eq h hr, Alike.eq h hv]
  | _, _, .leaving hv => congrArg _ (Alike.eq h hv)
  | _, _, .breaking hv => congrArg _ (Alike.eq h hv)
  | _, _, .goto _ | _, _, .label _ | _, _, .error _ => rfl

theorem AlikeAll.eq (h : p.Within same) : ∀ {vs ws : List Value}, p.AlikeAll vs ws → vs = ws
  | _, _, .nil => rfl
  | _, _, .cons hv hs => by rw [Alike.eq h hv, AlikeAll.eq h hs]

theorem AlikeFields.eq (h : p.Within same) :
    ∀ {r t : List (String × Value)}, p.AlikeFields r t → r = t
  | _, _, .nil => rfl
  | _, _, .cons _ hv hs => by rw [Alike.eq h hv, AlikeFields.eq h hs]

end

mutual

theorem Alike.refl : (v : Value) → same.Alike v v
  | .nil => .nil
  | .true => .true
  | .int n => .int n
  | .double d => .double d
  | .str s => .str s
  | .list _ => .list rfl
  | .struct _ => .struct rfl
  | .symbol path => .symbol path
  | .expr items => .expr (AlikeAll.refl items)
  | .primitive id name op => .primitive id name op
  | .checked id name contract op => .checked id name contract op
  | .closure id captured params body =>
    .closure id params (AlikeFields.refl captured) (Alike.refl body)
  | .leaving v => .leaving (Alike.refl v)
  | .breaking v => .breaking (Alike.refl v)
  | .goto target => .goto target
  | .label name => .label name
  | .error e => .error e

theorem AlikeAll.refl : (vs : List Value) → same.AlikeAll vs vs
  | [] => .nil
  | v :: vs => .cons (Alike.refl v) (AlikeAll.refl vs)

theorem AlikeFields.refl : (r : List (String × Value)) → same.AlikeFields r r
  | [] => .nil
  | (key, v) :: r => .cons key (Alike.refl v) (AlikeFields.refl r)

end

/-! ## What can be told without the heap -/

theorem Alike.isSignal (h : p.Alike v w) : v.isSignal = w.isSignal := by
  cases h <;> rfl

theorem Alike.isNil (h : p.Alike v w) : v.isNil = w.isNil := by
  cases h <;> rfl

theorem Alike.isTruthy (h : p.Alike v w) : v.isTruthy = w.isTruthy :=
  congrArg Bool.not h.isNil

theorem Alike.typeName (h : p.Alike v w) : v.typeName = w.typeName := by
  cases h <;> rfl

theorem Alike.labelName? (h : p.Alike v w) : v.labelName? = w.labelName? := by
  cases h <;> rfl

theorem Alike.literalLabel? (h : p.Alike v w) : v.literalLabel? = w.literalLabel? := by
  cases h with
  | expr hs =>
    cases hs with
    | nil => rfl
    | cons hv hs =>
      cases hs with
      | nil => cases hv <;> rfl
      | cons hw hs =>
        cases hv with
        | symbol path =>
          by_cases hlabel : path = "label"
          · subst hlabel
            cases hs with
            | nil => exact hw.labelName?
            | cons => rfl
          · simp [Value.literalLabel?, hlabel]
        | _ => rfl
  | _ => rfl

theorem AlikeAll.literalLabels (h : p.AlikeAll vs ws) (labels : Record Nat) (pos : Nat) :
    Lisplet.literalLabels labels pos vs = Lisplet.literalLabels labels pos ws := by
  induction vs generalizing ws labels pos with
  | nil =>
    cases h
    rfl
  | cons v vs ih =>
    cases h with
    | cons hv hs =>
      simp only [Lisplet.literalLabels, hv.literalLabel?]
      split
      · exact ih hs _ _
      · exact ih hs _ _

theorem alike_ofBool (b : Bool) : p.Alike (.ofBool b) (.ofBool b) := by
  cases b
  · exact .nil
  · exact .true

/-- A kind takes one value exactly if it takes the other, and what it makes of them is alike. -/
theorem Alike.accept? (h : p.Alike v w) (kind : Kind) :
    kind.accept? v = none ∧ kind.accept? w = none ∨
      ∃ v' w', kind.accept? v = some v' ∧ kind.accept? w = some w' ∧ p.Alike v' w' := by
  cases kind with
  | any | rest | unevaluated | restUnevaluated =>
    cases h <;> exact .inr ⟨_, _, rfl, rfl, by constructor <;> assumption⟩
  | _ =>
    cases h <;> first
      | exact .inl ⟨rfl, rfl⟩
      | exact .inr ⟨_, _, rfl, rfl, by constructor <;> assumption⟩

/-! ## Sequences and records -/

theorem AlikeAll.length_eq (h : p.AlikeAll vs ws) : vs.length = ws.length := by
  induction vs generalizing ws with
  | nil =>
    cases h
    rfl
  | cons v vs ih =>
    cases h with
    | cons hv hs => rw [List.length_cons, List.length_cons, ih hs]

theorem AlikeAll.append {vs' ws' : List Value} (h : p.AlikeAll vs ws) (h' : p.AlikeAll vs' ws') :
    p.AlikeAll (vs ++ vs') (ws ++ ws') := by
  induction vs generalizing ws with
  | nil =>
    cases h
    exact h'
  | cons v vs ih =>
    cases h with
    | cons hv hs => exact .cons hv (ih hs)

theorem AlikeAll.reverse (h : p.AlikeAll vs ws) : p.AlikeAll vs.reverse ws.reverse := by
  induction vs generalizing ws with
  | nil =>
    cases h
    exact .nil
  | cons v vs ih =>
    cases h with
    | cons hv hs =>
      rw [List.reverse_cons, List.reverse_cons]
      exact (ih hs).append (.cons hv .nil)

theorem AlikeAll.drop (h : p.AlikeAll vs ws) (n : Nat) : p.AlikeAll (vs.drop n) (ws.drop n) := by
  induction n generalizing vs ws with
  | zero => exact h
  | succ n ih =>
    cases h with
    | nil => exact .nil
    | cons hv hs => exact ih hs

theorem AlikeAll.getD (h : p.AlikeAll vs ws) (n : Nat) :
    p.Alike (vs[n]?.getD .nil) (ws[n]?.getD .nil) := by
  induction n generalizing vs ws with
  | zero =>
    cases h with
    | nil => exact .nil
    | cons hv hs => exact hv
  | succ n ih =>
    cases h with
    | nil => exact .nil
    | cons hv hs => exact ih hs

theorem AlikeAll.set (h : p.AlikeAll vs ws) (n : Nat) (hv : p.Alike v w) :
    p.AlikeAll (vs.set n v) (ws.set n w) := by
  induction n generalizing vs ws with
  | zero =>
    cases h with
    | nil => exact .nil
    | cons _ hs => exact .cons hv hs
  | succ n ih =>
    cases h with
    | nil => exact .nil
    | cons hu hs => exact .cons hu (ih hs)

theorem alikeAll_strings (names : List String) : p.AlikeAll (names.map .str) (names.map .str) := by
  induction names with
  | nil => exact .nil
  | cons name names ih => exact .cons (.str name) ih

theorem AlikeFields.keys_eq (h : p.AlikeFields r t) : Record.keys r = Record.keys t := by
  induction r generalizing t with
  | nil =>
    cases h
    rfl
  | cons e r ih =>
    cases h with
    | cons key hv hs =>
      show key :: Record.keys r = key :: Record.keys _
      rw [ih hs]

theorem AlikeFields.length_eq (h : p.AlikeFields r t) : r.length = t.length := by
  have hkeys := congrArg List.length h.keys_eq
  rwa [Record.keys, Record.keys, List.length_map, List.length_map] at hkeys

theorem AlikeFields.insert (h : p.AlikeFields r t) (key : String) (hv : p.Alike v w) :
    p.AlikeFields (r.insert key v) (t.insert key w) := by
  induction r generalizing t with
  | nil =>
    cases h
    exact .cons key hv .nil
  | cons e r ih =>
    cases h with
    | cons k hu hs =>
      unfold Record.insert
      by_cases hk : k = key
      · rw [if_pos hk, if_pos hk]
        exact .cons k hv hs
      · rw [if_neg hk, if_neg hk]
        exact .cons k hu (ih hs)

/-- A key is bound in both records or in none. -/
theorem AlikeFields.get? (h : p.AlikeFields r t) (key : String) :
    r.get? key = none ∧ t.get? key = none ∨
      ∃ v w, r.get? key = some v ∧ t.get? key = some w ∧ p.Alike v w := by
  induction r generalizing t with
  | nil =>
    cases h
    exact .inl ⟨rfl, rfl⟩
  | cons e r ih =>
    cases h with
    | cons k hv hs =>
      unfold Record.get?
      by_cases hk : k = key
      · rw [if_pos hk, if_pos hk]
        exact .inr ⟨_, _, rfl, rfl, hv⟩
      · rw [if_neg hk, if_neg hk]
        exact ih hs

theorem AlikeFields.has_eq (h : p.AlikeFields r t) (key : String) : r.has key = t.has key := by
  unfold Record.has
  rcases h.get? key with ⟨hr, ht⟩ | ⟨v, w, hr, ht, -⟩
  · rw [hr, ht]
  · rw [hr, ht]
    rfl

theorem alikeFields_names (names : List String) :
    p.AlikeFields (Record.ofEntries (names.map fun name => (name, Value.nil)))
      (Record.ofEntries (names.map fun name => (name, Value.nil))) := by
  refine List.foldlRecOn (motive := fun r => p.AlikeFields r r) _ _ .nil ?_
  intro r hr entry hentry
  obtain ⟨name, -, rfl⟩ := List.mem_map.mp hentry
  exact AlikeFields.insert hr name .nil

theorem AlikeFields.bindParams (h : p.AlikeFields r t) (params : List String)
    (hs : p.AlikeAll vs ws) :
    p.AlikeFields (Lisplet.bindParams r params vs) (Lisplet.bindParams t params ws) := by
  induction params generalizing r t vs ws with
  | nil => exact h
  | cons name params ih =>
    cases hs with
    | nil => exact ih (h.insert name .nil) .nil
    | cons hv hs => exact ih (h.insert name hv) hs

/-! ## Environments -/

inductive AlikeFrames (p : Pairing) : List (Record Value) → List (Record Value) → Prop
  | nil : AlikeFrames p [] []
  | cons {r t : Record Value} {fs gs : List (Record Value)} (h : p.AlikeFields r t)
      (hs : AlikeFrames p fs gs) : AlikeFrames p (r :: fs) (t :: gs)

structure AlikeEnv (p : Pairing) (e f : Environment Value) : Prop where
  globals : p.AlikeFields e.globals f.globals
  frames : p.AlikeFrames e.frames f.frames

variable {fs gs : List (Record Value)} {e f : Environment Value}

theorem AlikeFrames.mono (h : p.Within q) (hs : p.AlikeFrames fs gs) : q.AlikeFrames fs gs := by
  induction hs with
  | nil => exact .nil
  | cons hr _ ih => exact .cons (hr.mono h) ih

theorem AlikeEnv.mono (h : p.Within q) (he : p.AlikeEnv e f) : q.AlikeEnv e f :=
  ⟨he.globals.mono h, he.frames.mono h⟩

theorem AlikeFrames.eq (h : p.Within same) (hs : p.AlikeFrames fs gs) : fs = gs := by
  induction hs with
  | nil => rfl
  | cons hr _ ih => rw [hr.eq h, ih]

theorem AlikeEnv.eq (h : p.Within same) (he : p.AlikeEnv e f) : e = f := by
  obtain ⟨hglobals, hframes⟩ := he
  cases e
  cases f
  congr
  · exact hglobals.eq h
  · exact hframes.eq h

theorem AlikeFrames.refl (fs : List (Record Value)) : same.AlikeFrames fs fs := by
  induction fs with
  | nil => exact .nil
  | cons r fs ih => exact .cons (.refl r) ih

theorem AlikeEnv.refl (e : Environment Value) : same.AlikeEnv e e :=
  ⟨.refl e.globals, .refl e.frames⟩

theorem AlikeFrames.length_eq (h : p.AlikeFrames fs gs) : fs.length = gs.length := by
  induction h with
  | nil => rfl
  | cons _ _ ih => rw [List.length_cons, List.length_cons, ih]

theorem AlikeFrames.drop (h : p.AlikeFrames fs gs) (n : Nat) :
    p.AlikeFrames (fs.drop n) (gs.drop n) := by
  induction n generalizing fs gs with
  | zero => exact h
  | succ n ih =>
    cases h with
    | nil => exact .nil
    | cons _ hs => exact ih hs

theorem AlikeFrames.find? (h : p.AlikeFrames fs gs) (name : String) :
    fs.findSome? (Record.get? name) = none ∧ gs.findSome? (Record.get? name) = none ∨
      ∃ v w, fs.findSome? (Record.get? name) = some v ∧
        gs.findSome? (Record.get? name) = some w ∧ p.Alike v w := by
  induction h with
  | nil => exact .inl ⟨rfl, rfl⟩
  | cons hr _ ih =>
    rcases hr.get? name with ⟨hr, ht⟩ | ⟨v, w, hr, ht, hv⟩
    · rw [List.findSome?_cons, List.findSome?_cons, hr, ht]
      exact ih
    · rw [List.findSome?_cons, List.findSome?_cons, hr, ht]
      exact .inr ⟨v, w, rfl, rfl, hv⟩

/-- A name is bound in both environments or in none. -/
theorem AlikeEnv.get? (h : p.AlikeEnv e f) (name : String) :
    e.get? name = none ∧ f.get? name = none ∨
      ∃ v w, e.get? name = some v ∧ f.get? name = some w ∧ p.Alike v w := by
  unfold Environment.get?
  rcases h.frames.find? name with ⟨he, hf⟩ | ⟨v, w, he, hf, hv⟩
  · rw [he, hf]
    exact h.globals.get? name
  · rw [he, hf]
    exact .inr ⟨v, w, rfl, rfl, hv⟩

theorem AlikeFrames.setInFrames (h : p.AlikeFrames fs gs) (name : String) (hv : p.Alike v w) :
    Environment.setInFrames name v fs = none ∧ Environment.setInFrames name w gs = none ∨
      ∃ fs' gs', Environment.setInFrames name v fs = some fs' ∧
        Environment.setInFrames name w gs = some gs' ∧ p.AlikeFrames fs' gs' := by
  induction h with
  | nil => exact .inl ⟨rfl, rfl⟩
  | @cons r t fs gs hr hs ih =>
    unfold Environment.setInFrames
    rw [← hr.has_eq name]
    by_cases hname : r.has name = true
    · rw [if_pos hname, if_pos hname]
      exact .inr ⟨_, _, rfl, rfl, .cons (hr.insert name hv) hs⟩
    · rw [if_neg hname, if_neg hname]
      rcases ih with ⟨hf, hg⟩ | ⟨fs', gs', hf, hg, hs'⟩
      · rw [hf, hg]
        exact .inl ⟨rfl, rfl⟩
      · rw [hf, hg]
        exact .inr ⟨_, _, rfl, rfl, .cons hr hs'⟩

theorem AlikeEnv.set (h : p.AlikeEnv e f) (name : String) (hv : p.Alike v w) :
    p.AlikeEnv (e.set name v) (f.set name w) := by
  unfold Environment.set
  rcases h.frames.setInFrames name hv with ⟨he, hf⟩ | ⟨fs, gs, he, hf, hs⟩
  · rw [he, hf]
    exact ⟨h.globals.insert name hv, h.frames⟩
  · rw [he, hf]
    exact ⟨h.globals, hs⟩

theorem AlikeEnv.scope (h : p.AlikeEnv e f) (hr : p.AlikeFields r t) :
    p.AlikeEnv (e.scope r).1 (f.scope t).1 ∧ (e.scope r).2 = (f.scope t).2 := by
  refine ⟨⟨h.globals, .cons hr h.frames⟩, ?_⟩
  simp only [Environment.scope, Environment.push, Environment.depth, List.length_cons,
    h.frames.length_eq]

theorem AlikeEnv.release (h : p.AlikeEnv e f) (guard : Guard) :
    p.AlikeEnv (e.release guard) (f.release guard) := by
  refine ⟨h.globals, ?_⟩
  show p.AlikeFrames (e.frames.drop (e.frames.length - (guard.height - 1)))
    (f.frames.drop (f.frames.length - (guard.height - 1)))
  rw [h.frames.length_eq]
  exact h.frames.drop _

end Pairing

end Lisplet
