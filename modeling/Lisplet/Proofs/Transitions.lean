import Lisplet.Proofs.Readable

/-!
# What a character does to the machine

The machine remembers where things begin: the open brackets, and what it is reading inside of them.
This module says once what a character can do to all of this. Looking at it makes no new position,
opens no bracket and completes one form at most; reading it makes its own position known, and opens
one bracket at most, if it is one and if there is room. A form that is completed at the outermost
level leaves nothing else behind, and a fault is about a position that the machine remembers.
-/

namespace Lisplet.Reader

open CharClass

/-! ## Positions and open brackets -/

def Open.start : Open → Nat
  | .expr start _ | .list start _ | .field start _ _ => start

/-- Where what is being read begins. A quoted word is never a fault and does not say. -/
def Mode.start? : Mode → Option Nat
  | .blank | .word _ => none
  | .minus start _ | .number start _ _ | .symbol start _ | .string start _ _ | .tick start
  | .fields start _ | .key start _ _ | .colon start _ _ => some start

def State.starts (s : State) : List Nat :=
  s.mode.start?.toList ++ s.stack.map Open.start

/-- The characters that open a bracket, unless they are inside of a string. -/
def opensBracket (c : Char) : Bool :=
  ofChar c = .openParen || ofChar c = .openBrace

def closesBracket (c : Char) : Bool :=
  ofChar c = .closeParen || ofChar c = .closeBrace

/-- What a step may do to the machine. Positions come from `new` or were there before, and a bracket
is opened or closed only if `opening` or `closing` allows it. -/
structure State.Follows (new : List Nat) (opening closing : Prop) (s u : State) : Prop where
  starts : ∀ p ∈ u.starts, p ∈ new ++ s.starts
  nesting : u.nesting = s.nesting ∨
    (opening ∧ s.nesting < maxNesting ∧ u.nesting = s.nesting + 1) ∨
    closing ∧ u.nesting + 1 = s.nesting
  forms : u.forms = s.forms ∨ ∃ f, u = ⟨f :: s.forms, [], .blank⟩

/-- The same of what a step comes to, which may be a fault. Only a bracket is ever too deep. -/
def State.Yields (new : List Nat) (opening closing : Prop) (s : State) : Except Fault State → Prop
  | .ok u => s.Follows new opening closing u
  | .error f => f.start ∈ new ++ s.starts ∧
      (f.what = .nestingTooDeep → opening ∧ maxNesting ≤ s.nesting)

section

variable {new : List Nat} {opening closing : Prop} {s t : State} {start pos : Nat} {c : Char}
  {mode : Mode}

/-! ## Forms and brackets -/

/-- With a form delivered, the positions left are those of the stack. -/
theorem starts_deliver (s : State) (f : Form) : (s.deliver f).starts = s.stack.map Open.start := by
  obtain ⟨forms, stack, mode⟩ := s
  cases stack with
  | nil => rfl
  | cons top stack => cases top <;> rfl

theorem nesting_of_mode (h : s.mode.depth = 0) : s.nesting = s.stack.length := by
  unfold State.nesting
  rw [h]
  rfl

theorem nesting_deliver (s : State) (f : Form) : (s.deliver f).nesting = s.stack.length := by
  obtain ⟨forms, stack, mode⟩ := s
  cases stack with
  | nil => rfl
  | cons top stack => cases top <;> rfl

theorem forms_deliver (s : State) (f : Form) :
    (s.deliver f).forms = s.forms ∨ s.deliver f = ⟨f :: s.forms, [], .blank⟩ := by
  obtain ⟨forms, stack, mode⟩ := s
  cases stack with
  | nil => exact .inr rfl
  | cons top stack => cases top <;> exact .inl rfl

/-- A form is delivered, to the innermost bracket or to one further out that it has closed. -/
theorem follows_deliver {stack : List Open} (h : stack <:+ s.stack)
    (hnesting : stack.length = s.nesting ∨ closing ∧ stack.length + 1 = s.nesting) (f : Form) :
    s.Follows new opening closing (State.deliver { s with stack } f) where
  starts := by
    intro p hp
    rw [starts_deliver] at hp
    obtain ⟨o, ho, rfl⟩ := List.mem_map.mp hp
    exact List.mem_append_right _
      (List.mem_append_right _ (List.mem_map_of_mem (h.subset ho)))
  nesting := by
    rw [nesting_deliver]
    exact hnesting.imp_right .inr
  forms := (forms_deliver { s with stack } f).imp_right fun h => ⟨f, h⟩

theorem follows_close {o : Open} {stack : List Open} (hmode : s.mode.depth = 0)
    (hstack : s.stack = o :: stack) (hclosing : closing) (f : Form) :
    s.Follows new opening closing (State.deliver { s with stack } f) := by
  refine follows_deliver (hstack ▸ List.suffix_cons o stack) (.inr ⟨hclosing, ?_⟩) f
  rw [nesting_of_mode hmode, hstack]
  rfl

theorem mem_starts_of_mode (h : s.mode.start? = some start) : start ∈ new ++ s.starts :=
  List.mem_append_right _ (List.mem_append_left _ (Option.mem_toList.mpr h))

theorem mem_starts_of_stack {o : Open} (h : o ∈ s.stack) : o.start ∈ new ++ s.starts :=
  List.mem_append_right _ (List.mem_append_right _ (List.mem_map_of_mem h))

/-- Only what is being read changes. -/
theorem follows_mode (hstart : ∀ p, mode.start? = some p → p ∈ new ++ s.starts)
    (hdepth : mode.depth = s.mode.depth) : s.Follows new opening closing { s with mode } where
  starts := by
    intro p hp
    rcases List.mem_append.mp hp with hp | hp
    · exact hstart p (Option.mem_toList.mp hp)
    · exact List.mem_append_right _ (List.mem_append_right _ hp)
  nesting := .inl (congrArg (s.stack.length + ·) hdepth)
  forms := .inl rfl

theorem follows_refl : s.Follows new opening closing s :=
  show s.Follows new opening closing { s with mode := s.mode } from
    follows_mode (fun _ hp => mem_starts_of_mode hp) rfl

theorem State.Follows.nesting_eq (h : s.Follows new False False t) : t.nesting = s.nesting := by
  rcases h.nesting with hsame | ⟨hfalse, -⟩ | ⟨hfalse, -⟩
  · exact hsame
  · exact hfalse.elim
  · exact hfalse.elim

theorem yields_error {what : Complaint} (h : start ∈ new ++ s.starts)
    (hwhat : what ≠ .nestingTooDeep) : s.Yields new opening closing (.error ⟨what, start⟩) :=
  ⟨h, fun he => absurd he hwhat⟩

/-- Two steps, of which the first neither reads a character nor completes a form. -/
theorem State.Follows.trans {u : State} (h : s.Follows [] False False t)
    (hforms : t.forms = s.forms) (h' : t.Follows new opening closing u) :
    s.Follows new opening closing u where
  starts := by
    intro p hp
    rcases List.mem_append.mp (h'.starts p hp) with hp | hp
    · exact List.mem_append_left _ hp
    · exact List.mem_append_right _ (h.starts p hp)
  nesting := h.nesting_eq ▸ h'.nesting
  forms := hforms ▸ h'.forms

/-! ## Looking at a character -/

theorem yields_endLexeme (s : State) (next : CharClass) :
    s.Yields new opening closing (s.endLexeme next) := by
  have hdeliver : s.mode.depth = 0 → ∀ f, s.Follows new opening closing (s.deliver f) :=
    fun hmode f => follows_deliver (List.suffix_refl s.stack) (.inl (nesting_of_mode hmode).symm) f
  unfold State.endLexeme
  split
  next start point text hmode =>
    split
    · split
      · exact hdeliver (by rw [hmode]; rfl) _
      · exact yields_error (mem_starts_of_mode (by rw [hmode]; rfl)) (by decide)
    · exact follows_refl
  next start text hmode =>
    split
    · exact follows_refl
    · split
      · exact hdeliver (by rw [hmode]; rfl) _
      · exact yields_error (mem_starts_of_mode (by rw [hmode]; rfl)) (by decide)
  next text hmode =>
    split
    · exact hdeliver (by rw [hmode]; rfl) _
    · exact follows_refl
  next start fields text hmode =>
    split
    · exact follows_refl
    · refine follows_mode (fun p hp => mem_starts_of_mode ?_) (by rw [hmode]; rfl)
      rw [hmode]
      exact hp
  next => exact follows_refl

theorem follows_decideMinus (s : State) (next : CharClass) :
    s.Follows new opening closing (s.decideMinus next) ∧ (s.decideMinus next).forms = s.forms := by
  unfold State.decideMinus
  split
  next start quoted hmode =>
    refine ⟨follows_mode (fun p hp => mem_starts_of_mode ?_) ?_, rfl⟩
    · rw [hmode]
      split at hp
      · exact hp
      · split at hp
        · cases hp
        · exact hp
    · rw [hmode]
      split
      · rfl
      · split <;> rfl
  next => exact ⟨follows_refl, rfl⟩

theorem yields_refuse (s : State) (next : Option Char) :
    s.Yields new opening closing (s.refuse next) := by
  unfold State.refuse
  split
  next start fields key c hmode =>
    split
    · exact follows_refl
    · exact yields_error (mem_starts_of_mode (by rw [hmode]; rfl)) (by decide)
  next start fields key stack c hmode hstack =>
    split
    · exact yields_error (mem_starts_of_stack (o := .field start fields key)
        (by rw [hstack]; exact List.mem_cons_self)) (by decide)
    · exact follows_refl
  next => exact follows_refl

theorem yields_settle (s : State) (next : Option Char) :
    s.Yields [] False False (s.settle next) := by
  unfold State.settle
  generalize next.elim .endOfText ofChar = cls
  obtain ⟨hminus, hforms⟩ : s.Follows [] False False (s.decideMinus cls) ∧
      (s.decideMinus cls).forms = s.forms := follows_decideMinus s cls
  have hlexeme : (s.decideMinus cls).Yields [] False False ((s.decideMinus cls).endLexeme cls) :=
    yields_endLexeme _ cls
  dsimp only
  cases hend : (s.decideMinus cls).endLexeme cls with
  | error f =>
    rw [hend] at hlexeme
    exact ⟨hminus.starts _ hlexeme.1, fun hdeep => (hlexeme.2 hdeep).1.elim⟩
  | ok t =>
    rw [hend] at hlexeme
    have hfollows : s.Follows [] False False t := hminus.trans hforms hlexeme
    have hrefuse : t.Yields [] False False (t.refuse next) := yields_refuse t next
    dsimp only
    cases href : t.refuse next with
    | error f =>
      rw [href] at hrefuse
      exact ⟨hfollows.starts _ hrefuse.1, fun hdeep => (hrefuse.2 hdeep).1.elim⟩
    | ok u =>
      rw [eq_of_refuse href]
      exact hfollows

/-! ## Reading a character -/

/-- A bracket is opened if there is room for it. -/
theorem yields_nest {opened : State} (hmode : s.mode.depth = 0) (hstart : start ∈ new ++ s.starts)
    (hopening : opening) (hstarts : ∀ p ∈ opened.starts, p ∈ new ++ s.starts)
    (hnesting : opened.nesting = s.nesting + 1) (hforms : opened.forms = s.forms) :
    s.Yields new opening closing (s.nest start opened) := by
  unfold State.nest
  rw [← nesting_of_mode hmode]
  split
  next hroom => exact ⟨hstarts, .inr (.inl ⟨hopening, hroom, hnesting⟩), .inl hforms⟩
  next hfull => exact ⟨hstart, fun _ => ⟨hopening, Nat.le_of_not_lt hfull⟩⟩

theorem yields_beginForm (s : State) (hmode : s.mode.depth = 0) (pos : Nat) (c : Char) :
    s.Yields [pos] (opensBracket c = true) (closesBracket c = true) (s.beginForm pos c) := by
  have hpos : pos ∈ [pos] ++ s.starts := List.mem_cons_self
  have hnew : ∀ mode : Mode, mode.start? = some pos → mode.depth = 0 →
      s.Follows [pos] (opensBracket c = true) (closesBracket c = true) { s with mode } := by
    intro mode hstart hdepth
    refine follows_mode (fun p hp => ?_) (by omega)
    rw [hstart] at hp
    cases hp
    exact hpos
  unfold State.beginForm
  cases hc : ofChar c with
  | blank => exact follows_refl
  | digit => exact hnew _ rfl rfl
  | letter =>
    dsimp only
    split
    · exact hnew _ rfl rfl
    · exact hnew _ rfl rfl
  | quote | apostrophe => exact hnew _ rfl rfl
  | openParen =>
    refine yields_nest hmode hpos (by simp [opensBracket, hc]) ?_ ?_ rfl
    · intro p hp
      rcases List.mem_append.mp hp with hp | hp
      · exact List.mem_append_right _ (List.mem_append_left _ hp)
      · rcases List.mem_cons.mp hp with rfl | hp
        · exact hpos
        · exact List.mem_append_right _ (List.mem_append_right _ hp)
    · simp only [State.nesting, List.length_cons]
      omega
  | openBrace =>
    refine yields_nest hmode hpos (by simp [opensBracket, hc]) ?_ ?_ rfl
    · intro p hp
      rcases List.mem_cons.mp hp with rfl | hp
      · exact hpos
      · exact List.mem_append_right _ (List.mem_append_right _ hp)
    · show s.stack.length + 1 = s.stack.length + s.mode.depth + 1
      omega
  | closeParen =>
    dsimp only
    split
    next start items stack hstack =>
      exact follows_close hmode hstack (by simp [closesBracket, hc]) _
    next => exact yields_error hpos (by decide)
  | closeBrace =>
    dsimp only
    split
    next start items stack hstack =>
      exact yields_error (mem_starts_of_stack (o := .expr start items)
        (by rw [hstack]; exact List.mem_cons_self)) (by decide)
    next => exact yields_error hpos (by decide)
  | dot | unknown | endOfText => exact yields_error hpos (by decide)

theorem yields_beginLiteral (s : State) (hmode : s.mode.depth = 0) (pos : Nat)
    (hstart : start ∈ [pos] ++ s.starts) (c : Char) :
    s.Yields [pos] (opensBracket c = true) (closesBracket c = true) (s.beginLiteral start pos c) := by
  have hpos : pos ∈ [pos] ++ s.starts := List.mem_cons_self
  have hnew : ∀ mode : Mode, (∀ p, mode.start? = some p → p = pos) → mode.depth = 0 →
      s.Follows [pos] (opensBracket c = true) (closesBracket c = true) { s with mode } := by
    intro mode hmode hdepth
    exact follows_mode (fun p hp => hmode p hp ▸ hpos) (by omega)
  unfold State.beginLiteral
  cases hc : ofChar c with
  | digit | quote => exact hnew _ (fun p hp => (Option.some.inj hp).symm) rfl
  | letter =>
    dsimp only
    split
    · exact hnew _ (fun p hp => (Option.some.inj hp).symm) rfl
    · exact hnew _ nofun rfl
  | openParen =>
    refine yields_nest hmode hstart (by simp [opensBracket, hc]) ?_ ?_ rfl
    · intro p hp
      rcases List.mem_cons.mp hp with rfl | hp
      · exact hpos
      · exact List.mem_append_right _ (List.mem_append_right _ hp)
    · show s.stack.length + 1 = s.stack.length + s.mode.depth + 1
      omega
  | apostrophe | dot | unknown => exact hnew _ nofun rfl
  | blank | openBrace | closeParen | closeBrace | endOfText => exact yields_error hstart (by decide)

theorem yields_beginItem (s : State) (hmode : s.mode.depth = 0) {items : List Form}
    {stack : List Open} (hstack : s.stack = .list start items :: stack) (pos : Nat) (c : Char) :
    s.Yields [pos] (opensBracket c = true) (closesBracket c = true)
      (s.beginItem start items stack pos c) := by
  have hliteral : s.Yields [pos] (opensBracket c = true) (closesBracket c = true)
      (s.beginLiteral pos pos c) := yields_beginLiteral s hmode pos List.mem_cons_self c
  unfold State.beginItem
  cases hc : ofChar c with
  | blank => exact follows_refl
  | closeParen => exact follows_close hmode hstack (by simp [closesBracket, hc]) _
  | closeBrace =>
    exact yields_error (mem_starts_of_stack (o := .list start items)
      (by rw [hstack]; exact List.mem_cons_self)) (by decide)
  | _ => exact hliteral

theorem yields_beginKey (s : State) {fields : Record Form} (hmode : s.mode = .fields start fields)
    (c : Char) : s.Yields new opening (closesBracket c = true) (s.beginKey start fields c) := by
  have hstart : start ∈ new ++ s.starts := mem_starts_of_mode (by rw [hmode]; rfl)
  unfold State.beginKey
  cases hc : ofChar c with
  | blank => exact follows_refl
  | closeBrace =>
    refine follows_deliver (List.suffix_refl s.stack) (.inr ⟨by simp [closesBracket, hc], ?_⟩) _
    unfold State.nesting
    rw [hmode]
    rfl
  | letter =>
    refine follows_mode (fun p hp => ?_) (by rw [hmode]; rfl)
    cases hp
    exact hstart
  | _ => exact yields_error hstart (by decide)

/-- What a character that is read does. -/
theorem yields_take (s : State) (pos : Nat) (c : Char) :
    s.Yields [pos] (opensBracket c = true) (closesBracket c = true) (s.take pos c) := by
  -- Where the mode only goes on, it begins where it began.
  have hgoes : ∀ mode : Mode, mode.start? = s.mode.start? → mode.depth = s.mode.depth →
      s.Follows [pos] (opensBracket c = true) (closesBracket c = true) { s with mode } := by
    intro mode hstart hdepth
    exact follows_mode (fun p hp => mem_starts_of_mode (hstart ▸ hp)) hdepth
  unfold State.take
  split
  next hmode =>
    have hdepth : s.mode.depth = 0 := by rw [hmode]; rfl
    split
    next start items stack hstack => exact yields_beginItem s hdepth hstack pos c
    next => exact yields_beginForm s hdepth pos c
  next start quoted hmode =>
    cases quoted with
    | true => exact follows_mode nofun (by rw [hmode]; rfl)
    | false => exact hgoes _ (by rw [hmode]; rfl) (by rw [hmode]; rfl)
  next start point text hmode =>
    have hstart : start ∈ [pos] ++ s.starts := mem_starts_of_mode (by rw [hmode]; rfl)
    split
    · exact hgoes _ (by rw [hmode]; rfl) (by rw [hmode]; rfl)
    · split
      · exact yields_error hstart (by decide)
      · exact hgoes _ (by rw [hmode]; rfl) (by rw [hmode]; rfl)
    · exact yields_error hstart (by decide)
  next start text hmode => exact hgoes _ (by rw [hmode]; rfl) (by rw [hmode]; rfl)
  next start text escaped hmode =>
    split
    · exact hgoes _ (by rw [hmode]; rfl) (by rw [hmode]; rfl)
    · split
      · have hnesting : s.stack.length = s.nesting :=
          (nesting_of_mode (by rw [hmode]; rfl)).symm
        exact follows_deliver (List.suffix_refl s.stack) (.inl hnesting) _
      · split <;> exact hgoes _ (by rw [hmode]; rfl) (by rw [hmode]; rfl)
  next start hmode =>
    exact yields_beginLiteral s (by rw [hmode]; rfl) pos (mem_starts_of_mode (by rw [hmode]; rfl)) c
  next text hmode => exact hgoes _ (by rw [hmode]; rfl) (by rw [hmode]; rfl)
  next start fields hmode => exact yields_beginKey s hmode c
  next start fields text hmode => exact hgoes _ (by rw [hmode]; rfl) (by rw [hmode]; rfl)
  next start fields key hmode =>
    split
    · -- The struct moves to the stack, with the position it has.
      refine ⟨fun p hp => ?_, .inl ?_, .inl rfl⟩
      · rcases List.mem_cons.mp hp with rfl | hp
        · exact mem_starts_of_mode (by rw [hmode]; rfl)
        · exact List.mem_append_right _ (List.mem_append_right _ hp)
      · simp only [State.nesting, hmode, Mode.depth, List.length_cons]
    · exact follows_refl

/-! ## At the end of the text -/

theorem nesting_of_unfinished (h : s.unfinished = none) : s.nesting = 0 := by
  obtain ⟨forms, stack, mode⟩ := s
  cases mode with
  | string | tick | fields | key | colon => cases h
  | _ =>
    cases stack with
    | nil => rfl
    | cons top stack => cases top <;> cases h

theorem mem_starts_of_unfinished {f : Fault} (h : s.unfinished = some f) : f.start ∈ s.starts := by
  obtain ⟨forms, stack, mode⟩ := s
  cases mode with
  | string | tick | fields | key | colon =>
    cases h
    exact List.mem_cons_self
  | _ =>
    cases stack with
    | nil => cases h
    | cons top stack => cases top <;> cases h <;> simp [State.starts, Open.start]

end

end Lisplet.Reader
