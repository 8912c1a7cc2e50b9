import Lisplet.Reader.Basic

/-!
# What the reader returns

Forms that were read are not just any forms. Items of a quoted list are literals, symbols and keys
are spelled with letters, no two fields of a struct have the same key, and brackets are nested at
most `maxNesting` deep. All this is an invariant of the reading machine: every form it has completed
is readable in the room that the open brackets around it leave.
-/

namespace Lisplet

open CharClass

/-! ## Readable forms -/

/-- The spelling of a name as long as it is being read: a letter, then characters that can continue
a symbol. A minus before a digit would begin a number. -/
structure SymbolText (cs : List Char) : Prop where
  head : ∃ c rest, cs = c :: rest ∧ ofChar c = .letter ∧
    ∀ d ∈ rest, (ofChar d).continuesSymbol = true
  minus : ∀ d rest, cs = '-' :: d :: rest → ofChar d ≠ .digit

/-- The spelling of a key: a letter, then letters and digits. -/
def KeyText (cs : List Char) : Prop :=
  ∃ c rest, cs = c :: rest ∧ ofChar c = .letter ∧ ∀ d ∈ rest, (ofChar d).continuesKey = true

/-- The spelling of a symbol: one that is not the spelling of a constant and has no empty segment. -/
structure SymbolName (cs : List Char) : Prop extends SymbolText cs where
  form : Reader.symbolForm? cs = some (.symbol (String.ofList cs))

theorem SymbolText.snoc {cs : List Char} {d : Char} (h : SymbolText cs)
    (hd : (ofChar d).continuesSymbol = true) (hminus : cs = ['-'] → ofChar d ≠ .digit) :
    SymbolText (cs ++ [d]) := by
  obtain ⟨c, rest, rfl, hc, hrest⟩ := h.head
  refine ⟨⟨c, rest ++ [d], rfl, hc, ?_⟩, ?_⟩
  · intro x hx
    rcases List.mem_append.mp hx with hx | hx
    · exact hrest x hx
    · rw [List.mem_singleton.mp hx]
      exact hd
  · intro x tail heq
    cases rest with
    | nil =>
      cases heq
      exact hminus rfl
    | cons y ys =>
      cases heq
      exact h.minus x ys rfl

theorem KeyText.snoc {cs : List Char} {d : Char} (h : KeyText cs)
    (hd : (ofChar d).continuesKey = true) : KeyText (cs ++ [d]) := by
  obtain ⟨c, rest, rfl, hc, hrest⟩ := h
  refine ⟨c, rest ++ [d], rfl, hc, ?_⟩
  intro x hx
  rcases List.mem_append.mp hx with hx | hx
  · exact hrest x hx
  · rw [List.mem_singleton.mp hx]
    exact hd

theorem SymbolText.ne_nil {text : List Char} (h : SymbolText text.reverse) : text ≠ [] := by
  rintro rfl
  obtain ⟨c, rest, hnil, -⟩ := h.head
  cases hnil

theorem SymbolText.singleton {c : Char} (hc : ofChar c = .letter) : SymbolText [c] :=
  ⟨⟨c, [], rfl, hc, by simp⟩, by simp⟩

namespace Form

mutual

/-- What can be read in a quoted list where `room` more brackets can be opened. -/
def Literal (room : Nat) : Form → Prop
  | .nil | .int _ | .double _ | .str _ => True
  | .list items => 0 < room ∧ items ≠ [] ∧ LiteralAll (room - 1) items
  | .true | .symbol _ | .expr _ | .struct _ => False

def LiteralAll (room : Nat) : List Form → Prop
  | [] => True
  | f :: fs => Literal room f ∧ LiteralAll room fs

end

mutual

/-- What can be read outside of quoted lists where `room` more brackets can be opened. -/
def Readable (room : Nat) : Form → Prop
  | .nil | .true | .int _ | .double _ | .str _ => True
  | .symbol path => SymbolName path.toList
  | .list items => 0 < room ∧ items ≠ [] ∧ LiteralAll (room - 1) items
  | .expr items => 0 < room ∧ items ≠ [] ∧ ReadableAll (room - 1) items
  | .struct fields => 0 < room ∧ (Record.keys fields).Nodup ∧ ReadableFields (room - 1) fields

def ReadableAll (room : Nat) : List Form → Prop
  | [] => True
  | f :: fs => Readable room f ∧ ReadableAll room fs

def ReadableFields (room : Nat) : List (String × Form) → Prop
  | [] => True
  | (key, f) :: fs => (KeyText key.toList ∧ Readable room f) ∧ ReadableFields room fs

end

variable {room : Nat}

theorem literalAll_iff {fs : List Form} : LiteralAll room fs ↔ ∀ f ∈ fs, f.Literal room := by
  induction fs with
  | nil => simp [LiteralAll]
  | cons f fs ih => simp [LiteralAll, ih]

theorem readableAll_iff {fs : List Form} : ReadableAll room fs ↔ ∀ f ∈ fs, f.Readable room := by
  induction fs with
  | nil => simp [ReadableAll]
  | cons f fs ih => simp [ReadableAll, ih]

theorem readableFields_iff {fs : List (String × Form)} :
    ReadableFields room fs ↔ ∀ e ∈ fs, KeyText e.1.toList ∧ e.2.Readable room := by
  induction fs with
  | nil => simp [ReadableFields]
  | cons e fs ih => simp [ReadableFields, ih]

theorem Literal.readable {f : Form} (h : f.Literal room) : f.Readable room := by
  cases f with
  | nil | int | double | str => trivial
  | list items => exact h
  | true | symbol | expr | struct => exact h.elim

end Form

/-! ## The invariant of the machine -/

namespace Reader

/-- How many more brackets can be opened inside of `n` open ones. -/
abbrev room (n : Nat) : Nat := maxNesting - n

def inList : List Open → Bool
  | .list .. :: _ => true
  | _ => false

structure FieldsHold (room : Nat) (fields : Record Form) : Prop where
  nodup : fields.keys.Nodup
  fields : ∀ e ∈ fields, KeyText e.1.toList ∧ e.2.Readable room

/-- Open brackets with readable contents. Expressions and structs do not stand in quoted lists. -/
def StackHolds : List Open → Prop
  | [] => True
  | .expr _ items :: stack =>
    (stack.length < maxNesting ∧ inList stack = false ∧
      ∀ f ∈ items, f.Readable (room (stack.length + 1))) ∧ StackHolds stack
  | .list _ items :: stack =>
    (stack.length < maxNesting ∧ ∀ f ∈ items, f.Literal (room (stack.length + 1))) ∧
      StackHolds stack
  | .field _ fields key :: stack =>
    (stack.length < maxNesting ∧ inList stack = false ∧
      FieldsHold (room (stack.length + 1)) fields ∧ KeyText key.toList) ∧ StackHolds stack

/-- A struct that is being read on top of a stack, with the fields so far. -/
def StructHolds (stack : List Open) (fields : Record Form) : Prop :=
  stack.length < maxNesting ∧ inList stack = false ∧ FieldsHold (room (stack.length + 1)) fields

/-- The modes in which a character has just been read. A lone minus has a mode of its own. -/
def Mode.Holds (stack : List Open) : Mode → Prop
  | .minus _ quoted => quoted = false → inList stack = false
  | .symbol _ text => inList stack = false ∧ SymbolText text.reverse ∧ text ≠ ['-']
  | .fields _ r => StructHolds stack r
  | .key _ r text => StructHolds stack r ∧ KeyText text.reverse
  | .colon _ r name => StructHolds stack r ∧ KeyText name.toList
  | _ => True

/-- The modes in which a character of class `next` is about to be read. -/
def Mode.Awaits (stack : List Open) (next : CharClass) : Mode → Prop
  | .minus .. => False
  | .symbol _ text =>
    next.continuesSymbol = true ∧ inList stack = false ∧ text ≠ [] ∧
      ∀ c, ofChar c = next → SymbolText (c :: text).reverse
  | .fields _ r => StructHolds stack r
  | .key _ r text =>
    next.continuesKey = true ∧ StructHolds stack r ∧
      ∀ c, ofChar c = next → KeyText (c :: text).reverse
  | .colon _ r name => StructHolds stack r ∧ KeyText name.toList
  | _ => True

/-- A machine whose forms, open or complete, are readable. -/
structure State.Holds (s : State) : Prop where
  forms : ∀ f ∈ s.forms, f.Readable maxNesting
  stack : StackHolds s.stack
  mode : s.mode.Holds s.stack

structure State.Awaits (s : State) (next : CharClass) : Prop where
  forms : ∀ f ∈ s.forms, f.Readable maxNesting
  stack : StackHolds s.stack
  mode : s.mode.Awaits s.stack next

def Accepts (stack : List Open) (f : Form) : Prop :=
  if inList stack then f.Literal (room stack.length) else f.Readable (room stack.length)

theorem accepts_of_literal {stack : List Open} {f : Form} (h : f.Literal (room stack.length)) :
    Accepts stack f := by
  unfold Accepts
  split
  · exact h
  · exact h.readable

theorem accepts_of_readable {stack : List Open} {f : Form} (hs : inList stack = false)
    (h : f.Readable (room stack.length)) : Accepts stack f := by
  unfold Accepts
  rw [hs]
  exact h

variable {s t : State} {stack : List Open} {f : Form}

theorem holds_deliver (hforms : ∀ f ∈ s.forms, f.Readable maxNesting) (hstack : StackHolds s.stack)
    (hf : Accepts s.stack f) : (s.deliver f).Holds := by
  obtain ⟨forms, stack, mode⟩ := s
  match stack with
  | [] =>
    refine ⟨?_, trivial, trivial⟩
    intro g hg
    rcases List.mem_cons.mp hg with rfl | hg
    · exact hf
    · exact hforms g hg
  | .expr start items :: stack =>
    obtain ⟨⟨hlen, hlist, hitems⟩, hrest⟩ := hstack
    refine ⟨hforms, ⟨⟨hlen, hlist, ?_⟩, hrest⟩, trivial⟩
    intro g hg
    rcases List.mem_cons.mp hg with rfl | hg
    · exact hf
    · exact hitems g hg
  | .list start items :: stack =>
    obtain ⟨⟨hlen, hitems⟩, hrest⟩ := hstack
    refine ⟨hforms, ⟨⟨hlen, ?_⟩, hrest⟩, trivial⟩
    intro g hg
    rcases List.mem_cons.mp hg with rfl | hg
    · exact hf
    · exact hitems g hg
  | .field start fields key :: stack =>
    obtain ⟨⟨hlen, hlist, hfields, hkey⟩, hrest⟩ := hstack
    refine ⟨hforms, hrest, hlen, hlist, Record.nodup_keys_insert hfields.nodup key f, ?_⟩
    intro e he
    rcases Record.mem_insert he with rfl | he
    · exact ⟨hkey, hf⟩
    · exact hfields.fields e he

/-! ## Looking at a character -/

theorem readable_of_symbolForm {cs : List Char} (hcs : SymbolText cs) (h : symbolForm? cs = some f)
    (room : Nat) : f.Readable room := by
  have hform := h
  unfold symbolForm? at h
  dsimp only at h
  split at h
  · cases h
    trivial
  · split at h
    · cases h
      trivial
    · split at h
      · cases h
      · cases h
        show SymbolName (String.ofList cs).toList
        rw [String.toList_ofList]
        exact ⟨hcs, hform⟩

theorem literal_of_numberForm {point : Bool} {cs : List Char} (h : numberForm? point cs = some f)
    (room : Nat) : f.Literal room := by
  unfold numberForm? at h
  split at h
  · obtain ⟨d, -, rfl⟩ := Option.map_eq_some_iff.mp h
    trivial
  · obtain ⟨n, -, rfl⟩ := Option.map_eq_some_iff.mp h
    trivial

-- A machine that rests awaits whatever comes.
theorem awaits_of_deliver (h : (s.deliver f).Holds) (next : CharClass) :
    (s.deliver f).Awaits next := by
  refine ⟨h.forms, h.stack, ?_⟩
  have hmode := h.mode
  unfold State.deliver at hmode ⊢
  split at hmode
  · trivial
  · trivial
  · trivial
  · exact hmode

theorem awaits_number {next : CharClass} {start : Nat} {point : Bool} {text : List Char}
    (hforms : ∀ f ∈ s.forms, f.Readable maxNesting) (hstack : StackHolds s.stack)
    (h : State.endLexeme { s with mode := .number start point text } next = .ok t) :
    t.Awaits next := by
  simp only [State.endLexeme] at h
  split at h
  · split at h
    next f hf =>
      cases h
      have haccepts := accepts_of_literal (literal_of_numberForm hf (room s.stack.length))
      exact awaits_of_deliver (holds_deliver hforms hstack haccepts) next
    next => cases h
  · cases h
    exact ⟨hforms, hstack, trivial⟩

theorem awaits_word {next : CharClass} {text : List Char}
    (hforms : ∀ f ∈ s.forms, f.Readable maxNesting) (hstack : StackHolds s.stack)
    (h : State.endLexeme { s with mode := .word text } next = .ok t) : t.Awaits next := by
  simp only [State.endLexeme] at h
  split at h
  · cases h
    have haccepts : Accepts s.stack (.str (String.ofList text.reverse)) :=
      accepts_of_literal (by trivial)
    exact awaits_of_deliver (holds_deliver hforms hstack haccepts) next
  · cases h
    exact ⟨hforms, hstack, trivial⟩

theorem awaits_symbol {next : CharClass} {start : Nat} {text : List Char}
    (hforms : ∀ f ∈ s.forms, f.Readable maxNesting) (hstack : StackHolds s.stack)
    (hlist : inList s.stack = false) (htext : SymbolText text.reverse)
    (hminus : text = ['-'] → next ≠ .digit)
    (h : State.endLexeme { s with mode := .symbol start text } next = .ok t) : t.Awaits next := by
  simp only [State.endLexeme] at h
  split at h
  next hnext =>
    cases h
    refine ⟨hforms, hstack, hnext, hlist, htext.ne_nil, ?_⟩
    rintro c rfl
    rw [List.reverse_cons]
    apply htext.snoc hnext
    intro heq
    exact hminus (List.reverse_eq_iff.mp heq)
  next =>
    split at h
    next f hf =>
      cases h
      have haccepts :=
        accepts_of_readable hlist (readable_of_symbolForm htext hf (room s.stack.length))
      exact awaits_of_deliver (holds_deliver hforms hstack haccepts) next
    next => cases h

theorem awaits_endLexeme {next : CharClass} (hs : s.Holds)
    (h : (s.decideMinus next).endLexeme next = .ok t) : t.Awaits next := by
  obtain ⟨forms, stack, mode⟩ := s
  obtain ⟨hforms, hstack, hmode⟩ := hs
  let base : State := { forms, stack, mode := .blank }
  cases mode with
  | minus start quoted =>
    simp only [State.decideMinus] at h
    split at h
    next => exact awaits_number (s := base) hforms hstack h
    next hdigit =>
      split at h
      next => exact awaits_word (s := base) hforms hstack h
      next hquoted =>
        have hlist := hmode (eq_false_of_ne_true hquoted)
        have htext : SymbolText ['-'].reverse := .singleton (by decide)
        exact awaits_symbol (s := base) hforms hstack hlist htext (fun _ => hdigit) h
  | number start point text => exact awaits_number (s := base) hforms hstack h
  | word text => exact awaits_word (s := base) hforms hstack h
  | symbol start text =>
    obtain ⟨hlist, htext, hne⟩ := hmode
    exact awaits_symbol (s := base) hforms hstack hlist htext (fun heq => absurd heq hne) h
  | key start fields text =>
    simp only [State.decideMinus, State.endLexeme] at h
    split at h
    next hnext =>
      cases h
      refine ⟨hforms, hstack, hnext, hmode.1, ?_⟩
      rintro c rfl
      rw [List.reverse_cons]
      exact KeyText.snoc hmode.2 hnext
    next =>
      cases h
      refine ⟨hforms, hstack, hmode.1, ?_⟩
      rw [String.toList_ofList]
      exact hmode.2
  | blank | string | tick =>
    cases h
    exact ⟨hforms, hstack, trivial⟩
  | fields | colon =>
    cases h
    exact ⟨hforms, hstack, hmode⟩

theorem eq_of_refuse {next : Option Char} (h : s.refuse next = .ok t) : t = s := by
  unfold State.refuse at h
  split at h
  · split at h <;> cases h
    rfl
  · split at h <;> cases h
    rfl
  · cases h
    rfl

theorem awaits_settle {next : Option Char} (hs : s.Holds) (h : s.settle next = .ok t) :
    t.Awaits (next.elim .endOfText ofChar) := by
  unfold State.settle at h
  dsimp only at h
  split at h
  next u hu =>
    rw [eq_of_refuse h]
    exact awaits_endLexeme hs hu
  next => cases h

/-! ## Reading a character -/

theorem room_succ {n : Nat} : room n - 1 = room (n + 1) := by
  unfold room
  omega

theorem room_pos {n : Nat} (h : n < maxNesting) : 0 < room n := by
  unfold room
  omega

theorem accepts_listForm {items : List Form} (hlen : stack.length < maxNesting)
    (h : ∀ f ∈ items, f.Literal (room (stack.length + 1))) :
    Accepts stack (listForm items.reverse) := by
  apply accepts_of_literal
  unfold listForm
  split
  · trivial
  next hne =>
    refine ⟨room_pos hlen, by simpa using hne, ?_⟩
    rw [room_succ, Form.literalAll_iff]
    exact fun f hf => h f (List.mem_reverse.mp hf)

theorem accepts_exprForm {items : List Form} (hlen : stack.length < maxNesting)
    (hlist : inList stack = false) (h : ∀ f ∈ items, f.Readable (room (stack.length + 1))) :
    Accepts stack (exprForm items.reverse) := by
  apply accepts_of_readable hlist
  unfold exprForm
  split
  · trivial
  next hne =>
    refine ⟨room_pos hlen, by simpa using hne, ?_⟩
    rw [room_succ, Form.readableAll_iff]
    exact fun f hf => h f (List.mem_reverse.mp hf)

theorem accepts_struct {fields : Record Form} (h : StructHolds stack fields) :
    Accepts stack (.struct fields) := by
  obtain ⟨hlen, hlist, hfields⟩ := h
  refine accepts_of_readable hlist ⟨room_pos hlen, hfields.nodup, ?_⟩
  rw [room_succ, Form.readableFields_iff]
  exact hfields.fields

variable {c : Char} {pos start : Nat}

theorem holds_nest {opened : State} (h : s.nest start opened = .ok t)
    (hopened : s.stack.length < maxNesting → opened.Holds) : t.Holds := by
  unfold State.nest at h
  split at h
  next hlen =>
    cases h
    exact hopened hlen
  next => cases h

theorem holds_beginLiteral (hforms : ∀ f ∈ s.forms, f.Readable maxNesting)
    (hstack : StackHolds s.stack) (h : s.beginLiteral start pos c = .ok t) : t.Holds := by
  unfold State.beginLiteral at h
  split at h
  · cases h
    exact ⟨hforms, hstack, trivial⟩
  · cases h
    refine ⟨hforms, hstack, ?_⟩
    dsimp only
    split
    · exact nofun
    · trivial
  · cases h
    exact ⟨hforms, hstack, trivial⟩
  · exact holds_nest h fun hlen => ⟨hforms, ⟨⟨hlen, by simp⟩, hstack⟩, trivial⟩
  · cases h
    exact ⟨hforms, hstack, trivial⟩
  · cases h
    exact ⟨hforms, hstack, trivial⟩
  · cases h
    exact ⟨hforms, hstack, trivial⟩
  · cases h
  · cases h
  · cases h
  · cases h
  · cases h

theorem holds_beginForm (hforms : ∀ f ∈ s.forms, f.Readable maxNesting)
    (hstack : StackHolds s.stack) (hlist : inList s.stack = false) (hmode : s.mode = .blank)
    (h : s.beginForm pos c = .ok t) : t.Holds := by
  unfold State.beginForm at h
  split at h
  · cases h
    exact ⟨hforms, hstack, by rw [hmode]; trivial⟩
  · cases h
    exact ⟨hforms, hstack, trivial⟩
  next hc =>
    cases h
    refine ⟨hforms, hstack, ?_⟩
    dsimp only
    split
    · exact fun _ => hlist
    next hne => exact ⟨hlist, .singleton hc, by simpa using hne⟩
  · cases h
    exact ⟨hforms, hstack, trivial⟩
  · cases h
    exact ⟨hforms, hstack, trivial⟩
  · exact holds_nest h fun hlen =>
      ⟨hforms, ⟨⟨hlen, hlist, by simp⟩, hstack⟩, by rw [hmode]; trivial⟩
  · exact holds_nest h fun hlen => ⟨hforms, hstack, hlen, hlist, by simp [Record.keys], by simp⟩
  · split at h
    next start items stack hs =>
      cases h
      rw [hs] at hstack
      obtain ⟨⟨hlen, hlist, hitems⟩, hrest⟩ := hstack
      exact holds_deliver hforms hrest (accepts_exprForm hlen hlist hitems)
    next => cases h
  · split at h <;> cases h
  · cases h
  · cases h
  · cases h

theorem holds_beginItem {items : List Form} (hs : s.Awaits (ofChar c)) (hmode : s.mode = .blank)
    (hstack : s.stack = .list start items :: stack)
    (h : s.beginItem start items stack pos c = .ok t) : t.Holds := by
  unfold State.beginItem at h
  split at h
  · cases h
    exact ⟨hs.forms, hs.stack, by rw [hmode]; trivial⟩
  · cases h
    have hholds := hs.stack
    rw [hstack] at hholds
    obtain ⟨⟨hlen, hitems⟩, hrest⟩ := hholds
    exact holds_deliver hs.forms hrest (accepts_listForm hlen hitems)
  · cases h
  · exact holds_beginLiteral hs.forms hs.stack h

theorem holds_beginKey {fields : Record Form} (hs : s.Awaits (ofChar c))
    (hmode : s.mode = .fields start fields) (hfields : StructHolds s.stack fields)
    (h : s.beginKey start fields c = .ok t) : t.Holds := by
  unfold State.beginKey at h
  split at h
  · cases h
    exact ⟨hs.forms, hs.stack, by rw [hmode]; exact hfields⟩
  · cases h
    exact holds_deliver hs.forms hs.stack (accepts_struct hfields)
  next hc =>
    cases h
    exact ⟨hs.forms, hs.stack, hfields, c, [], rfl, hc, by simp⟩
  · cases h
  · cases h

theorem holds_take (hs : s.Awaits (ofChar c)) (h : s.take pos c = .ok t) : t.Holds := by
  have hmode := hs.mode
  unfold State.take at h
  split at h
  next hblank =>
    split at h
    next start items stack hstack => exact holds_beginItem hs hblank hstack h
    next hne =>
      have hlist : inList s.stack = false := by
        unfold inList
        split
        next start items stack hstack => exact absurd hstack (hne start items stack)
        next => rfl
      exact holds_beginForm hs.forms hs.stack hlist hblank h
  next start quoted hminus =>
    -- What a minus begins has been settled before its next character is taken.
    rw [hminus] at hmode
    exact hmode.elim
  next start point text hnumber =>
    split at h
    · cases h
      exact ⟨hs.forms, hs.stack, trivial⟩
    · split at h
      · cases h
      · cases h
        exact ⟨hs.forms, hs.stack, trivial⟩
    · cases h
  next start text hsymbol =>
    cases h
    rw [hsymbol] at hmode
    obtain ⟨-, hlist, hne, htext⟩ := hmode
    exact ⟨hs.forms, hs.stack, hlist, htext c rfl, by simp [hne]⟩
  next start text escaped hstring =>
    split at h
    · cases h
      exact ⟨hs.forms, hs.stack, trivial⟩
    · split at h
      · cases h
        exact holds_deliver hs.forms hs.stack (accepts_of_literal (by trivial))
      · split at h
        · cases h
          exact ⟨hs.forms, hs.stack, trivial⟩
        · cases h
          exact ⟨hs.forms, hs.stack, trivial⟩
  next start htick => exact holds_beginLiteral hs.forms hs.stack h
  next text hword =>
    cases h
    exact ⟨hs.forms, hs.stack, trivial⟩
  next start fields hfields =>
    rw [hfields] at hmode
    exact holds_beginKey hs hfields hmode h
  next start fields text hkey =>
    cases h
    rw [hkey] at hmode
    exact ⟨hs.forms, hs.stack, hmode.2.1, hmode.2.2 c rfl⟩
  next start fields key hcolon =>
    rw [hcolon] at hmode
    obtain ⟨⟨hlen, hlist, hfields⟩, hkey⟩ := hmode
    split at h
    · cases h
      exact ⟨hs.forms, ⟨⟨hlen, hlist, hfields, hkey⟩, hs.stack⟩, trivial⟩
    · cases h
      exact ⟨hs.forms, hs.stack, by rw [hcolon]; exact ⟨⟨hlen, hlist, hfields⟩, hkey⟩⟩

/-! ## Reading a source -/

-- Nothing that could go on is left open at the end of a text.
theorem holds_of_awaits_end (h : s.Awaits .endOfText) : s.Holds := by
  refine ⟨h.forms, h.stack, ?_⟩
  have hmode := h.mode
  cases hm : s.mode with
  | minus start quoted =>
    rw [hm] at hmode
    exact hmode.elim
  | symbol start text =>
    rw [hm] at hmode
    exact absurd hmode.1 (by decide)
  | key start fields text =>
    rw [hm] at hmode
    exact absurd hmode.1 (by decide)
  | fields | colon =>
    rw [hm] at hmode
    exact hmode
  | _ => trivial

/-- From `s` to `t` no form has been completed at the outermost level, unless that is where the
machine stands now. -/
def State.Extends (s t : State) : Prop :=
  t.forms = s.forms ∨ t.unfinished = none

theorem extends_deliver (s : State) (f : Form) : s.Extends (s.deliver f) := by
  unfold State.deliver
  split
  next hstack => exact .inr (by simp [State.unfinished, hstack])
  · exact .inl rfl
  · exact .inl rfl
  · exact .inl rfl

theorem extends_endLexeme {next : CharClass} (h : s.endLexeme next = .ok t) : s.Extends t := by
  unfold State.endLexeme at h
  split at h
  · split at h
    · split at h <;> cases h
      exact extends_deliver s _
    · cases h
      exact .inl rfl
  · split at h
    · cases h
      exact .inl rfl
    · split at h <;> cases h
      exact extends_deliver s _
  · split at h <;> cases h
    · exact extends_deliver s _
    · exact .inl rfl
  · split at h <;> cases h
    · exact .inl rfl
    · exact .inl rfl
  · cases h
    exact .inl rfl

theorem extends_settle {next : Option Char} (h : s.settle next = .ok t) : s.Extends t := by
  have hdecide : ∀ cls, (s.decideMinus cls).forms = s.forms := by
    intro cls
    unfold State.decideMinus
    split <;> rfl
  unfold State.settle at h
  dsimp only at h
  split at h
  next u hu =>
    rw [eq_of_refuse h]
    unfold State.Extends
    rw [← hdecide (next.elim .endOfText ofChar)]
    exact extends_endLexeme hu
  next => cases h

theorem extends_nest {opened : State} (h : s.nest start opened = .ok t)
    (hopened : opened.forms = s.forms) : s.Extends t := by
  unfold State.nest at h
  split at h <;> cases h
  exact .inl hopened

theorem extends_beginLiteral (h : s.beginLiteral start pos c = .ok t) : s.Extends t := by
  unfold State.beginLiteral at h
  generalize ofChar c = k at h
  cases k with
  | openParen => exact extends_nest h rfl
  | digit | letter | quote | apostrophe | dot | unknown =>
    cases h
    exact .inl rfl
  | blank | openBrace | closeParen | closeBrace | endOfText => cases h

theorem extends_beginForm (h : s.beginForm pos c = .ok t) : s.Extends t := by
  unfold State.beginForm at h
  generalize ofChar c = k at h
  cases k with
  | openParen | openBrace => exact extends_nest h rfl
  | blank | digit | letter | quote | apostrophe =>
    cases h
    exact .inl rfl
  | closeParen =>
    dsimp only at h
    split at h <;> cases h
    exact extends_deliver _ _
  | closeBrace =>
    dsimp only at h
    split at h <;> cases h
  | dot | unknown | endOfText => cases h

theorem extends_take (h : s.take pos c = .ok t) : s.Extends t := by
  unfold State.take at h
  split at h
  next =>
    split at h
    next start items stack hstack =>
      unfold State.beginItem at h
      split at h
      · cases h
        exact .inl rfl
      · cases h
        exact extends_deliver _ _
      · cases h
      · exact extends_beginLiteral h
    next => exact extends_beginForm h
  next =>
    cases h
    exact .inl rfl
  next =>
    split at h
    · cases h
      exact .inl rfl
    · split at h <;> cases h
      exact .inl rfl
    · cases h
  next =>
    cases h
    exact .inl rfl
  next =>
    split at h
    · cases h
      exact .inl rfl
    · split at h
      · cases h
        exact extends_deliver s _
      · split at h <;> cases h <;> exact .inl rfl
  next => exact extends_beginLiteral h
  next =>
    cases h
    exact .inl rfl
  next =>
    unfold State.beginKey at h
    split at h <;> cases h
    · exact .inl rfl
    · exact extends_deliver s _
    · exact .inl rfl
  next =>
    cases h
    exact .inl rfl
  next => split at h <;> cases h <;> exact .inl rfl

/-- What a run comes to: its forms are readable, and if one of them is still open the machine can go
on; reading a single form, it has none complete then. -/
theorem readable_run {single : Bool} {before cs : List Char} (hs : s.Holds)
    (hforms : single = true → s.forms = [])
    (h : (run single s before pos cs).outcome = .ok t) :
    (∀ f ∈ t.forms, f.Readable maxNesting) ∧
      (t.unfinished = none ∨ t.Holds ∧ (single = true → t.forms = [])) := by
  induction cs generalizing s before pos with
  | nil =>
    have ht := holds_of_awaits_end (awaits_settle hs h)
    refine ⟨ht.forms, ?_⟩
    rcases extends_settle h with hsame | hnone
    · exact .inr ⟨ht, fun hsingle => hsame.trans (hforms hsingle)⟩
    · exact .inl hnone
  | cons c cs ih =>
    unfold run at h
    split at h
    next => cases h
    next u hu =>
      have hawaits := awaits_settle hs hu
      split at h
      next hdone =>
        cases h
        simp only [Bool.and_eq_true, Bool.not_eq_true', List.isEmpty_eq_false_iff] at hdone
        refine ⟨hawaits.forms, .inl ?_⟩
        rcases extends_settle hu with hsame | hnone
        · exact absurd (hsame.trans (hforms hdone.1)) hdone.2
        · exact hnone
      next hgo =>
        split at h
        next => cases h
        next v hv =>
          have hholds := holds_take hawaits hv
          split at h
          next hdone =>
            cases h
            simp only [Bool.and_eq_true, Bool.not_eq_true', List.isEmpty_eq_false_iff] at hdone
            refine ⟨hholds.forms, .inl ?_⟩
            have hu' : u.forms = [] := by simpa [hdone.1] using hgo
            rcases extends_take hv with hsame | hnone
            · exact absurd (hsame.trans hu') hdone.2
            · exact hnone
          next hgo =>
            refine ih hholds (fun hsingle => ?_) h
            simpa [hsingle] using hgo

variable {single : Bool} {r : Reader} {fs : List Form}

theorem readable_leg (hs : s.Holds) (hforms : single = true → s.forms = [])
    (h : (leg single s r).1 = .ok t) :
    (∀ f ∈ t.forms, f.Readable maxNesting) ∧
      (t.unfinished = none ∨ t.Holds ∧ (single = true → t.forms = [])) := by
  unfold leg at h
  dsimp only at h
  split at h
  next => cases h
  next u hu =>
    cases h
    exact readable_run hs hforms hu

theorem readable_conclude (hs : ∀ f ∈ s.forms, f.Readable maxNesting)
    (h : (conclude single s r).1 = .ok fs) : ∀ f ∈ fs, f.Readable maxNesting := by
  unfold conclude at h
  split at h
  · cases h
  · cases h
    exact fun f hf => hs f (List.mem_reverse.mp hf)

theorem readable_finish (hs : s.Holds) (hforms : single = true → s.forms = [])
    (h : (finish single s r).1 = .ok fs) : ∀ f ∈ fs, f.Readable maxNesting := by
  unfold finish at h
  split at h
  next => cases h
  next t q hleg =>
    exact readable_conclude (readable_leg hs hforms (congrArg Prod.fst hleg)).1 h

theorem readable_resume {answers : List (Option String)} (hs : s.Holds)
    (hforms : single = true → s.forms = [])
    (h : (resume single s r answers).1 = .ok fs) : ∀ f ∈ fs, f.Readable maxNesting := by
  induction answers generalizing s r with
  | nil =>
    unfold resume at h
    split at h
    next => cases h
    next t q hleg =>
      obtain ⟨hread, hcase⟩ := readable_leg hs hforms (congrArg Prod.fst hleg)
      split at h
      next => exact readable_conclude hread h
      next hopen =>
        obtain ⟨ht, hforms⟩ := hcase.resolve_left (by simpa using hopen)
        exact readable_finish ht hforms h
  | cons answer rest ih =>
    unfold resume at h
    split at h
    next => cases h
    next t q hleg =>
      obtain ⟨hread, hcase⟩ := readable_leg hs hforms (congrArg Prod.fst hleg)
      split at h
      next => exact readable_conclude hread h
      next hopen =>
        obtain ⟨ht, hforms⟩ := hcase.resolve_left (by simpa using hopen)
        dsimp only at h
        split at h
        next => exact readable_finish ht hforms h
        next => exact ih ht hforms h

theorem holds_initial : State.Holds {} :=
  ⟨by simp, trivial, trivial⟩

/-- Every form that a reader returns is readable, whatever it was asked for and was answered. -/
theorem readable_start (h : (r.start single).1 = .ok fs) : ∀ f ∈ fs, f.Readable maxNesting := by
  unfold start at h
  split at h
  · exact readable_finish holds_initial (fun _ => rfl) h
  · exact readable_resume holds_initial (fun _ => rfl) h

end Reader

end Lisplet
