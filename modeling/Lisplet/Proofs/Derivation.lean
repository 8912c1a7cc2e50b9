import Lisplet.Proofs.Recognition

/-!
# What is read, the grammar derives

A text with which the machine ends well begins with a phrase of the grammar. For a lexeme this goes
by induction on its characters. For a bracket it goes by induction on the length of the text: the
machine comes to the bracket that closes it with less text before it. Together with the other
direction, a source is read as some forms exactly if the grammar derives the forms from it.
-/

namespace Lisplet.Grammar

open CharClass Reader Reader.State

variable {fs : List Form} {s t u : State} {pos : Nat} {c : Char} {cs ds rest : List Char}

section

variable {forms : List Form} {stack : List Open} {quoted : Bool}

/-! ## Going back from a lexeme -/

theorem NumberStart.snoc {point : Bool} (h : NumberStart point cs) (hc : ofChar c = .digit) :
    NumberStart point (cs ++ [c]) := by
  cases h with
  | whole negative hne hds =>
    rw [List.append_assoc]
    exact .whole negative (by simp) (hds.snoc hc)
  | fraction negative hne hds hes =>
    rw [List.append_assoc, List.append_assoc]
    exact .fraction negative hne hds (hes.snoc hc)

theorem NumberStart.point (h : NumberStart false cs) : NumberStart true (cs ++ ['.']) := by
  cases h with
  | whole negative hne hds =>
    rw [List.append_assoc]
    exact .fraction negative hne hds nofun

theorem number_ends {point : Bool} {p : Nat} {text : List Char}
    (hend : (ahead cs).endsNumber = true)
    (h : Accepts fs ⟨forms, stack, .number p point text⟩ pos cs) :
    ∃ f, numberForm? point text.reverse = some f ∧
      Accepts fs ((⟨forms, stack, .blank⟩ : State).deliver f) pos cs := by
  cases hform : numberForm? point text.reverse with
  | some f => exact ⟨f, rfl, (accepts_congr (meets_number hform _ hend)).mp h⟩
  | none =>
    obtain ⟨t, ht⟩ := h.settles
    have hend' : (cs.head?.elim .endOfText ofChar).endsNumber = true := hend
    simp [State.settle, decideMinus, endLexeme, hend', hform] at ht

/-- A character that is no end of the number goes on with it. -/
theorem number_goes_on {point : Bool} {p : Nat} {text : List Char}
    (hstart : NumberStart point text.reverse) (hend : (ofChar c).endsNumber = false)
    (h : Accepts fs ⟨forms, stack, .number p point text⟩ pos (c :: cs)) :
    ∃ point', NumberStart point' (c :: text).reverse ∧
      Accepts fs ⟨forms, stack, .number p point' (c :: text)⟩ (pos + 1) cs := by
  obtain ⟨u, hu, hrest⟩ := h.step (settle_number hend)
  rw [List.reverse_cons]
  cases hc : ofChar c with
  | digit =>
    simp only [State.take, hc] at hu
    cases hu
    exact ⟨point, hstart.snoc hc, hrest⟩
  | dot =>
    obtain rfl : c = '.' := eq_of_mark (by rw [hc]; rfl)
    cases point with
    | true => cases hu
    | false =>
      cases hu
      exact ⟨true, hstart.point, hrest⟩
  | _ =>
    simp only [State.take, hc] at hu
    cases hu

-- By induction on the text: a lexeme that has come so far ends here, or it goes on.
theorem number_of_accepts {point : Bool} {p pos : Nat} {text cs : List Char}
    (hstart : NumberStart point text.reverse)
    (h : Accepts fs ⟨forms, stack, .number p point text⟩ pos cs) :
    ∃ ds rest f pos, cs = ds ++ rest ∧ NumberText (text.reverse ++ ds) f ∧
      (ahead rest).endsNumber = true ∧
      Accepts fs ((⟨forms, stack, .blank⟩ : State).deliver f) pos rest := by
  cases hend : (ahead cs).endsNumber with
  | true =>
    obtain ⟨f, hform, haccepts⟩ := number_ends hend h
    refine ⟨[], cs, f, pos, rfl, ?_, hend, haccepts⟩
    rw [List.append_nil]
    exact hstart.numberText hform
  | false =>
    cases cs with
    | nil => cases hend
    | cons c cs =>
      obtain ⟨point', hstart', haccepts⟩ := number_goes_on hstart hend h
      obtain ⟨ds, rest, f, pos', rfl, htext, hend', hf⟩ := number_of_accepts hstart' haccepts
      refine ⟨c :: ds, rest, f, pos', rfl, ?_, hend', hf⟩
      rwa [List.reverse_cons, List.append_assoc] at htext
termination_by cs.length

theorem name_ends {p : Nat} {text : List Char} (hend : (ahead cs).continuesSymbol = false)
    (h : Accepts fs ⟨forms, stack, .symbol p text⟩ pos cs) :
    ∃ f, symbolForm? text.reverse = some f ∧
      Accepts fs ((⟨forms, stack, .blank⟩ : State).deliver f) pos cs := by
  cases hform : symbolForm? text.reverse with
  | some f => exact ⟨f, rfl, (accepts_congr (settle_symbol hend hform)).mp h⟩
  | none =>
    obtain ⟨t, ht⟩ := h.settles
    have hend' : (cs.head?.elim .endOfText ofChar).continuesSymbol = false := hend
    simp [State.settle, decideMinus, endLexeme, hend', hform] at ht

theorem name_of_accepts {p pos : Nat} {text cs : List Char} (htext : SymbolText text.reverse)
    (hminus : text = ['-'] → ahead cs ≠ .digit)
    (h : Accepts fs ⟨forms, stack, .symbol p text⟩ pos cs) :
    ∃ ds rest f pos, cs = ds ++ rest ∧ NameText (text.reverse ++ ds) f ∧
      (ahead rest).continuesSymbol = false ∧
      Accepts fs ((⟨forms, stack, .blank⟩ : State).deliver f) pos rest := by
  cases hend : (ahead cs).continuesSymbol with
  | false =>
    obtain ⟨f, hform, haccepts⟩ := name_ends hend h
    refine ⟨[], cs, f, pos, rfl, ?_, hend, haccepts⟩
    rw [List.append_nil]
    exact nameText_iff.mpr ⟨htext, hform⟩
  | true =>
    cases cs with
    | nil => cases hend
    | cons c cs =>
      have hc : (ofChar c).continuesSymbol = true := hend
      have hsettle : (⟨forms, stack, .symbol p text⟩ : State).settle (some c) =
          .ok ⟨forms, stack, .symbol p text⟩ := by
        simp only [State.settle, Option.elim_some, decideMinus, endLexeme, hc, if_true]
        rfl
      obtain ⟨u, hu, haccepts⟩ := h.step hsettle
      cases hu
      have hlonger : SymbolText (c :: text).reverse := by
        rw [List.reverse_cons]
        exact htext.snoc hc fun heq => hminus (List.reverse_eq_iff.mp heq)
      have hne : c :: text ≠ ['-'] := fun heq => htext.ne_nil (List.cons.inj heq).2
      obtain ⟨ds, rest, f, pos', rfl, htext', hend', hf⟩ :=
        name_of_accepts hlonger (fun heq => absurd heq hne) haccepts
      refine ⟨c :: ds, rest, f, pos', rfl, ?_, hend', hf⟩
      rwa [List.reverse_cons, List.append_assoc] at htext'
termination_by cs.length

theorem WordText.snoc (h : WordText cs) (hc : (ofChar c).endsNumber = false)
    (hminus : cs = ['-'] → ofChar c ≠ .digit) : WordText (cs ++ [c]) := by
  obtain ⟨d, rest, rfl, hdigit, hquote⟩ := h.head
  refine ⟨⟨d, rest ++ [c], rfl, hdigit, hquote⟩, ?_, ?_⟩
  · intro x tail heq
    cases rest with
    | nil =>
      cases heq
      exact hminus rfl
    | cons y ys =>
      cases heq
      exact h.minus x ys rfl
  · intro x hx
    rcases List.mem_append.mp hx with hx | hx
    · exact h.inside x hx
    · rw [List.mem_singleton.mp hx]
      exact hc

theorem word_of_accepts {pos : Nat} {text cs : List Char} (htext : WordText text.reverse)
    (hminus : text = ['-'] → ahead cs ≠ .digit)
    (h : Accepts fs ⟨forms, stack, .word text⟩ pos cs) :
    ∃ ds rest pos, cs = ds ++ rest ∧ WordText (text.reverse ++ ds) ∧
      (ahead rest).endsNumber = true ∧
      Accepts fs ((⟨forms, stack, .blank⟩ : State).deliver
        (.str (String.ofList (text.reverse ++ ds)))) pos rest := by
  cases hend : (ahead cs).endsNumber with
  | true =>
    refine ⟨[], cs, pos, rfl, ?_, hend, ?_⟩
    · rwa [List.append_nil]
    · rw [List.append_nil]
      exact (accepts_congr (meets_word _ hend)).mp h
  | false =>
    cases cs with
    | nil => cases hend
    | cons c cs =>
      have hc : (ofChar c).endsNumber = false := hend
      have hsettle : (⟨forms, stack, .word text⟩ : State).settle (some c) =
          .ok ⟨forms, stack, .word text⟩ := by
        simp only [State.settle, Option.elim_some, decideMinus, endLexeme, hc,
          Bool.false_eq_true, if_false]
        rfl
      obtain ⟨u, hu, haccepts⟩ := h.step hsettle
      cases hu
      have hlonger : WordText (c :: text).reverse := by
        rw [List.reverse_cons]
        exact htext.snoc hc fun heq => hminus (List.reverse_eq_iff.mp heq)
      have hne : c :: text ≠ ['-'] := by
        intro heq
        obtain ⟨d, rest, hcons, -⟩ := htext.head
        rw [(List.cons.inj heq).2] at hcons
        cases hcons
      obtain ⟨ds, rest, pos', rfl, htext', hend', hf⟩ :=
        word_of_accepts hlonger (fun heq => absurd heq hne) haccepts
      rw [List.reverse_cons, List.append_assoc] at htext' hf
      exact ⟨c :: ds, rest, pos', rfl, htext', hend', hf⟩
termination_by cs.length

/-- The text before a string's next character, if that character is escaped. -/
def slash (escaped : Bool) : List Char :=
  if escaped then ['\\'] else []

theorem string_of_accepts {p : Nat} {text : List Char} {escaped : Bool}
    (h : Accepts fs ⟨forms, stack, .string p text escaped⟩ pos cs) :
    ∃ ds rest more pos, cs = ds ++ '\x22' :: rest ∧ StringText (slash escaped ++ ds) more ∧
      Accepts fs ((⟨forms, stack, .blank⟩ : State).deliver
        (.str (String.ofList (text.reverse ++ more)))) pos rest := by
  induction cs generalizing pos text escaped with
  | nil =>
    obtain ⟨t, ht, hopen, -⟩ := h
    cases ht
    cases hopen
  | cons c cs ih =>
    obtain ⟨u, hu, hrest⟩ := h.step settle_string
    cases escaped with
    | true =>
      cases hu
      obtain ⟨ds, rest, more, pos', rfl, htext, hf⟩ := ih hrest
      rw [List.reverse_cons, List.append_assoc] at hf
      exact ⟨c :: ds, rest, _, pos', rfl, .escape c htext, hf⟩
    | false =>
      simp only [State.take, Bool.false_eq_true, if_false] at hu
      split_ifs at hu with hquote hslash
      · cases hu
        subst hquote
        refine ⟨[], cs, [], pos + 1, rfl, .nil, ?_⟩
        rwa [deliver_mode, List.append_nil]
      · cases hu
        subst hslash
        obtain ⟨ds, rest, more, pos', rfl, htext, hf⟩ := ih hrest
        exact ⟨'\\' :: ds, rest, more, pos', rfl, htext, hf⟩
      · cases hu
        obtain ⟨ds, rest, more, pos', rfl, htext, hf⟩ := ih hrest
        rw [List.reverse_cons, List.append_assoc] at hf
        exact ⟨c :: ds, rest, c :: more, pos', rfl, .plain hquote hslash htext, hf⟩

/-! ## Going back from blanks and keys -/

theorem Accepts.skip_blank (h : Accepts fs ⟨forms, stack, .blank⟩ pos (c :: cs))
    (hc : ofChar c = .blank) : Accepts fs ⟨forms, stack, .blank⟩ (pos + 1) cs := by
  obtain ⟨u, hu, hrest⟩ := h.step (settle_form (by rw [hc]; decide))
  rw [take_blank hc] at hu
  cases hu
  exact hrest

theorem blanks_of_accepts (h : Accepts fs ⟨forms, stack, .blank⟩ pos cs) :
    ∃ bs rest pos, cs = bs ++ rest ∧ Blanks bs ∧ ahead rest ≠ .blank ∧
      Accepts fs ⟨forms, stack, .blank⟩ pos rest := by
  induction cs generalizing pos with
  | nil => exact ⟨[], [], pos, rfl, nofun, nofun, h⟩
  | cons c cs ih =>
    by_cases hc : ofChar c = .blank
    · obtain ⟨bs, rest, pos', rfl, hbs, hahead, haccepts⟩ := ih (h.skip_blank hc)
      refine ⟨c :: bs, rest, pos', rfl, ?_, hahead, haccepts⟩
      intro d hd
      rcases List.mem_cons.mp hd with rfl | hd
      · exact hc
      · exact hbs d hd
    · exact ⟨[], c :: cs, pos, rfl, nofun, hc, h⟩

theorem colon_of_accepts {p : Nat} {r : Record Form} {key : String}
    (h : Accepts fs ⟨forms, stack, .colon p r key⟩ pos cs) :
    ∃ bs rest pos, cs = bs ++ ':' :: rest ∧ Blanks bs ∧
      Accepts fs ⟨forms, .field p r key :: stack, .blank⟩ pos rest := by
  induction cs generalizing pos with
  | nil =>
    obtain ⟨t, ht, hopen, -⟩ := h
    cases ht
    cases hopen
  | cons c cs ih =>
    obtain ⟨t, u, ht, hu, hrest⟩ := h
    rw [settle_of_rests_mode rfl] at ht
    simp only [refuse] at ht
    split_ifs at ht with hc
    cases ht
    rcases hc with rfl | hc
    · cases hu
      exact ⟨[], cs, pos + 1, rfl, List.forall_mem_nil _, hrest⟩
    · rw [(colon_of_blank hc).2] at hu
      cases hu
      obtain ⟨bs, rest, pos', rfl, hbs, haccepts⟩ := ih hrest
      refine ⟨c :: bs, rest, pos', rfl, ?_, haccepts⟩
      intro d hd
      rcases List.mem_cons.mp hd with rfl | hd
      · exact hc
      · exact hbs d hd

theorem key_of_accepts {p pos : Nat} {r : Record Form} {text cs : List Char}
    (htext : KeyText text.reverse) (h : Accepts fs ⟨forms, stack, .key p r text⟩ pos cs) :
    ∃ ds rest pos, cs = ds ++ rest ∧ KeyText (text.reverse ++ ds) ∧
      Accepts fs ⟨forms, stack, .colon p r (String.ofList (text.reverse ++ ds))⟩ pos rest := by
  cases hend : (ahead cs).continuesKey with
  | false =>
    refine ⟨[], cs, pos, rfl, ?_, ?_⟩
    · rwa [List.append_nil]
    · rw [List.append_nil]
      exact (accepts_congr (settle_key hend)).mp h
  | true =>
    cases cs with
    | nil => cases hend
    | cons c cs =>
      have hc : (ofChar c).continuesKey = true := hend
      have hsettle : (⟨forms, stack, .key p r text⟩ : State).settle (some c) =
          .ok ⟨forms, stack, .key p r text⟩ := by
        simp only [State.settle, Option.elim_some, decideMinus, endLexeme, hc, if_true]
        rfl
      obtain ⟨u, hu, haccepts⟩ := h.step hsettle
      cases hu
      have hlonger : KeyText (c :: text).reverse := by
        rw [List.reverse_cons]
        exact htext.snoc hc
      obtain ⟨ds, rest, pos', rfl, htext', hf⟩ := key_of_accepts hlonger haccepts
      rw [List.reverse_cons, List.append_assoc] at htext' hf
      exact ⟨c :: ds, rest, pos', rfl, htext', hf⟩
termination_by cs.length

end

/-! ## Soundness -/

/-- The text begins with a form that the grammar derives, and ends well after it. -/
def Yields (fs forms : List Form) (stack : List Open) (quoted : Bool) (cs : List Char) : Prop :=
  ∃ rest f pos, Derives (room stack.length) cs rest (.form quoted f) ∧ rest.length < cs.length ∧
    Accepts fs ((⟨forms, stack, .blank⟩ : State).deliver f) pos rest

/-- The text begins with the rest of a group, up to its closing parenthesis, and ends well after
it. -/
def Closes (fs forms : List Form) (stack : List Open) (quoted : Bool) (items : List Form)
    (cs : List Char) : Prop :=
  ∃ rest gs pos, Derives (room (stack.length + 1)) cs (')' :: rest) (.forms quoted gs) ∧
    rest.length < cs.length ∧
    Accepts fs ((⟨forms, stack, .blank⟩ : State).deliver (group quoted (items.reverse ++ gs))) pos
      rest

def ClosesStruct (fs forms : List Form) (stack : List Open) (r : Record Form) (cs : List Char) :
    Prop :=
  ∃ rest entries pos, Derives (room (stack.length + 1)) cs ('\x7d' :: rest) (.fields entries) ∧
    rest.length < cs.length ∧
    Accepts fs ((⟨forms, stack, .blank⟩ : State).deliver
      (.struct (entries.foldl (fun r (k, v) => Record.insert k v r) r))) pos rest

/-- Where a text of less than `n` characters ends well, the grammar derives what it begins with. -/
structure SoundBelow (fs : List Form) (n : Nat) : Prop where
  form : ∀ {forms stack quoted s pos cs}, cs.length < n → Starts forms stack quoted s →
    Begins (ahead cs) → Accepts fs s pos cs → Yields fs forms stack quoted cs
  group : ∀ {forms stack quoted p items pos cs}, cs.length < n →
    Accepts fs ⟨forms, opened quoted p items :: stack, .blank⟩ pos cs →
    Closes fs forms stack quoted items cs
  fields : ∀ {forms stack p r pos cs}, cs.length < n →
    Accepts fs ⟨forms, stack, .fields p r⟩ pos cs → ClosesStruct fs forms stack r cs

section

variable {forms : List Form} {stack : List Open} {quoted : Bool} {n : Nat}

theorem yields_number {p : Nat} (hc : ofChar c = .digit)
    (h : Accepts fs ⟨forms, stack, .number p false [c]⟩ pos cs) :
    Yields fs forms stack quoted (c :: cs) := by
  have hstart : NumberStart false [c].reverse := by
    refine NumberStart.whole false (List.cons_ne_nil c []) ?_
    intro d hd
    rwa [List.mem_singleton.mp hd]
  obtain ⟨ds, rest, f, pos', rfl, htext, hend, hf⟩ := number_of_accepts hstart h
  exact ⟨rest, f, pos', .number quoted htext hend, by grind, hf⟩

theorem yields_minus {p : Nat} (h : Accepts fs ⟨forms, stack, .minus p quoted⟩ pos cs) :
    Yields fs forms stack quoted ('-' :: cs) := by
  by_cases hdigit : ahead cs = .digit
  · cases cs with
    | nil => cases hdigit
    | cons d cs =>
      have hd : ofChar d = .digit := hdigit
      obtain ⟨u, hu, hrest⟩ := h.step (settle_minus_digit hd)
      simp only [State.take, hd] at hu
      cases hu
      have hstart : NumberStart false [d, '-'].reverse := by
        refine NumberStart.whole true (List.cons_ne_nil d []) ?_
        intro x hx
        rwa [List.mem_singleton.mp hx]
      obtain ⟨ds, rest, f, pos', rfl, htext, hend, hf⟩ := number_of_accepts hstart hrest
      exact ⟨rest, f, pos', .number quoted htext hend, by grind, hf⟩
  · rw [accepts_congr (settle_minus hdigit)] at h
    cases quoted with
    | true =>
      have hstart : WordText ['-'].reverse := by
        refine ⟨⟨'-', [], rfl, by decide, by decide⟩, ?_, ?_⟩
        · intro d rest heq
          cases heq
        · intro x hx
          rw [List.mem_singleton.mp hx]
          decide
      obtain ⟨ds, rest, pos', rfl, htext, hend, hf⟩ := word_of_accepts hstart (fun _ => hdigit) h
      exact ⟨rest, _, pos', .word htext hend, by grind, hf⟩
    | false =>
      have hstart : SymbolText ['-'].reverse := .singleton (by decide)
      obtain ⟨ds, rest, f, pos', rfl, htext, hend, hf⟩ :=
        name_of_accepts hstart (fun _ => hdigit) h
      exact ⟨rest, f, pos', .name htext hend, by grind, hf⟩

theorem yields_name {p : Nat} (hc : ofChar c = .letter) (hminus : c ≠ '-')
    (h : Accepts fs ⟨forms, stack, .symbol p [c]⟩ pos cs) :
    Yields fs forms stack false (c :: cs) := by
  have hstart : SymbolText [c].reverse := .singleton hc
  have hne : [c] = ['-'] → ahead cs ≠ .digit := fun heq => absurd (List.cons.inj heq).1 hminus
  obtain ⟨ds, rest, f, pos', rfl, htext, hend, hf⟩ := name_of_accepts hstart hne h
  exact ⟨rest, f, pos', .name htext hend, by grind, hf⟩

theorem yields_word (hend : (ofChar c).endsNumber = false) (hdigit : ofChar c ≠ .digit)
    (hquote : ofChar c ≠ .quote) (hminus : c ≠ '-')
    (h : Accepts fs ⟨forms, stack, .word [c]⟩ pos cs) :
    Yields fs forms stack true (c :: cs) := by
  have hstart : WordText [c].reverse := by
    refine ⟨⟨c, [], rfl, hdigit, hquote⟩, nofun, ?_⟩
    intro x hx
    rwa [List.mem_singleton.mp hx]
  have hne : [c] = ['-'] → ahead cs ≠ .digit := fun heq => absurd (List.cons.inj heq).1 hminus
  obtain ⟨ds, rest, pos', rfl, htext, hend, hf⟩ := word_of_accepts hstart hne h
  exact ⟨rest, _, pos', .word htext hend, by grind, hf⟩

theorem yields_string {p : Nat} (h : Accepts fs ⟨forms, stack, .string p [] false⟩ pos cs) :
    Yields fs forms stack quoted ('\x22' :: cs) := by
  obtain ⟨ds, rest, more, pos', rfl, htext, hf⟩ := string_of_accepts h
  exact ⟨rest, _, pos', .string quoted htext, by grind, hf⟩

/-- Where a bracket can be opened there is room for it. -/
theorem room_of_nest {start : Nat} (h : s.nest start t = .ok u) :
    u = t ∧ room s.stack.length = room (s.stack.length + 1) + 1 := by
  unfold nest at h
  split_ifs at h with hlength
  cases h
  exact ⟨rfl, by unfold room; omega⟩

/-- What an apostrophe begins. After it there is no blank and no closing bracket. -/
theorem yields_quote {p : Nat} (ih : SoundBelow fs n) (hlen : cs.length < n)
    (h : Accepts fs ⟨forms, stack, .tick p⟩ pos cs) :
    Yields fs forms stack false ('\x27' :: cs) := by
  have hbegins : Begins (ahead cs) := by
    cases cs with
    | nil =>
      obtain ⟨t, ht, hopen, -⟩ := h
      cases ht
      cases hopen
    | cons d cs =>
      obtain ⟨u, hu, -⟩ := h.step (t := ⟨forms, stack, .tick p⟩) rfl
      simp only [State.take, beginLiteral] at hu
      show Begins (ofChar d)
      cases hd : ofChar d <;> first | decide | (simp only [hd] at hu; cases hu)
  obtain ⟨rest, f, pos', hderives, hlength, hf⟩ := ih.form hlen (.tick p) hbegins h
  exact ⟨rest, f, pos', .quote hderives, Nat.lt_succ_of_lt hlength, hf⟩

theorem yields_paren {start p : Nat} (ih : SoundBelow fs n) (hlen : cs.length < n)
    (hs : s.stack = stack)
    (hnest : s.nest start ⟨forms, opened quoted p [] :: stack, .blank⟩ = .ok u)
    (h : Accepts fs u pos cs) : Yields fs forms stack quoted ('(' :: cs) := by
  obtain ⟨rfl, hroom⟩ := room_of_nest hnest
  obtain ⟨rest, gs, pos', hderives, hlength, hf⟩ := ih.group hlen h
  refine ⟨rest, _, pos', ?_, Nat.lt_succ_of_lt hlength, hf⟩
  rw [← hs, hroom, hs]
  exact .paren hderives

theorem yields_struct {start p : Nat} (ih : SoundBelow fs n) (hlen : cs.length < n)
    (hnest : nest ⟨forms, stack, .blank⟩ start ⟨forms, stack, .fields p []⟩ = .ok u)
    (h : Accepts fs u pos cs) : Yields fs forms stack false ('\x7b' :: cs) := by
  obtain ⟨rfl, hroom⟩ := room_of_nest hnest
  obtain ⟨rest, entries, pos', hderives, hlength, hf⟩ := ih.fields hlen h
  refine ⟨rest, _, pos', ?_, Nat.lt_succ_of_lt hlength, hf⟩
  rw [show room stack.length = _ from hroom]
  exact .struct hderives

theorem yields_form (ih : SoundBelow fs n) (hlen : cs.length < n) (hlist : inList stack = false)
    (hc : Begins (ofChar c)) (h : Accepts fs ⟨forms, stack, .blank⟩ pos (c :: cs)) :
    Yields fs forms stack false (c :: cs) := by
  obtain ⟨u, hu, hrest⟩ := h.step (settle_form hc.2.2.1)
  rw [take_form (atForm_of_inList hlist)] at hu
  unfold beginForm at hu
  cases hclass : ofChar c with
  | digit =>
    simp only [hclass] at hu
    cases hu
    exact yields_number hclass hrest
  | letter =>
    simp only [hclass] at hu
    cases hu
    by_cases hminus : c = '-'
    · subst hminus
      exact yields_minus hrest
    · rw [if_neg hminus] at hrest
      exact yields_name hclass hminus hrest
  | quote =>
    obtain rfl : c = '\x22' := eq_of_mark (by rw [hclass]; rfl)
    cases hu
    exact yields_string hrest
  | apostrophe =>
    obtain rfl : c = '\x27' := eq_of_mark (by rw [hclass]; rfl)
    cases hu
    exact yields_quote ih hlen hrest
  | openParen =>
    obtain rfl : c = '(' := eq_of_mark (by rw [hclass]; rfl)
    exact yields_paren (s := ⟨forms, stack, .blank⟩) ih hlen rfl hu hrest
  | openBrace =>
    obtain rfl : c = '\x7b' := eq_of_mark (by rw [hclass]; rfl)
    exact yields_struct ih hlen hu hrest
  | blank => exact absurd hclass hc.1
  | closeParen => exact absurd hclass hc.2.1
  | closeBrace => exact absurd hclass hc.2.2.1
  | dot | unknown | endOfText =>
    simp only [hclass] at hu
    cases hu

theorem yields_literal (ih : SoundBelow fs n) (hlen : cs.length < n)
    (hs : Starts forms stack true s) (hc : Begins (ofChar c)) (h : Accepts fs s pos (c :: cs)) :
    Yields fs forms stack true (c :: cs) := by
  obtain ⟨u, hu, hrest⟩ := h.step (hs.settle hc.2.2.1)
  obtain ⟨start, htake⟩ := hs.take pos hc
  rw [htake, if_pos rfl] at hu
  unfold beginLiteral at hu
  cases hclass : ofChar c with
  | digit =>
    simp only [hclass, hs.forms_eq, hs.stack_eq] at hu
    cases hu
    exact yields_number hclass hrest
  | letter =>
    simp only [hclass, hs.forms_eq, hs.stack_eq] at hu
    cases hu
    by_cases hminus : c = '-'
    · subst hminus
      exact yields_minus hrest
    · rw [if_neg hminus] at hrest
      exact yields_word (by rw [hclass]; rfl) (by rw [hclass]; decide) (by rw [hclass]; decide)
        hminus hrest
  | quote =>
    obtain rfl : c = '\x22' := eq_of_mark (by rw [hclass]; rfl)
    simp only [hclass, hs.forms_eq, hs.stack_eq] at hu
    cases hu
    exact yields_string hrest
  | openParen =>
    obtain rfl : c = '(' := eq_of_mark (by rw [hclass]; rfl)
    simp only [hclass, hs.forms_eq, hs.stack_eq] at hu
    exact yields_paren ih hlen hs.stack_eq hu hrest
  | apostrophe | dot | unknown =>
    simp only [hclass, hs.forms_eq, hs.stack_eq] at hu
    cases hu
    have hminus : c ≠ '-' := by
      rintro rfl
      revert hclass
      decide
    exact yields_word (by rw [hclass]; rfl) (by rw [hclass]; decide) (by rw [hclass]; decide)
      hminus hrest
  | blank | closeParen | closeBrace | openBrace | endOfText =>
    simp only [hclass] at hu
    cases hu

theorem sound_form (ih : SoundBelow fs n) (hlen : cs.length ≤ n) (hs : Starts forms stack quoted s)
    (hbegins : Begins (ahead cs)) (h : Accepts fs s pos cs) : Yields fs forms stack quoted cs := by
  cases cs with
  | nil => exact absurd rfl hbegins.2.2.2
  | cons c cs =>
    rw [List.length_cons] at hlen
    cases quoted with
    | true => exact yields_literal ih (by omega) hs hbegins h
    | false =>
      obtain ⟨hlist, rfl⟩ := hs.inList_eq rfl
      exact yields_form ih (by omega) hlist hbegins h

/-- Between the items of a group there is a blank, its closing parenthesis, or another item. -/
theorem opened_cases {p : Nat} {items : List Form}
    (h : Accepts fs ⟨forms, opened quoted p items :: stack, .blank⟩ pos (c :: cs)) :
    ofChar c = .blank ∨ c = ')' ∨ Begins (ofChar c) := by
  by_cases hbrace : ofChar c = .closeBrace
  · obtain rfl : c = '\x7d' := eq_of_mark (by rw [hbrace]; rfl)
    obtain ⟨t, u, ht, hu, -⟩ := h
    cases quoted <;> cases ht <;> cases hu
  · by_cases hblank : ofChar c = .blank
    · exact .inl hblank
    · by_cases hparen : ofChar c = .closeParen
      · exact .inr (.inl (eq_of_mark (by rw [hparen]; rfl)))
      · exact .inr (.inr ⟨hblank, hparen, hbrace, ofChar_ne_endOfText c⟩)

theorem sound_group {p : Nat} {items : List Form} (ih : SoundBelow fs n) (hlen : cs.length ≤ n)
    (h : Accepts fs ⟨forms, opened quoted p items :: stack, .blank⟩ pos cs) :
    Closes fs forms stack quoted items cs := by
  cases cs with
  | nil =>
    obtain ⟨t, ht, hopen, -⟩ := h
    cases quoted <;> cases ht <;> cases hopen
  | cons c cs =>
    have hlen' : cs.length < n := by
      rw [List.length_cons] at hlen
      omega
    rcases opened_cases h with hblank | rfl | hbegins
    · obtain ⟨rest, gs, pos', hderives, hlength, hf⟩ := ih.group hlen' (h.skip_blank hblank)
      exact ⟨rest, gs, pos', .blank hblank hderives, Nat.lt_succ_of_lt hlength, hf⟩
    · obtain ⟨u, hu, hrest⟩ := h.step (settle_form (by decide))
      rw [take_closeParen] at hu
      cases hu
      exact ⟨cs, [], pos + 1, .nil quoted, by simp, by rwa [List.append_nil]⟩
    · have hs : Starts forms (opened quoted p items :: stack) quoted
          ⟨forms, opened quoted p items :: stack, .blank⟩ := .of_inList (inList_opened ..)
      obtain ⟨ds, f, pos', hderives, hlength, hf⟩ := sound_form ih hlen hs hbegins h
      rw [deliver_opened] at hf
      obtain ⟨rest, gs, pos'', hderives', hlength', hf'⟩ := ih.group (by omega) hf
      refine ⟨rest, f :: gs, pos'', .cons hderives hderives', by omega, ?_⟩
      rwa [List.reverse_cons, List.append_assoc] at hf'

/-- After the colon of a field there is its value. -/
theorem begins_of_field {p : Nat} {r : Record Form} {key : String} (hblank : ahead cs ≠ .blank)
    (h : Accepts fs ⟨forms, .field p r key :: stack, .blank⟩ pos cs) : Begins (ahead cs) := by
  refine ⟨hblank, ?_, ?_, ?_⟩
  · intro hparen
    cases cs with
    | nil => cases hparen
    | cons c cs =>
      obtain rfl : c = ')' := eq_of_mark (by rw [show ofChar c = _ from hparen]; rfl)
      obtain ⟨t, u, ht, hu, -⟩ := h
      cases ht
      cases hu
  · intro hbrace
    cases cs with
    | nil => cases hbrace
    | cons c cs =>
      obtain rfl : c = '\x7d' := eq_of_mark (by rw [show ofChar c = _ from hbrace]; rfl)
      obtain ⟨t, u, ht, -⟩ := h
      cases ht
  · intro hend
    cases cs with
    | nil =>
      obtain ⟨t, ht, hopen, -⟩ := h
      cases ht
      cases hopen
    | cons c cs => exact ofChar_ne_endOfText c hend

theorem sound_fields {p : Nat} {r : Record Form} (ih : SoundBelow fs n) (hlen : cs.length ≤ n)
    (h : Accepts fs ⟨forms, stack, .fields p r⟩ pos cs) : ClosesStruct fs forms stack r cs := by
  cases cs with
  | nil =>
    obtain ⟨t, ht, hopen, -⟩ := h
    cases ht
    cases hopen
  | cons c cs =>
    have hlen' : cs.length < n := by
      rw [List.length_cons] at hlen
      omega
    obtain ⟨u, hu, hrest⟩ := h.step (t := ⟨forms, stack, .fields p r⟩) rfl
    simp only [State.take, beginKey] at hu
    cases hclass : ofChar c with
    | blank =>
      simp only [hclass] at hu
      cases hu
      obtain ⟨rest, entries, pos', hderives, hlength, hf⟩ := ih.fields hlen' hrest
      exact ⟨rest, entries, pos', .fieldsBlank hclass hderives, Nat.lt_succ_of_lt hlength, hf⟩
    | closeBrace =>
      obtain rfl : c = '\x7d' := eq_of_mark (by rw [hclass]; rfl)
      cases hu
      exact ⟨cs, [], pos + 1, .noFields, by simp, by rwa [deliver_mode] at hrest⟩
    | letter =>
      simp only [hclass] at hu
      cases hu
      have hstart : KeyText [c].reverse := ⟨c, [], rfl, hclass, List.forall_mem_nil _⟩
      obtain ⟨key, _, _, rfl, hkey, hcolon⟩ := key_of_accepts hstart hrest
      obtain ⟨before, _, _, rfl, hbefore, hvalue⟩ := colon_of_accepts hcolon
      obtain ⟨after, ds, _, rfl, hafter, hahead, hform⟩ := blanks_of_accepts hvalue
      simp only [List.length_cons, List.length_append] at hlen hlen'
      obtain ⟨es, f, _, hderives, hlength, hf⟩ :=
        ih.form (by omega) (.of_inList rfl) (begins_of_field hahead hform) hform
      obtain ⟨rest, entries, pos', hderives', hlength', hf'⟩ := ih.fields (by omega) hf
      refine ⟨rest, _, pos', .field hkey hbefore hafter hderives hderives', ?_, hf'⟩
      simp only [List.length_cons, List.length_append]
      omega
    | _ =>
      simp only [hclass] at hu
      cases hu

theorem soundBelow (fs : List Form) (n : Nat) : SoundBelow fs n := by
  induction n with
  | zero => exact ⟨nofun, nofun, nofun⟩
  | succ n ih =>
    refine ⟨fun hlen => ?_, fun hlen => ?_, fun hlen => ?_⟩
    · exact sound_form ih (Nat.lt_succ_iff.mp hlen)
    · exact sound_group ih (Nat.lt_succ_iff.mp hlen)
    · exact sound_fields ih (Nat.lt_succ_iff.mp hlen)

/-- Between the forms of a source there is a blank or another form. -/
theorem outermost_cases (h : Accepts fs ⟨forms, [], .blank⟩ pos (c :: cs)) :
    ofChar c = .blank ∨ Begins (ofChar c) := by
  by_cases hblank : ofChar c = .blank
  · exact .inl hblank
  · refine .inr ⟨hblank, ?_, ?_, ofChar_ne_endOfText c⟩
    · intro hparen
      obtain rfl : c = ')' := eq_of_mark (by rw [hparen]; rfl)
      obtain ⟨t, u, ht, hu, -⟩ := h
      cases ht
      cases hu
    · intro hbrace
      obtain rfl : c = '\x7d' := eq_of_mark (by rw [hbrace]; rfl)
      obtain ⟨t, u, ht, hu, -⟩ := h
      cases ht
      cases hu

/-- Every source that is read is one that the grammar derives. -/
theorem derives_of_accepts {forms : List Form} {pos : Nat} {cs : List Char}
    (h : Accepts fs ⟨forms, [], .blank⟩ pos cs) :
    ∃ gs, Derives maxNesting cs [] (.forms false gs) ∧ fs = forms.reverse ++ gs := by
  cases cs with
  | nil =>
    obtain ⟨t, ht, -, hforms⟩ := h
    cases ht
    exact ⟨[], .nil false, by rw [List.append_nil]; exact hforms.symm⟩
  | cons c cs =>
    rcases outermost_cases h with hblank | hbegins
    · obtain ⟨gs, hderives, hfs⟩ := derives_of_accepts (h.skip_blank hblank)
      exact ⟨gs, .blank hblank hderives, hfs⟩
    · obtain ⟨rest, f, pos', hderives, hlength, hf⟩ :=
        sound_form (soundBelow fs (c :: cs).length) (Nat.le_refl _) (.of_inList rfl) hbegins h
      have hrest : Accepts fs ⟨f :: forms, [], .blank⟩ pos' rest := hf
      obtain ⟨gs, hderives', hfs⟩ := derives_of_accepts hrest
      refine ⟨f :: gs, .cons hderives hderives', ?_⟩
      rwa [List.reverse_cons, List.append_assoc] at hfs
termination_by cs.length

end

/-- A source is read as some forms exactly if the grammar derives the forms from it, in a room of
`maxNesting` brackets. -/
theorem read_ok_iff_derives (source : String) (fs : List Form) :
    read source = .ok fs ↔ Derives maxNesting source.toList [] (.forms false fs) := by
  rw [read_eq_ok_iff]
  constructor
  · intro h
    obtain ⟨gs, hderives, rfl⟩ := derives_of_accepts h
    exact hderives
  · exact accepts_of_derives

end Lisplet.Grammar
