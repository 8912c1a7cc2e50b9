import Lisplet.Proofs.Grammar
import Lisplet.Proofs.RoundTrip

/-!
# What the grammar derives is read

By induction on the derivation, which says for each phrase how the machine comes through it. The
machine ends well with a text if it ends well with what is left after the phrase.
-/

namespace Lisplet.Grammar

open CharClass Reader Reader.State

/-! ## Texts that end well -/

/-- From this state on, the text is read to its end and leaves the forms `fs` behind. -/
def Accepts (fs : List Form) (s : State) (pos : Nat) : List Char → Prop
  | [] => ∃ t, s.settle none = .ok t ∧ t.unfinished = none ∧ t.forms.reverse = fs
  | c :: cs => ∃ t u, s.settle (some c) = .ok t ∧ t.take pos c = .ok u ∧ Accepts fs u (pos + 1) cs

variable {fs : List Form} {s t u : State} {pos : Nat} {c : Char} {cs ds rest : List Char}

theorem accepts_iff_run (before : List Char) :
    Accepts fs s pos cs ↔ ∃ t, (run false s before pos cs).outcome = .ok t ∧
      t.unfinished = none ∧ t.forms.reverse = fs := by
  induction cs generalizing s pos before with
  | nil => rfl
  | cons c cs ih =>
    rw [Accepts, run]
    cases hs : s.settle (some c) with
    | error f => simp
    | ok t =>
      cases ht : t.take pos c with
      | error f => simp [ht]
      | ok u => simp [ht, ih (c :: before)]

theorem read_eq_ok_iff {source : String} :
    read source = .ok fs ↔ Accepts fs {} 0 source.toList := by
  rw [accepts_iff_run []]
  show (resume false {} (ofSource source []) []).1 = .ok fs ↔ _
  simp only [resume, leg, ofSource]
  cases hrun : (run false {} [] 0 source.toList).outcome with
  | error f => simp
  | ok t =>
    cases hopen : t.unfinished with
    | none => simp [hopen, conclude, faultAtEnd]
    | some f =>
      -- The blank that is added to a text with an open form does not close the form.
      have hnot : ∀ r : Reader, r.after = [' '] → (finish false t r).1 ≠ .ok fs := by
        intro r hafter hok
        rw [finish_space (rests_of_run hrun) hopen hafter] at hok
        cases hok
      simp only [hopen, Option.isNone_some, Bool.false_eq_true, if_false, Except.ok.injEq,
        exists_eq_left', reduceCtorEq, false_and, iff_false]
      exact hnot _ (by simp [asking, exhaust, counting, after_run hrun])

/-- All that a text can tell of a state is how its first character, or its end, is looked at. -/
theorem accepts_congr (h : s.settle cs.head? = t.settle cs.head?) :
    Accepts fs s pos cs ↔ Accepts fs t pos cs := by
  cases cs with
  | nil =>
    rw [List.head?_nil] at h
    rw [Accepts, Accepts, h]
  | cons c cs =>
    rw [List.head?_cons] at h
    rw [Accepts, Accepts, h]

theorem Accepts.settles (h : Accepts fs s pos cs) : ∃ t, s.settle cs.head? = .ok t := by
  cases cs with
  | nil =>
    obtain ⟨t, ht, -⟩ := h
    exact ⟨t, ht⟩
  | cons c cs =>
    obtain ⟨t, u, ht, -⟩ := h
    exact ⟨t, ht⟩

/-- The next character, in a state that it leaves as it is before it is read. -/
theorem Accepts.step (h : Accepts fs s pos (c :: cs)) (hs : s.settle (some c) = .ok t) :
    ∃ u, t.take pos c = .ok u ∧ Accepts fs u (pos + 1) cs := by
  obtain ⟨v, u, hv, hu, hrest⟩ := h
  rw [hs] at hv
  cases hv
  exact ⟨u, hu, hrest⟩

theorem accepts_of_step (hs : s.settle (some c) = .ok t) (ht : ∀ pos, ∃ u, t.take pos c = .ok u ∧
    ∀ pos, Accepts fs u pos cs) : Accepts fs s pos (c :: cs) := by
  obtain ⟨u, hu, hrest⟩ := ht pos
  exact ⟨t, u, hs, hu, hrest (pos + 1)⟩

theorem accepts_append (h : s.feed pos cs = .ok t) (hrest : Accepts fs t (pos + cs.length) ds) :
    Accepts fs s pos (cs ++ ds) := by
  induction cs generalizing s pos with
  | nil =>
    cases h
    exact hrest
  | cons c cs ih =>
    cases hs : s.settle (some c) with
    | error f =>
      simp only [feed, hs, bind, Except.bind] at h
      cases h
    | ok v =>
      cases hv : v.take pos c with
      | error f =>
        simp only [feed, hs, bind, Except.bind, hv] at h
        cases h
      | ok w =>
        rw [feed_cons hs hv] at h
        refine ⟨v, w, hs, hv, ih h ?_⟩
        rw [List.length_cons] at hrest
        rwa [Nat.add_right_comm]

/-! ## Where forms begin -/

/-- The states in which a form begins, between forms or after an apostrophe. -/
inductive Starts (forms : List Form) (stack : List Open) : Bool → State → Prop
  | blank : Starts forms stack (inList stack) ⟨forms, stack, .blank⟩
  | tick (p : Nat) : Starts forms stack true ⟨forms, stack, .tick p⟩

def opened (quoted : Bool) (p : Nat) (items : List Form) : Open :=
  if quoted then .list p items else .expr p items

section

variable {forms : List Form} {stack : List Open} {quoted : Bool}

theorem Starts.inList_eq (h : Starts forms stack quoted s) (hq : quoted = false) :
    inList stack = false ∧ s = ⟨forms, stack, .blank⟩ := by
  cases h with
  | blank => exact ⟨hq, rfl⟩
  | tick p => cases hq

theorem Starts.of_inList (h : inList stack = quoted) :
    Starts forms stack quoted ⟨forms, stack, .blank⟩ :=
  h ▸ .blank

theorem Starts.settle (h : Starts forms stack quoted s) (hc : ofChar c ≠ .closeBrace) :
    s.settle (some c) = .ok s := by
  cases h with
  | blank => exact settle_form hc
  | tick p => rfl

/-- A form begins with a character that is neither a blank nor a closing bracket. -/
def Begins (k : CharClass) : Prop :=
  k ≠ .blank ∧ k ≠ .closeParen ∧ k ≠ .closeBrace ∧ k ≠ .endOfText

instance (k : CharClass) : Decidable (Begins k) :=
  inferInstanceAs (Decidable (_ ∧ _))

theorem Starts.take (h : Starts forms stack quoted s) (pos : Nat) (hc : Begins (ofChar c)) :
    ∃ start, s.take pos c =
      if quoted then s.beginLiteral start pos c else s.beginForm pos c := by
  obtain ⟨hblank, hparen, hbrace, -⟩ := hc
  cases h with
  | tick p => exact ⟨p, rfl⟩
  | blank =>
    match stack with
    | [] => exact ⟨0, rfl⟩
    | .expr .. :: _ => exact ⟨0, rfl⟩
    | .field .. :: _ => exact ⟨0, rfl⟩
    | .list .. :: _ => exact ⟨pos, take_item hblank hparen hbrace⟩

theorem Starts.forms_eq (h : Starts forms stack quoted s) : s.forms = forms := by
  cases h <;> rfl

theorem Starts.stack_eq (h : Starts forms stack quoted s) : s.stack = stack := by
  cases h <;> rfl

theorem Starts.take_digit (h : Starts forms stack quoted s) (hc : ofChar c = .digit) :
    s.take pos c = .ok ⟨forms, stack, .number pos false [c]⟩ := by
  obtain ⟨start, htake⟩ := h.take (c := c) pos (by rw [hc]; decide)
  rw [htake]
  cases quoted <;> simp [beginForm, beginLiteral, hc, h.forms_eq, h.stack_eq]

theorem Starts.take_letter (h : Starts forms stack quoted s) (hc : ofChar c = .letter) :
    s.take pos c = .ok ⟨forms, stack, if c = '-' then .minus pos quoted
      else if quoted then .word [c] else .symbol pos [c]⟩ := by
  obtain ⟨start, htake⟩ := h.take (c := c) pos (by rw [hc]; decide)
  rw [htake]
  cases quoted <;> simp [beginForm, beginLiteral, hc, h.forms_eq, h.stack_eq]

theorem Starts.take_quote (h : Starts forms stack quoted s) (hc : ofChar c = .quote) :
    s.take pos c = .ok ⟨forms, stack, .string pos [] false⟩ := by
  obtain ⟨start, htake⟩ := h.take (c := c) pos (by rw [hc]; decide)
  rw [htake]
  cases quoted <;> simp [beginForm, beginLiteral, hc, h.forms_eq, h.stack_eq]

theorem Starts.take_openParen (h : Starts forms stack quoted s) (pos : Nat)
    (hc : ofChar c = .openParen) :
    ∃ start, s.take pos c =
      s.nest start ⟨forms, opened quoted pos [] :: stack, .blank⟩ := by
  obtain ⟨start, htake⟩ := h.take (c := c) pos (by rw [hc]; decide)
  rw [htake]
  cases h with
  | tick p => exact ⟨start, by simp [beginLiteral, hc, opened]⟩
  | blank =>
    cases hlist : inList stack with
    | true => exact ⟨start, by simp [beginLiteral, hc, opened]⟩
    | false => exact ⟨pos, by simp [beginForm, hc, opened]⟩

/-! ## Coming through a lexeme -/

theorem feed_whole {ds : List Char} (negative : Bool) (h : Starts forms stack quoted s)
    (hne : ds ≠ []) (hds : Digits ds) :
    s.feed pos (sign negative ++ ds) =
      .ok ⟨forms, stack, .number pos false (sign negative ++ ds).reverse⟩ := by
  obtain ⟨d, rest, rfl⟩ := List.exists_cons_of_ne_nil hne
  have hd := hds d List.mem_cons_self
  have hrest : ∀ c ∈ rest, ofChar c = .digit := fun c hc => hds c (List.mem_cons_of_mem _ hc)
  cases negative with
  | false =>
    show s.feed pos (d :: rest) = _
    rw [feed_cons (h.settle (by rw [hd]; decide)) (h.take_digit hd), feed_digits hrest]
    simp [sign]
  | true =>
    have htake : (⟨forms, stack, .number pos false ['-']⟩ : State).take (pos + 1) d =
        .ok ⟨forms, stack, .number pos false [d, '-']⟩ := by
      simp only [State.take, hd]
    show s.feed pos ('-' :: d :: rest) = _
    rw [feed_cons (h.settle (by decide)) (h.take_letter (by decide)), if_pos rfl,
      feed_cons (settle_minus_digit hd) htake, feed_digits hrest]
    simp [sign]

theorem feed_number {point : Bool} (h : Starts forms stack quoted s) (hcs : NumberStart point cs) :
    s.feed pos cs = .ok ⟨forms, stack, .number pos point cs.reverse⟩ := by
  cases hcs with
  | whole negative hne hds => exact feed_whole negative h hne hds
  | @fraction negative ds es hne hds hes =>
    have hpoint : ∀ p text, (⟨forms, stack, .number pos false text⟩ : State).take p '.' =
        .ok ⟨forms, stack, .number pos true ('.' :: text)⟩ := by
      intro p text
      rfl
    rw [← List.append_assoc, feed_append (feed_whole negative h hne hds),
      feed_cons (settle_number (by decide)) (hpoint _ _), feed_digits hes]
    simp

theorem accepts_number {f : Form} (h : Starts forms stack quoted s) (hcs : NumberText cs f)
    (hrest : (ahead rest).endsNumber = true)
    (hf : ∀ pos, Accepts fs ((⟨forms, stack, .blank⟩ : State).deliver f) pos rest) :
    Accepts fs s pos (cs ++ rest) := by
  obtain ⟨point, hstart, hform⟩ := hcs.start
  refine accepts_append (feed_number h hstart) ?_
  rw [accepts_congr (meets_number (by rwa [List.reverse_reverse]) _ hrest)]
  exact hf _

theorem atForm_of_inList (h : inList stack = false) : AtForm stack := by
  rintro p items rest rfl
  cases h

theorem accepts_name {f : Form} (h : inList stack = false) (hcs : NameText cs f)
    (hrest : (ahead rest).continuesSymbol = false)
    (hf : ∀ pos, Accepts fs ((⟨forms, stack, .blank⟩ : State).deliver f) pos rest) :
    Accepts fs ⟨forms, stack, .blank⟩ pos (cs ++ rest) := by
  obtain ⟨htext, hform⟩ := nameText_iff.mp hcs
  obtain ⟨u, hu, hsettle⟩ := feed_name forms pos (atForm_of_inList h) htext
  refine accepts_append hu ?_
  rw [accepts_congr ((hsettle _ hrest).trans
    (settle_symbol hrest (by rwa [List.reverse_reverse])))]
  exact hf _

theorem feed_stringText {p : Nat} {text read : List Char} (hcs : StringText cs text) :
    (⟨forms, stack, .string p read false⟩ : State).feed pos cs =
      .ok ⟨forms, stack, .string p (text.reverse ++ read) false⟩ := by
  induction hcs generalizing pos read with
  | nil => rfl
  | @plain c cs text hquote hslash h ih =>
    have htake : (⟨forms, stack, .string p read false⟩ : State).take pos c =
        .ok ⟨forms, stack, .string p (c :: read) false⟩ := by
      simp only [State.take, Bool.false_eq_true, if_false, hquote, hslash]
    rw [feed_cons settle_string htake, ih]
    simp
  | @escape c cs text h ih =>
    have hslash : (⟨forms, stack, .string p read false⟩ : State).take pos '\\' =
        .ok ⟨forms, stack, .string p read true⟩ := by
      rfl
    have htake : (⟨forms, stack, .string p read true⟩ : State).take (pos + 1) c =
        .ok ⟨forms, stack, .string p (Text.unescape c :: read) false⟩ := by
      simp only [State.take, if_true]
    rw [feed_cons settle_string hslash, feed_cons settle_string htake, ih]
    simp

theorem accepts_string {text : List Char} (h : Starts forms stack quoted s)
    (hcs : StringText cs text)
    (hf : ∀ pos, Accepts fs
      ((⟨forms, stack, .blank⟩ : State).deliver (.str (String.ofList text))) pos rest) :
    Accepts fs s pos ('\x22' :: (cs ++ '\x22' :: rest)) := by
  refine accepts_of_step (h.settle (by decide)) fun pos => ⟨_, h.take_quote (by decide), ?_⟩
  intro pos
  refine accepts_append (feed_stringText hcs) (accepts_of_step settle_string fun pos => ?_)
  refine ⟨_, rfl, ?_⟩
  simpa only [List.append_nil, List.reverse_reverse, deliver_mode forms stack (.string ..)] using hf

/-- A word that begins with a minus is looked at once more, like a name. -/
theorem accepts_word (h : Starts forms stack true s) (hcs : WordText cs)
    (hrest : (ahead rest).endsNumber = true)
    (hf : ∀ pos, Accepts fs
      ((⟨forms, stack, .blank⟩ : State).deliver (.str (String.ofList cs))) pos rest) :
    Accepts fs s pos (cs ++ rest) := by
  obtain ⟨c, cs, rfl, hdigit, hquote⟩ := hcs.head
  have hend := hcs.inside c List.mem_cons_self
  have hmem : ∀ d ∈ cs, (ofChar d).endsNumber = false :=
    fun d hd => hcs.inside d (List.mem_cons_of_mem _ hd)
  have hword : ∀ pos, Accepts fs ⟨forms, stack, .word [c]⟩ pos (cs ++ rest) := by
    intro pos
    refine accepts_append (feed_word hmem) ?_
    rw [accepts_congr (meets_word _ hrest)]
    simpa using hf _
  have hbegins : Begins (ofChar c) := by
    revert hend
    cases ofChar c <;> decide
  rw [List.cons_append]
  refine accepts_of_step (h.settle hbegins.2.2.1) fun pos => ?_
  by_cases hminus : c = '-'
  · subst hminus
    refine ⟨_, h.take_letter (by decide), fun pos => ?_⟩
    have hnext : (cs ++ rest).head?.elim .endOfText ofChar ≠ .digit := by
      cases cs with
      | nil => exact not_digit_of_endsNumber hrest
      | cons d cs => exact hcs.minus d cs rfl
    exact (accepts_congr (settle_minus hnext)).mpr (hword pos)
  · obtain ⟨start, htake⟩ := h.take pos hbegins
    refine ⟨⟨forms, stack, .word [c]⟩, ?_, hword⟩
    rw [htake, if_pos rfl]
    revert hend hdigit hquote
    cases hc : ofChar c <;>
      simp [beginLiteral, hc, hminus, h.forms_eq, h.stack_eq, CharClass.endsNumber]

/-! ## Coming through blanks and keys -/

theorem feed_blanks {bs : List Char} (hbs : Blanks bs)
    (hs : ∀ pos c, ofChar c = .blank → s.settle (some c) = .ok s ∧ s.take pos c = .ok s) :
    s.feed pos bs = .ok s := by
  induction bs generalizing pos with
  | nil => rfl
  | cons c bs ih =>
    obtain ⟨hsettle, htake⟩ := hs pos c (hbs c List.mem_cons_self)
    rw [feed_cons hsettle htake, ih fun d hd => hbs d (List.mem_cons_of_mem _ hd)]

/-- Between forms a blank changes nothing. -/
theorem take_blank (hc : ofChar c = .blank) :
    (⟨forms, stack, .blank⟩ : State).take pos c = .ok ⟨forms, stack, .blank⟩ := by
  cases hlist : inList stack with
  | false =>
    rw [take_form (atForm_of_inList hlist)]
    simp only [beginForm, hc]
  | true =>
    cases stack with
    | nil => cases hlist
    | cons top rest =>
      cases top with
      | list start items => simp only [State.take, beginItem, hc]
      | expr | field => cases hlist

theorem blank_of_blank (hc : ofChar c = .blank) :
    (⟨forms, stack, .blank⟩ : State).settle (some c) = .ok ⟨forms, stack, .blank⟩ ∧
      (⟨forms, stack, .blank⟩ : State).take pos c = .ok ⟨forms, stack, .blank⟩ :=
  ⟨settle_form (by rw [hc]; decide), take_blank hc⟩

theorem colon_of_blank {p : Nat} {r : Record Form} {key : String} (hc : ofChar c = .blank) :
    (⟨forms, stack, .colon p r key⟩ : State).settle (some c) =
        .ok ⟨forms, stack, .colon p r key⟩ ∧
      (⟨forms, stack, .colon p r key⟩ : State).take pos c = .ok ⟨forms, stack, .colon p r key⟩ := by
  have hcolon : c ≠ ':' := by
    rintro rfl
    revert hc
    decide
  constructor
  · rw [settle_of_rests_mode rfl]
    exact refuse_blank _ hc
  · simp only [State.take, hcolon, if_false]

theorem settle_key {p : Nat} {r : Record Form} {text : List Char} {next : Option Char}
    (hnext : (next.elim .endOfText ofChar).continuesKey = false) :
    (⟨forms, stack, .key p r text⟩ : State).settle next =
      (⟨forms, stack, .colon p r (String.ofList text.reverse)⟩ : State).settle next := by
  simp only [State.settle, decideMinus, endLexeme, hnext, Bool.false_eq_true, if_false]

/-- A key, its colon and the blanks around it, up to the value. -/
theorem accepts_key {p : Nat} {r : Record Form} {key before after : List Char}
    (hkey : KeyText key) (hbefore : Blanks before) (hafter : Blanks after)
    (h : ∀ pos, Accepts fs ⟨forms, .field p r (String.ofList key) :: stack, .blank⟩ pos cs) :
    Accepts fs ⟨forms, stack, .fields p r⟩ pos (key ++ (before ++ ':' :: (after ++ cs))) := by
  obtain ⟨c, rest, rfl, hc, hrest⟩ := hkey
  have htake : ∀ pos, (⟨forms, stack, .fields p r⟩ : State).take pos c =
      .ok ⟨forms, stack, .key p r [c]⟩ := by
    intro pos
    simp only [State.take, beginKey, hc]
  have hnext : ((before ++ ':' :: (after ++ cs)).head?.elim .endOfText ofChar).continuesKey =
      false := by
    cases before with
    | nil =>
      show (ofChar ':').continuesKey = false
      decide
    | cons b before =>
      rw [List.cons_append, List.head?_cons, Option.elim_some, hbefore b List.mem_cons_self]
      rfl
  rw [List.cons_append]
  refine accepts_of_step rfl fun pos => ⟨_, htake pos, fun pos => ?_⟩
  refine accepts_append (feed_key hrest) ?_
  rw [accepts_congr (settle_key hnext)]
  refine accepts_append (feed_blanks hbefore fun pos c => colon_of_blank) ?_
  refine accepts_of_step (t := ⟨forms, stack, .colon p r _⟩) rfl fun pos => ⟨_, rfl, fun pos => ?_⟩
  refine accepts_append (feed_blanks hafter fun pos c => blank_of_blank) ?_
  simpa using h _

end

/-! ## Completeness -/

/-- What the machine collects forms in, one after the other: the outermost level or a pair of
parentheses. -/
def Collects : List Open → Bool
  | .field .. :: _ => false
  | _ => true

/-- How the machine comes through a phrase: if it ends well after the phrase has been read, it ends
well. -/
def Passes (fs : List Form) (room : Nat) (cs rest : List Char) : Phrase → Prop
  | .form quoted f => ∀ forms stack s, Starts forms stack quoted s →
      room + stack.length ≤ maxNesting →
      (∀ pos, Accepts fs ((⟨forms, stack, .blank⟩ : State).deliver f) pos rest) →
      ∀ pos, Accepts fs s pos cs
  | .forms quoted items => ∀ s : State, s.mode = .blank → inList s.stack = quoted →
      Collects s.stack = true → room + s.stack.length ≤ maxNesting →
      (∀ pos, Accepts fs (items.foldl State.deliver s) pos rest) → ∀ pos, Accepts fs s pos cs
  | .fields entries => ∀ forms stack p r, room + (stack.length + 1) ≤ maxNesting →
      (∀ pos, Accepts fs
        ⟨forms, stack, .fields p (entries.foldl (fun r (k, v) => Record.insert k v r) r)⟩ pos rest) →
      ∀ pos, Accepts fs ⟨forms, stack, .fields p r⟩ pos cs

section

variable {forms : List Form} {stack : List Open} {quoted : Bool}

theorem deliver_opened (p : Nat) (items : List Form) (f : Form) :
    (⟨forms, opened quoted p items :: stack, .blank⟩ : State).deliver f =
      ⟨forms, opened quoted p (f :: items) :: stack, .blank⟩ := by
  cases quoted <;> rfl

theorem foldl_deliver_opened (p : Nat) (items gs : List Form) :
    gs.foldl State.deliver ⟨forms, opened quoted p items :: stack, .blank⟩ =
      ⟨forms, opened quoted p (gs.reverse ++ items) :: stack, .blank⟩ := by
  induction gs generalizing items with
  | nil => rfl
  | cons g gs ih =>
    rw [List.foldl_cons, deliver_opened, ih]
    simp

theorem foldl_deliver_nil (gs : List Form) :
    gs.foldl State.deliver ⟨forms, [], .blank⟩ = ⟨gs.reverse ++ forms, [], .blank⟩ := by
  induction gs generalizing forms with
  | nil => rfl
  | cons g gs ih =>
    rw [List.foldl_cons]
    show gs.foldl State.deliver ⟨g :: forms, [], .blank⟩ = _
    rw [ih]
    simp

theorem inList_opened (p : Nat) (items : List Form) :
    inList (opened quoted p items :: stack) = quoted := by
  cases quoted <;> rfl

theorem collects_opened (p : Nat) (items : List Form) :
    Collects (opened quoted p items :: stack) = true := by
  cases quoted <;> rfl

/-- The closing parenthesis of a group. -/
theorem take_closeParen (p : Nat) (items : List Form) :
    (⟨forms, opened quoted p items :: stack, .blank⟩ : State).take pos ')' =
      .ok ((⟨forms, stack, .blank⟩ : State).deliver (group quoted items.reverse)) := by
  cases quoted <;> rfl

theorem nest_eq_ok (h : s.stack.length < maxNesting) (start : Nat) :
    s.nest start t = .ok t :=
  if_pos h

theorem passes_paren {room : Nat} {items : List Form}
    (ih : Passes fs room cs (')' :: rest) (.forms quoted items)) :
    Passes fs (room + 1) ('(' :: cs) rest (.form quoted (group quoted items)) := by
  intro forms stack s hs hroom hf pos
  refine accepts_of_step (hs.settle (by decide)) fun pos => ?_
  obtain ⟨start, htake⟩ := hs.take_openParen (c := '(') pos (by decide)
  rw [htake, nest_eq_ok (by rw [hs.stack_eq]; omega) start]
  refine ⟨_, rfl, ih _ rfl (inList_opened ..) (collects_opened ..) (by grind) ?_⟩
  intro pos
  rw [foldl_deliver_opened]
  refine accepts_of_step (settle_form (by decide)) fun pos => ⟨_, take_closeParen .., ?_⟩
  simpa using hf

theorem take_fields_blank {p : Nat} {r : Record Form} (hc : ofChar c = .blank) :
    (⟨forms, stack, .fields p r⟩ : State).take pos c = .ok ⟨forms, stack, .fields p r⟩ := by
  simp only [State.take, beginKey, hc]

/-- The closing brace of a struct. -/
theorem take_closeBrace {p : Nat} {r : Record Form} :
    (⟨forms, stack, .fields p r⟩ : State).take pos '\x7d' =
      .ok ((⟨forms, stack, .blank⟩ : State).deliver (.struct r)) :=
  congrArg Except.ok (deliver_mode ..)

theorem passes_struct {room : Nat} {entries : List (String × Form)}
    (ih : Passes fs room cs ('\x7d' :: rest) (.fields entries)) :
    Passes fs (room + 1) ('\x7b' :: cs) rest
      (.form false (.struct (Record.ofEntries entries))) := by
  intro forms stack s hs hroom hf pos
  obtain ⟨hlist, rfl⟩ := hs.inList_eq rfl
  have htake : ∀ pos, (⟨forms, stack, .blank⟩ : State).take pos '\x7b' =
      .ok ⟨forms, stack, .fields pos []⟩ := by
    intro pos
    rw [take_form (atForm_of_inList hlist)]
    have hlength : stack.length < maxNesting := by omega
    exact nest_eq_ok hlength pos
  refine accepts_of_step (settle_form (by decide)) fun pos => ⟨_, htake pos, ?_⟩
  refine ih forms stack pos [] (by omega) fun pos => ?_
  exact accepts_of_step rfl fun pos => ⟨_, take_closeBrace, hf⟩

theorem passes_blank {room : Nat} {items : List Form} (hc : ofChar c = .blank)
    (ih : Passes fs room cs rest (.forms quoted items)) :
    Passes fs room (c :: cs) rest (.forms quoted items) := by
  rintro ⟨forms, stack, mode⟩ rfl hlist hcollects hroom hrest pos
  exact accepts_of_step (settle_form (by rw [hc]; decide)) fun pos =>
    ⟨_, take_blank hc, ih _ rfl hlist hcollects hroom hrest⟩

theorem collects_deliver {f : Form} (hcollects : Collects s.stack = true) :
    (s.deliver f).mode = .blank ∧ inList (s.deliver f).stack = inList s.stack ∧
      Collects (s.deliver f).stack = true ∧ (s.deliver f).stack.length = s.stack.length := by
  obtain ⟨forms, stack, mode⟩ := s
  match stack with
  | [] => exact ⟨rfl, rfl, rfl, rfl⟩
  | .expr .. :: _ => exact ⟨rfl, rfl, rfl, rfl⟩
  | .list .. :: _ => exact ⟨rfl, rfl, rfl, rfl⟩
  | .field .. :: _ => cases hcollects

theorem passes_cons {room : Nat} {f : Form} {items : List Form}
    (ihf : Passes fs room cs ds (.form quoted f))
    (ihfs : Passes fs room ds rest (.forms quoted items)) :
    Passes fs room cs rest (.forms quoted (f :: items)) := by
  rintro ⟨forms, stack, mode⟩ rfl hlist hcollects hroom hrest
  obtain ⟨hmode, hlist', hcollects', hlength⟩ := collects_deliver (f := f) hcollects
  refine ihf forms stack _ (.of_inList hlist) hroom ?_
  exact ihfs _ hmode (hlist'.trans hlist) hcollects' (by rwa [hlength]) hrest

/-- How the machine comes through whatever the grammar derives. -/
theorem Derives.passes {room : Nat} {phrase : Phrase} (h : Derives room cs rest phrase) :
    Passes fs room cs rest phrase := by
  induction h with
  | number quoted hcs hrest =>
    intro forms stack s hs _ hf pos
    exact accepts_number hs hcs hrest hf
  | name hcs hrest =>
    intro forms stack s hs _ hf pos
    obtain ⟨hlist, rfl⟩ := hs.inList_eq rfl
    exact accepts_name hlist hcs hrest hf
  | string quoted hcs =>
    intro forms stack s hs _ hf pos
    exact accepts_string hs hcs hf
  | word hcs hrest =>
    intro forms stack s hs _ hf pos
    exact accepts_word hs hcs hrest hf
  | quote h ih =>
    intro forms stack s hs hroom hf pos
    obtain ⟨hlist, rfl⟩ := hs.inList_eq rfl
    refine accepts_of_step (settle_form (by decide)) fun pos => ⟨⟨forms, stack, .tick pos⟩, ?_, ?_⟩
    · rw [take_form (atForm_of_inList hlist)]
      rfl
    · exact ih forms stack _ (.tick pos) hroom hf
  | paren h ih => exact passes_paren ih
  | struct h ih => exact passes_struct ih
  | nil quoted =>
    intro s _ _ _ _ hrest
    exact hrest
  | blank hc h ih => exact passes_blank hc ih
  | cons hf hfs ihf ihfs => exact passes_cons ihf ihfs
  | noFields =>
    intro forms stack p r _ hrest
    exact hrest
  | fieldsBlank hc h ih =>
    intro forms stack p r hroom hrest pos
    exact accepts_of_step rfl fun pos => ⟨_, take_fields_blank hc, ih forms stack p r hroom hrest⟩
  | field hkey hbefore hafter hf hfs ihf ihfs =>
    intro forms stack p r hroom hrest pos
    refine accepts_key hkey hbefore hafter ?_
    refine ihf forms _ _ (.of_inList rfl) hroom ?_
    exact ihfs forms stack p _ hroom hrest

/-- Every source that the grammar derives is read. -/
theorem accepts_of_derives {items : List Form} (h : Derives maxNesting cs [] (.forms false items)) :
    Accepts items {} 0 cs := by
  refine h.passes {} rfl rfl rfl (Nat.le_refl _) (fun pos => ?_) 0
  rw [foldl_deliver_nil]
  exact ⟨⟨items.reverse ++ [], [], .blank⟩, rfl, rfl, by simp⟩

end

end Lisplet.Grammar
