import Lisplet.Proofs.Continuation
import Lisplet.Proofs.Readable

/-!
# Feeding the machine

What the machine makes of a piece of text, lexeme by lexeme. A lexeme that nothing has ended yet
leaves the machine in a state of its own, but as soon as a blank, a bracket or the end of the text
is looked at, the state is as good as the one in which the lexeme has been delivered. This is all
that the text after a lexeme can tell, so pieces of text can be put together.
-/

namespace Lisplet.Reader

open CharClass

namespace State

def feed (s : State) (pos : Nat) : List Char → Except Fault State
  | [] => .ok s
  | c :: cs => do
    let s ← s.settle (some c)
    let s ← s.take pos c
    s.feed (pos + 1) cs

/-- Two states that are alike from the next blank, bracket or end of the text on. -/
def Meets (s t : State) : Prop :=
  ∀ next : Option Char, (next.elim .endOfText ofChar).endsNumber = true →
    s.settle next = t.settle next

/-- The text takes one state to another, as far as the text after it can tell. -/
def Reads (s : State) (cs : List Char) (t : State) : Prop :=
  ∀ pos, ∃ u, s.feed pos cs = .ok u ∧ u.Meets t

end State

open State

variable {s t u : State} {pos : Nat} {c : Char} {cs ds : List Char}

theorem feed_cons (hsettle : s.settle (some c) = .ok t) (htake : t.take pos c = .ok u) :
    s.feed pos (c :: cs) = u.feed (pos + 1) cs := by
  simp only [feed, hsettle, bind, Except.bind, htake]

theorem feed_append (h : s.feed pos cs = .ok t) :
    s.feed pos (cs ++ ds) = t.feed (pos + cs.length) ds := by
  induction cs generalizing s pos with
  | nil =>
    cases h
    rfl
  | cons c cs ih =>
    cases hs : s.settle (some c) with
    | error f =>
      simp only [feed, hs, bind, Except.bind] at h
      cases h
    | ok v =>
      cases hv : v.take pos c with
      | error f =>
        simp only [feed, hs, bind, Except.bind, hv] at h
        cases h
      | ok w =>
        rw [feed_cons hs hv] at h
        rw [List.cons_append, feed_cons hs hv, ih h, List.length_cons]
        congr 1
        omega

/-- A run goes through all characters, and then it looks at the end of the text. -/
theorem outcome_run_of_feed {before : List Char} (h : s.feed pos cs = .ok t) :
    (run false s before pos cs).outcome = t.settle none := by
  induction cs generalizing s pos before with
  | nil =>
    cases h
    rfl
  | cons c cs ih =>
    cases hs : s.settle (some c) with
    | error f =>
      simp only [feed, hs, bind, Except.bind] at h
      cases h
    | ok v =>
      cases hv : v.take pos c with
      | error f =>
        simp only [feed, hs, bind, Except.bind, hv] at h
        cases h
      | ok w =>
        rw [feed_cons hs hv] at h
        rw [run, hs]
        simp only [Bool.false_and, Bool.false_eq_true, if_false, hv]
        exact ih h

/-! ## Putting pieces together -/

theorem State.Meets.refl (s : State) : s.Meets s :=
  fun _ _ => rfl

theorem State.Meets.feed_cons (h : s.Meets t) (hc : (ofChar c).endsNumber = true) :
    s.feed pos (c :: cs) = t.feed pos (c :: cs) := by
  simp only [feed, h (some c) hc]

theorem reads_nil (s : State) : s.Reads [] s :=
  fun _ => ⟨s, rfl, .refl s⟩

theorem reads_of_feed (h : ∀ pos, s.feed pos cs = .ok t) : s.Reads cs t :=
  fun pos => ⟨t, h pos, .refl t⟩

/-- A character, and then what the state it leads to reads. -/
theorem reads_cons (hsettle : s.settle (some c) = .ok s)
    (htake : ∀ pos, ∃ v, s.take pos c = .ok v ∧ v.Reads cs t) : s.Reads (c :: cs) t := by
  intro pos
  obtain ⟨v, hv, hreads⟩ := htake pos
  obtain ⟨u, hu, hmeets⟩ := hreads (pos + 1)
  exact ⟨u, (Reader.feed_cons hsettle hv).trans hu, hmeets⟩

/-- Whether a text, if it is not empty, begins by ending what is before it. -/
def Breaks (cs : List Char) : Prop :=
  ∀ c, cs.head? = some c → (ofChar c).endsNumber = true

/-- What ends the piece before is read from the state that the piece leads to. -/
theorem State.Reads.append (h : s.Reads cs t) (hbreaks : Breaks ds) (hrest : t.Reads ds u) :
    s.Reads (cs ++ ds) u := by
  intro pos
  obtain ⟨v, hv, hmeets⟩ := h pos
  obtain ⟨w, hw, hu⟩ := hrest (pos + cs.length)
  cases ds with
  | nil =>
    cases hw
    refine ⟨v, by rw [List.append_nil, hv], ?_⟩
    exact fun next hnext => (hmeets next hnext).trans (hu next hnext)
  | cons d ds =>
    refine ⟨w, ?_, hu⟩
    rw [feed_append hv, hmeets.feed_cons (hbreaks d rfl), hw]

/-! ## Settled states -/

theorem deliver_mode (forms : List Form) (stack : List Open) (m : Mode) (f : Form) :
    (⟨forms, stack, m⟩ : State).deliver f = (⟨forms, stack, .blank⟩ : State).deliver f := by
  cases stack with
  | nil => rfl
  | cons top stack => cases top <;> rfl

theorem settle_of_rests_mode {next : Option Char} (h : s.mode.rests = true) :
    s.settle next = s.refuse next := by
  obtain ⟨forms, stack, mode⟩ := s
  cases mode with
  | blank | string | tick | fields | colon => rfl
  | _ => cases h

/-- Where a form is expected, any character is looked at in peace but a brace that would close a
struct before the value of its field. -/
theorem settle_form {forms : List Form} {stack : List Open} (hc : ofChar c ≠ .closeBrace) :
    (⟨forms, stack, .blank⟩ : State).settle (some c) = .ok ⟨forms, stack, .blank⟩ := by
  rw [settle_of_rests_mode rfl]
  cases stack with
  | nil => rfl
  | cons top stack =>
    cases top with
    | field p fields key =>
      show (if ofChar c = .closeBrace then _ else _) = _
      rw [if_neg hc]
    | _ => rfl

theorem settle_string {forms : List Form} {stack : List Open} {p : Nat} {text : List Char}
    {escaped : Bool} :
    (⟨forms, stack, .string p text escaped⟩ : State).settle (some c) =
      .ok ⟨forms, stack, .string p text escaped⟩ :=
  rfl

section

variable {forms : List Form} {stack : List Open} {p : Nat} {text : List Char} {f : Form}

/-! ## Numbers -/

theorem settle_number {point : Bool} (hc : (ofChar c).endsNumber = false) :
    (⟨forms, stack, .number p point text⟩ : State).settle (some c) =
      .ok ⟨forms, stack, .number p point text⟩ := by
  simp only [settle, Option.elim_some, decideMinus, endLexeme, hc, Bool.false_eq_true, if_false]
  rfl

theorem meets_number {point : Bool} (h : numberForm? point text.reverse = some f) :
    (⟨forms, stack, .number p point text⟩ : State).Meets
      ((⟨forms, stack, .blank⟩ : State).deliver f) := by
  intro next hnext
  rw [settle_of_rests_mode (rests_deliver _ f)]
  simp only [settle, decideMinus, endLexeme, hnext, if_true, h,
    deliver_mode forms stack (.number ..)]

-- By induction on the digits that are still to come.
theorem feed_digits {point : Bool} (hcs : ∀ c ∈ cs, ofChar c = .digit) :
    (⟨forms, stack, .number p point text⟩ : State).feed pos cs =
      .ok ⟨forms, stack, .number p point (cs.reverse ++ text)⟩ := by
  induction cs generalizing pos text with
  | nil => rfl
  | cons c cs ih =>
    have hc := hcs c List.mem_cons_self
    have htake : (⟨forms, stack, .number p point text⟩ : State).take pos c =
        .ok ⟨forms, stack, .number p point (c :: text)⟩ := by
      simp only [take, hc]
    rw [feed_cons (settle_number (by rw [hc]; rfl)) htake,
      ih fun d hd => hcs d (List.mem_cons_of_mem _ hd)]
    simp

/-! ## Symbols and words -/

theorem not_continuesSymbol_of_endsNumber {k : CharClass} (h : k.endsNumber = true) :
    k.continuesSymbol = false := by
  cases k <;> first | rfl | cases h

theorem not_digit_of_endsNumber {k : CharClass} (h : k.endsNumber = true) : k ≠ .digit := by
  rintro rfl
  cases h

/-- A name is as long as it can be, so what ends it need not be a blank or a bracket. -/
theorem settle_symbol {next : Option Char}
    (hnext : (next.elim .endOfText ofChar).continuesSymbol = false)
    (h : symbolForm? text.reverse = some f) :
    (⟨forms, stack, .symbol p text⟩ : State).settle next =
      ((⟨forms, stack, .blank⟩ : State).deliver f).settle next := by
  rw [settle_of_rests_mode (rests_deliver _ f)]
  simp only [settle, decideMinus, endLexeme, hnext, Bool.false_eq_true, if_false, h,
    deliver_mode forms stack (.symbol ..)]

theorem feed_symbol (hcs : ∀ c ∈ cs, (ofChar c).continuesSymbol = true) :
    (⟨forms, stack, .symbol p text⟩ : State).feed pos cs =
      .ok ⟨forms, stack, .symbol p (cs.reverse ++ text)⟩ := by
  induction cs generalizing pos text with
  | nil => rfl
  | cons c cs ih =>
    have hc := hcs c List.mem_cons_self
    have hsettle : (⟨forms, stack, .symbol p text⟩ : State).settle (some c) =
        .ok ⟨forms, stack, .symbol p text⟩ := by
      simp only [settle, Option.elim_some, decideMinus, endLexeme, hc, if_true]
      rfl
    rw [feed_cons hsettle rfl, ih fun d hd => hcs d (List.mem_cons_of_mem _ hd)]
    simp

theorem meets_word :
    (⟨forms, stack, .word text⟩ : State).Meets
      ((⟨forms, stack, .blank⟩ : State).deliver (.str (String.ofList text.reverse))) := by
  intro next hnext
  rw [settle_of_rests_mode (rests_deliver _ _)]
  simp only [settle, decideMinus, endLexeme, hnext, if_true, deliver_mode forms stack (.word ..)]

theorem feed_word (hcs : ∀ c ∈ cs, (ofChar c).endsNumber = false) :
    (⟨forms, stack, .word text⟩ : State).feed pos cs =
      .ok ⟨forms, stack, .word (cs.reverse ++ text)⟩ := by
  induction cs generalizing pos text with
  | nil => rfl
  | cons c cs ih =>
    have hc := hcs c List.mem_cons_self
    have hsettle : (⟨forms, stack, .word text⟩ : State).settle (some c) =
        .ok ⟨forms, stack, .word text⟩ := by
      simp only [settle, Option.elim_some, decideMinus, endLexeme, hc, Bool.false_eq_true, if_false]
      rfl
    rw [feed_cons hsettle rfl, ih fun d hd => hcs d (List.mem_cons_of_mem _ hd)]
    simp

/-! ## After a minus -/

/-- A minus before a digit is the sign of a number. -/
theorem settle_minus_digit {quoted : Bool} (hc : ofChar c = .digit) :
    (⟨forms, stack, .minus p quoted⟩ : State).settle (some c) =
      .ok ⟨forms, stack, .number p false ['-']⟩ := by
  simp only [settle, Option.elim_some, decideMinus, hc, if_true]
  rfl

/-- Any other minus begins a symbol, or a word. -/
theorem settle_minus {quoted : Bool} {next : Option Char}
    (h : next.elim .endOfText ofChar ≠ .digit) :
    (⟨forms, stack, .minus p quoted⟩ : State).settle next =
      (⟨forms, stack, if quoted then .word ['-'] else .symbol p ['-']⟩ : State).settle next := by
  cases quoted <;> simp only [settle, decideMinus, h, if_false, if_true, Bool.false_eq_true]

/-! ## Strings -/

theorem unescape_of_escape : ∀ c : Char,
    Text.escape c = [c] ∧ c ≠ '\x22' ∧ c ≠ '\\' ∨
      ∃ d, Text.escape c = ['\\', d] ∧ Text.unescape d = c := by
  intro c
  unfold Text.escape
  split
  next h => exact .inr ⟨'\x22', rfl, by rw [h]; decide⟩
  next hquote =>
    split
    next h => exact .inr ⟨'\\', rfl, by rw [h]; decide⟩
    next hslash =>
      split
      next h => exact .inr ⟨'n', rfl, by rw [h]; decide⟩
      next =>
        split
        next h => exact .inr ⟨'t', rfl, by rw [h]; decide⟩
        next => exact .inl ⟨rfl, hquote, hslash⟩

theorem feed_escape (c : Char) :
    (⟨forms, stack, .string p text false⟩ : State).feed pos (Text.escape c) =
      .ok ⟨forms, stack, .string p (c :: text) false⟩ := by
  obtain ⟨hescape, hquote, hslash⟩ | ⟨d, hescape, hd⟩ := unescape_of_escape c
  · have htake : (⟨forms, stack, .string p text false⟩ : State).take pos c =
        .ok ⟨forms, stack, .string p (c :: text) false⟩ := by
      simp only [take, Bool.false_eq_true, if_false, hquote, hslash]
    rw [hescape, feed_cons settle_string htake]
    rfl
  · have hslash : (⟨forms, stack, .string p text false⟩ : State).take pos '\\' =
        .ok ⟨forms, stack, .string p text true⟩ := by
      rfl
    have htake : (⟨forms, stack, .string p text true⟩ : State).take (pos + 1) d =
        .ok ⟨forms, stack, .string p (c :: text) false⟩ := by
      simp only [take, if_true, hd]
    rw [hescape, feed_cons settle_string hslash, feed_cons settle_string htake]
    rfl

theorem feed_escapes (cs : List Char) :
    (⟨forms, stack, .string p text false⟩ : State).feed pos (cs.flatMap Text.escape) =
      .ok ⟨forms, stack, .string p (cs.reverse ++ text) false⟩ := by
  induction cs generalizing pos text with
  | nil => rfl
  | cons c cs ih =>
    rw [List.flatMap_cons, feed_append (feed_escape c), ih]
    simp

/-- The rest of a string, after its opening quote. -/
theorem feed_string (cs : List Char) :
    (⟨forms, stack, .string p [] false⟩ : State).feed pos (cs.flatMap Text.escape ++ ['\x22']) =
      .ok ((⟨forms, stack, .blank⟩ : State).deliver (.str (String.ofList cs))) := by
  have htake : (⟨forms, stack, .string p (cs.reverse ++ []) false⟩ : State).take
      (pos + (cs.flatMap Text.escape).length) '\x22' =
      .ok ((⟨forms, stack, .blank⟩ : State).deliver (.str (String.ofList cs))) := by
    simp only [take, Bool.false_eq_true, if_false, if_true, List.append_nil, List.reverse_reverse,
      deliver_mode forms stack (.string ..)]
  rw [feed_append (feed_escapes cs), feed_cons settle_string htake]
  rfl

end

/-! ## Digits -/

theorem ofChar_of_isDigit (h : c.isDigit = true) : ofChar c = .digit := by
  have hne : ∀ d : Char, d.isDigit = false → c ≠ d := by
    rintro d hd rfl
    rw [h] at hd
    cases hd
  have hrange : 48 ≤ c.toNat ∧ c.toNat ≤ 57 := by
    simpa [Char.isDigit, UInt32.le_iff_toNat_le] using h
  have hblank : ¬ Text.isBlank c = true := by
    simp only [Text.isBlank, Bool.or_eq_true, Bool.and_eq_true, decide_eq_true_eq, beq_iff_eq]
    omega
  unfold ofChar
  rw [if_neg (hne '(' rfl), if_neg (hne ')' rfl), if_neg (hne '\x7b' rfl), if_neg (hne '\x7d' rfl),
    if_neg (hne '\x27' rfl), if_neg (hne '\x22' rfl), if_neg (hne '.' rfl), if_neg hblank, if_pos h]

theorem ofChar_of_mem_toDigits {n : Nat} (h : c ∈ Nat.toDigits 10 n) : ofChar c = .digit :=
  ofChar_of_isDigit (Nat.isDigit_of_mem_toDigits (by decide) (by decide) h)

theorem natOfText?_toDigits (n : Nat) : Integer.natOfText? (Nat.toDigits 10 n) = some n := by
  have hne : (Nat.toDigits 10 n).isEmpty = false := by
    rw [List.isEmpty_eq_false_iff]
    exact Nat.toDigits_ne_nil
  have hall : (Nat.toDigits 10 n).all Char.isDigit = true := by
    rw [List.all_eq_true]
    exact fun c hc => Nat.isDigit_of_mem_toDigits (by decide) (by decide) hc
  unfold Integer.natOfText?
  rw [hne, hall, Number.ofDigits_eq, Nat.ofDigitChars_ten_toDigits]
  rfl

/-- Every word is read back from its decimal text, the least and the greatest one too. -/
theorem ofText?_digits (n : Int64) : Integer.ofText? (Integer.digits n.toInt) = some n := by
  by_cases hneg : n.toInt < 0
  · have habs : -(n.toInt.natAbs : Int) = n.toInt := by omega
    rw [Integer.digits, if_pos hneg]
    show (Integer.natOfText? (Nat.toDigits 10 n.toInt.natAbs)).bind _ = _
    rw [natOfText?_toDigits, Option.bind_some, habs, Integer.ofInt?_toInt]
  · have habs : (n.toInt.natAbs : Int) = n.toInt := by omega
    have hdigit := fun c => @ofChar_of_mem_toDigits c n.toInt.natAbs
    rw [Integer.digits, if_neg hneg]
    cases hcs : Nat.toDigits 10 n.toInt.natAbs with
    | nil => exact absurd hcs Nat.toDigits_ne_nil
    | cons c cs =>
      have hc := hdigit c (by rw [hcs]; exact List.mem_cons_self)
      have hplus : c ≠ '+' := by
        rintro rfl
        revert hc
        decide
      have hminus : c ≠ '-' := by
        rintro rfl
        revert hc
        decide
      have hbranch : Integer.ofText? (c :: cs) =
          (Integer.natOfText? (c :: cs)).bind fun n => Integer.ofInt? n := by
        unfold Integer.ofText?
        split <;> simp_all
      rw [hbranch, ← hcs, natOfText?_toDigits, Option.bind_some, habs, Integer.ofInt?_toInt]

/-! ## Lexemes where they are expected -/

section

variable {forms : List Form} {stack : List Open}

/-- The decimal text of a word, from any state in which a number can begin. -/
theorem reads_digits (quoted : Bool) (n : Int64)
    (hsettle : ∀ c, ofChar c = .digit ∨ c = '-' → s.settle (some c) = .ok s)
    (hdigit : ∀ pos c, ofChar c = .digit →
      s.take pos c = .ok ⟨forms, stack, .number pos false [c]⟩)
    (hminus : ∀ pos, s.take pos '-' = .ok ⟨forms, stack, .minus pos quoted⟩) :
    s.Reads (Integer.digits n.toInt) ((⟨forms, stack, .blank⟩ : State).deliver (.int n)) := by
  have hform : ∀ text : List Char, text.reverse = Integer.digits n.toInt →
      numberForm? false text.reverse = some (.int n) := by
    intro text htext
    rw [htext]
    simp only [numberForm?, Bool.false_eq_true, if_false, ofText?_digits, Option.map_some]
  have hmem := fun c => @ofChar_of_mem_toDigits c n.toInt.natAbs
  intro pos
  cases hcs : Nat.toDigits 10 n.toInt.natAbs with
  | nil => exact absurd hcs Nat.toDigits_ne_nil
  | cons c cs =>
    have hc := hmem c (by rw [hcs]; exact List.mem_cons_self)
    have hrest : ∀ d ∈ cs, ofChar d = .digit := by
      intro d hd
      exact hmem d (by rw [hcs]; exact List.mem_cons_of_mem _ hd)
    by_cases hneg : n.toInt < 0
    · have hdigits : Integer.digits n.toInt = '-' :: c :: cs := by
        rw [Integer.digits, if_pos hneg, hcs]
      refine ⟨⟨forms, stack, .number pos false (cs.reverse ++ [c, '-'])⟩, ?_, ?_⟩
      · have htake : (⟨forms, stack, .number pos false ['-']⟩ : State).take (pos + 1) c =
            .ok ⟨forms, stack, .number pos false [c, '-']⟩ := by
          simp only [take, hc]
        rw [hdigits, feed_cons (hsettle '-' (.inr rfl)) (hminus pos),
          feed_cons (settle_minus_digit hc) htake, feed_digits hrest]
      · exact meets_number (hform _ (by simp [hdigits]))
    · have hdigits : Integer.digits n.toInt = c :: cs := by
        rw [Integer.digits, if_neg hneg, hcs]
      refine ⟨⟨forms, stack, .number pos false (cs.reverse ++ [c])⟩, ?_, ?_⟩
      · rw [hdigits, feed_cons (hsettle c (.inl hc)) (hdigit pos c hc), feed_digits hrest]
      · exact meets_number (hform _ (by simp [hdigits]))

/-- The stacks on top of which a form is read as program text. -/
def AtForm (stack : List Open) : Prop :=
  ∀ p items rest, stack ≠ .list p items :: rest

theorem take_form (h : AtForm stack) :
    (⟨forms, stack, .blank⟩ : State).take pos c =
      (⟨forms, stack, .blank⟩ : State).beginForm pos c := by
  cases stack with
  | nil => rfl
  | cons top rest =>
    cases top with
    | list p items => exact absurd rfl (h p items rest)
    | _ => rfl

theorem reads_int_form (h : AtForm stack) (n : Int64) :
    (⟨forms, stack, .blank⟩ : State).Reads (Integer.text n).toList
      ((⟨forms, stack, .blank⟩ : State).deliver (.int n)) := by
  rw [Integer.text, String.toList_ofList]
  refine reads_digits false n ?_ ?_ ?_
  · rintro c (hc | rfl)
    · exact settle_form (by rw [hc]; decide)
    · exact settle_form (by decide)
  · intro pos c hc
    rw [take_form h]
    simp only [beginForm, hc]
  · intro pos
    rw [take_form h]
    rfl

/-- A string, from any state in which one can begin. -/
theorem reads_quote (text : String) (hsettle : s.settle (some '\x22') = .ok s)
    (htake : ∀ pos, s.take pos '\x22' = .ok ⟨forms, stack, .string pos [] false⟩) :
    s.Reads (Text.quote text).toList
      ((⟨forms, stack, .blank⟩ : State).deliver (.str text)) := by
  rw [Text.quote, String.toList_ofList]
  apply reads_of_feed
  intro pos
  rw [List.cons_append, feed_cons hsettle (htake pos), feed_string, String.ofList_toList]

theorem reads_str_form (h : AtForm stack) (text : String) :
    (⟨forms, stack, .blank⟩ : State).Reads (Text.quote text).toList
      ((⟨forms, stack, .blank⟩ : State).deliver (.str text)) := by
  refine reads_quote text (settle_form (by decide)) ?_
  intro pos
  rw [take_form h]
  rfl

-- A name that begins with a minus is looked at once more, when the next character is there.
theorem feed_name (forms : List Form) (pos : Nat) (h : AtForm stack) (htext : SymbolText cs) :
    ∃ u, (⟨forms, stack, .blank⟩ : State).feed pos cs = .ok u ∧
      ∀ next, (next.elim .endOfText ofChar).continuesSymbol = false →
        u.settle next = (⟨forms, stack, .symbol pos cs.reverse⟩ : State).settle next := by
  obtain ⟨c, rest, rfl, hc, hrest⟩ := htext.head
  have hsettle : (⟨forms, stack, .blank⟩ : State).settle (some c) = .ok ⟨forms, stack, .blank⟩ :=
    settle_form (by rw [hc]; decide)
  have htake : (⟨forms, stack, .blank⟩ : State).take pos c =
      .ok ⟨forms, stack, if c = '-' then .minus pos false else .symbol pos [c]⟩ := by
    rw [take_form h]
    simp only [beginForm, hc]
  by_cases hminus : c = '-'
  · subst hminus
    cases rest with
    | nil =>
      refine ⟨⟨forms, stack, .minus pos false⟩, feed_cons hsettle htake, fun next hnext => ?_⟩
      have hdigit : next.elim .endOfText ofChar ≠ .digit := by
        intro heq
        rw [heq] at hnext
        cases hnext
      exact settle_minus hdigit
    | cons d rest =>
      have hd := hrest d List.mem_cons_self
      have hdigit : (some d).elim .endOfText ofChar ≠ .digit := htext.minus d rest rfl
      have hsymbol : (⟨forms, stack, .minus pos false⟩ : State).settle (some d) =
          .ok ⟨forms, stack, .symbol pos ['-']⟩ := by
        rw [settle_minus hdigit]
        simp only [settle, Option.elim_some, decideMinus, endLexeme, hd, if_true]
        rfl
      refine ⟨⟨forms, stack, .symbol pos (rest.reverse ++ [d, '-'])⟩, ?_, fun next _ => by simp⟩
      rw [feed_cons hsettle htake, if_pos rfl, feed_cons hsymbol rfl,
        feed_symbol fun x hx => hrest x (List.mem_cons_of_mem _ hx)]
  · refine ⟨⟨forms, stack, .symbol pos (rest.reverse ++ [c])⟩, ?_, fun next _ => by simp⟩
    rw [feed_cons hsettle htake, if_neg hminus, feed_symbol hrest]

theorem reads_name (h : AtForm stack) {f : Form} (htext : SymbolText cs)
    (hform : symbolForm? cs = some f) :
    (⟨forms, stack, .blank⟩ : State).Reads cs ((⟨forms, stack, .blank⟩ : State).deliver f) := by
  intro pos
  obtain ⟨u, hu, hsettle⟩ := feed_name forms pos h htext
  refine ⟨u, hu, fun next hnext => ?_⟩
  have hend := not_continuesSymbol_of_endsNumber hnext
  rw [hsettle next hend, settle_symbol hend (by rw [List.reverse_reverse]; exact hform)]

end

/-! ## Lexemes in quoted lists -/

section

variable {forms : List Form} {stack : List Open} {p : Nat} {items : List Form}

theorem take_item (hblank : ofChar c ≠ .blank) (hparen : ofChar c ≠ .closeParen)
    (hbrace : ofChar c ≠ .closeBrace) :
    (⟨forms, .list p items :: stack, .blank⟩ : State).take pos c =
      (⟨forms, .list p items :: stack, .blank⟩ : State).beginLiteral pos pos c := by
  show (⟨forms, .list p items :: stack, .blank⟩ : State).beginItem p items stack pos c = _
  unfold beginItem
  cases hc : ofChar c <;> simp_all

theorem reads_int_item (n : Int64) :
    (⟨forms, .list p items :: stack, .blank⟩ : State).Reads (Integer.text n).toList
      ((⟨forms, .list p items :: stack, .blank⟩ : State).deliver (.int n)) := by
  rw [Integer.text, String.toList_ofList]
  refine reads_digits true n ?_ ?_ ?_
  · rintro c (hc | rfl)
    · exact settle_form (by rw [hc]; decide)
    · exact settle_form (by decide)
  · intro pos c hc
    rw [take_item (by rw [hc]; decide) (by rw [hc]; decide) (by rw [hc]; decide)]
    simp only [beginLiteral, hc]
  · intro pos
    rfl

theorem reads_str_item (text : String) :
    (⟨forms, .list p items :: stack, .blank⟩ : State).Reads (Text.quote text).toList
      ((⟨forms, .list p items :: stack, .blank⟩ : State).deliver (.str text)) :=
  reads_quote text (settle_form (by decide)) fun _ => rfl

/-- In a quoted list the constant is a word like any other. -/
theorem reads_nil_item :
    (⟨forms, .list p items :: stack, .blank⟩ : State).Reads "Nil".toList
      ((⟨forms, .list p items :: stack, .blank⟩ : State).deliver (.str "Nil")) := by
  intro pos
  have hsettle : (⟨forms, .list p items :: stack, .blank⟩ : State).settle (some 'N') =
      .ok ⟨forms, .list p items :: stack, .blank⟩ := settle_form (by decide)
  have htake : (⟨forms, .list p items :: stack, .blank⟩ : State).take pos 'N' =
      .ok ⟨forms, .list p items :: stack, .word ['N']⟩ := by
    rfl
  have hrest : ∀ c ∈ ['i', 'l'], (ofChar c).endsNumber = false := by
    intro c hc
    rcases List.mem_cons.mp hc with rfl | hc
    · decide
    · rw [List.mem_singleton.mp hc]
      decide
  refine ⟨⟨forms, .list p items :: stack, .word ['l', 'i', 'N']⟩, ?_, meets_word⟩
  show State.feed _ pos ['N', 'i', 'l'] = _
  rw [feed_cons hsettle htake, feed_word hrest]
  rfl

end

end Lisplet.Reader
