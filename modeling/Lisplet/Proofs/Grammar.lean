import Lisplet.Proofs.Feeding

/-!
# The grammar of sources

What a source may look like, said without the machine that reads it. A phrase is derived from the
beginning of a text, and what the text has left after the phrase is part of the derivation: this is
how a phrase can ask for what comes after it. Lexemes are as long as they can be, since what comes
after one cannot continue it.

In a literal, which is what an apostrophe begins, the same characters mean something else: a name
is a word, and a parenthesis opens a list. `quoted` tells the two apart.
-/

namespace Lisplet.Grammar

open CharClass Reader

/-! ## Lexemes -/

def ahead (cs : List Char) : CharClass :=
  cs.head?.elim .endOfText ofChar

def Blanks (cs : List Char) : Prop :=
  ∀ c ∈ cs, ofChar c = .blank

def Digits (cs : List Char) : Prop :=
  ∀ c ∈ cs, ofChar c = .digit

def sign (negative : Bool) : List Char :=
  if negative then ['-'] else []

/-- The spelling of a number: an optional minus, some digits, and in a double a point and the digits
after it, if any. An integer has to fit. -/
inductive NumberText : List Char → Form → Prop
  | int (negative : Bool) {ds : List Char} {n : Int64} (hne : ds ≠ []) (hds : Digits ds)
      (hn : n.toInt = Double.signed negative (Nat.ofDigitChars 10 ds 0)) :
      NumberText (sign negative ++ ds) (.int n)
  | double (negative : Bool) {ds es : List Char} (hne : ds ≠ []) (hds : Digits ds)
      (hes : Digits es) :
      NumberText (sign negative ++ (ds ++ '.' :: es))
        (.double (Decimal.toDouble ⟨negative, Nat.ofDigitChars 10 (ds ++ es) 0, -es.length⟩))

/-- The spelling of a name: one of the two constants in any case, or a path without empty
segments. -/
inductive NameText : List Char → Form → Prop
  | nil {cs : List Char} (hcs : SymbolText cs) (h : cs.map Char.toLower = "nil".toList) :
      NameText cs .nil
  | true {cs : List Char} (hcs : SymbolText cs) (h : cs.map Char.toLower = "true".toList) :
      NameText cs .true
  | path {cs : List Char} (hcs : SymbolText cs) (hnil : cs.map Char.toLower ≠ "nil".toList)
      (htrue : cs.map Char.toLower ≠ "true".toList) (h : [] ∉ Text.pieces '.' cs) :
      NameText cs (.symbol (String.ofList cs))

/-- What stands between the quotes of a string, and the text that it means. -/
inductive StringText : List Char → List Char → Prop
  | nil : StringText [] []
  | plain {c : Char} {cs text : List Char} (hquote : c ≠ '\x22') (hslash : c ≠ '\\')
      (h : StringText cs text) : StringText (c :: cs) (c :: text)
  | escape (c : Char) {cs text : List Char} (h : StringText cs text) :
      StringText ('\\' :: c :: cs) (Text.unescape c :: text)

/-- The spelling of a quoted word: no blank and no bracket in it, and not the beginning of a number
or of a string. -/
structure WordText (cs : List Char) : Prop where
  head : ∃ c rest, cs = c :: rest ∧ ofChar c ≠ .digit ∧ ofChar c ≠ .quote
  minus : ∀ d rest, cs = '-' :: d :: rest → ofChar d ≠ .digit
  inside : ∀ c ∈ cs, (ofChar c).endsNumber = false

/-! ## Phrases -/

/-- What a piece of text can be read as. -/
inductive Phrase where
  | form (quoted : Bool) (f : Form)
  | forms (quoted : Bool) (fs : List Form)
  /-- The fields of a struct, as they are written. -/
  | fields (entries : List (String × Form))

def group (quoted : Bool) (fs : List Form) : Form :=
  if quoted then listForm fs else exprForm fs

/-- A phrase at the beginning of a text, with what is left of the text after it; `room` is how many
more brackets may be opened inside of each other. -/
inductive Derives : Nat → List Char → List Char → Phrase → Prop
  | number {room : Nat} {cs rest : List Char} {f : Form} (quoted : Bool) (hcs : NumberText cs f)
      (hrest : (ahead rest).endsNumber = true) : Derives room (cs ++ rest) rest (.form quoted f)
  | name {room : Nat} {cs rest : List Char} {f : Form} (hcs : NameText cs f)
      (hrest : (ahead rest).continuesSymbol = false) :
      Derives room (cs ++ rest) rest (.form false f)
  | string {room : Nat} {cs rest text : List Char} (quoted : Bool) (hcs : StringText cs text) :
      Derives room ('\x22' :: (cs ++ '\x22' :: rest)) rest (.form quoted (.str (String.ofList text)))
  | word {room : Nat} {cs rest : List Char} (hcs : WordText cs)
      (hrest : (ahead rest).endsNumber = true) :
      Derives room (cs ++ rest) rest (.form true (.str (String.ofList cs)))
  | quote {room : Nat} {cs rest : List Char} {f : Form} (h : Derives room cs rest (.form true f)) :
      Derives room ('\x27' :: cs) rest (.form false f)
  | paren {room : Nat} {cs rest : List Char} {quoted : Bool} {fs : List Form}
      (h : Derives room cs (')' :: rest) (.forms quoted fs)) :
      Derives (room + 1) ('(' :: cs) rest (.form quoted (group quoted fs))
  | struct {room : Nat} {cs rest : List Char} {entries : List (String × Form)}
      (h : Derives room cs ('\x7d' :: rest) (.fields entries)) :
      Derives (room + 1) ('\x7b' :: cs) rest (.form false (.struct (Record.ofEntries entries)))
  | nil {room : Nat} {rest : List Char} (quoted : Bool) : Derives room rest rest (.forms quoted [])
  | blank {room : Nat} {c : Char} {cs rest : List Char} {quoted : Bool} {fs : List Form}
      (hc : ofChar c = .blank) (h : Derives room cs rest (.forms quoted fs)) :
      Derives room (c :: cs) rest (.forms quoted fs)
  | cons {room : Nat} {cs ds rest : List Char} {quoted : Bool} {f : Form} {fs : List Form}
      (hf : Derives room cs ds (.form quoted f)) (hfs : Derives room ds rest (.forms quoted fs)) :
      Derives room cs rest (.forms quoted (f :: fs))
  | noFields {room : Nat} {rest : List Char} : Derives room rest rest (.fields [])
  | fieldsBlank {room : Nat} {c : Char} {cs rest : List Char} {entries : List (String × Form)}
      (hc : ofChar c = .blank) (h : Derives room cs rest (.fields entries)) :
      Derives room (c :: cs) rest (.fields entries)
  -- A blank or the colon cannot continue the key.
  | field {room : Nat} {key before after cs ds rest : List Char} {f : Form}
      {entries : List (String × Form)} (hkey : KeyText key) (hbefore : Blanks before)
      (hafter : Blanks after) (hf : Derives room cs ds (.form false f))
      (hfs : Derives room ds rest (.fields entries)) :
      Derives room (key ++ (before ++ ':' :: (after ++ cs))) rest
        (.fields ((String.ofList key, f) :: entries))

/-! ## Numbers as the machine reads them -/

/-- The punctuation mark of a class, for the classes that have only one character. -/
def mark : CharClass → Option Char
  | .openParen => some '('
  | .closeParen => some ')'
  | .openBrace => some '\x7b'
  | .closeBrace => some '\x7d'
  | .apostrophe => some '\x27'
  | .quote => some '\x22'
  | .dot => some '.'
  | _ => none

/-- A character is the mark of its class, or its class is none of those that have a mark. -/
theorem ofChar_cases (c : Char) :
    mark (ofChar c) = some c ∨ ofChar c = .blank ∨ (ofChar c = .digit ∧ c.isDigit = true) ∨
      ofChar c = .letter ∨ ofChar c = .unknown := by
  by_cases hmark : c ∈ ['(', ')', '\x7b', '\x7d', '\x27', '\x22', '.']
  · simp only [List.mem_cons, List.not_mem_nil, or_false] at hmark
    rcases hmark with rfl | rfl | rfl | rfl | rfl | rfl | rfl <;> exact .inl rfl
  · simp only [List.mem_cons, List.not_mem_nil, or_false, not_or] at hmark
    obtain ⟨h₁, h₂, h₃, h₄, h₅, h₆, h₇⟩ := hmark
    unfold ofChar
    rw [if_neg h₁, if_neg h₂, if_neg h₃, if_neg h₄, if_neg h₅, if_neg h₆, if_neg h₇]
    by_cases hblank : Text.isBlank c = true
    · rw [if_pos hblank]
      exact .inr (.inl rfl)
    rw [if_neg hblank]
    by_cases hdigit : c.isDigit = true
    · rw [if_pos hdigit]
      exact .inr (.inr (.inl ⟨rfl, hdigit⟩))
    rw [if_neg hdigit]
    by_cases hletter : (nameMarks.contains c || Text.isAlphabetic c) = true
    · rw [if_pos hletter]
      exact .inr (.inr (.inr (.inl rfl)))
    · rw [if_neg hletter]
      exact .inr (.inr (.inr (.inr rfl)))

theorem eq_of_mark {c d : Char} (h : mark (ofChar c) = some d) : c = d := by
  rcases ofChar_cases c with hmark | hc | ⟨hc, -⟩ | hc | hc
  · exact Option.some.inj (hmark.symm.trans h)
  all_goals
    rw [hc] at h
    cases h

theorem ofChar_ne_endOfText (c : Char) : ofChar c ≠ .endOfText := by
  intro heq
  rcases ofChar_cases c with h | h | ⟨h, -⟩ | h | h <;> rw [heq] at h <;> cases h

theorem isDigit_of_ofChar {c : Char} (h : ofChar c = .digit) : c.isDigit = true := by
  rcases ofChar_cases c with hc | hc | ⟨-, hdigit⟩ | hc | hc
  · rw [h] at hc
    cases hc
  · cases h.symm.trans hc
  · exact hdigit
  · cases h.symm.trans hc
  · cases h.symm.trans hc

theorem Digits.all {ds : List Char} (h : Digits ds) : ds.all Char.isDigit = true := by
  rw [List.all_eq_true]
  exact fun c hc => isDigit_of_ofChar (h c hc)

theorem Digits.snoc {ds : List Char} {c : Char} (h : Digits ds) (hc : ofChar c = .digit) :
    Digits (ds ++ [c]) := by
  intro d hd
  rcases List.mem_append.mp hd with hd | hd
  · exact h d hd
  · rw [List.mem_singleton.mp hd]
    exact hc

/-- A digit is neither of the two signs. -/
theorem ne_sign_of_digit {c : Char} (h : ofChar c = .digit) : c ≠ '+' ∧ c ≠ '-' := by
  constructor
  · rintro rfl
    revert h
    decide
  · rintro rfl
    revert h
    decide

theorem natOfText?_of_digits {ds : List Char} (hne : ds ≠ []) (hds : Digits ds) :
    Integer.natOfText? ds = some (Nat.ofDigitChars 10 ds 0) := by
  have hempty : ds.isEmpty = false := List.isEmpty_eq_false_iff.mpr hne
  simp only [Integer.natOfText?, hempty, hds.all, Number.ofDigits_eq]
  rfl

theorem integerOfText?_sign {ds : List Char} (negative : Bool) (hne : ds ≠ []) (hds : Digits ds) :
    Integer.ofText? (sign negative ++ ds) =
      Integer.ofInt? (Double.signed negative (Nat.ofDigitChars 10 ds 0)) := by
  cases negative with
  | true =>
    show (Integer.natOfText? ds).bind _ = _
    rw [natOfText?_of_digits hne hds]
    rfl
  | false =>
    obtain ⟨d, rest, rfl⟩ := List.exists_cons_of_ne_nil hne
    obtain ⟨hplus, hminus⟩ := ne_sign_of_digit (hds d List.mem_cons_self)
    have hbranch : Integer.ofText? (d :: rest) =
        (Integer.natOfText? (d :: rest)).bind fun n => Integer.ofInt? n := by
      unfold Integer.ofText?
      split <;> simp_all
    show Integer.ofText? (d :: rest) = _
    rw [hbranch, natOfText?_of_digits hne hds]
    rfl

theorem unsignedOfText?_point {ds es : List Char} (negative : Bool) (hne : ds ≠ [])
    (hds : Digits ds) (hes : Digits es) :
    Double.unsignedOfText? negative (ds ++ '.' :: es) =
      some (Decimal.toDouble ⟨negative, Nat.ofDigitChars 10 (ds ++ es) 0, -es.length⟩) := by
  have hpoint : '.' ∈ (ds ++ '.' :: es).map Char.toLower :=
    List.mem_map.mpr ⟨'.', List.mem_append_right _ List.mem_cons_self, rfl⟩
  have hname : ∀ name : List Char, '.' ∉ name → (ds ++ '.' :: es).map Char.toLower ≠ name :=
    fun name hmem heq => hmem (heq ▸ hpoint)
  have hwhole : (ds ++ '.' :: es).takeWhile Char.isDigit = ds := by
    rw [List.takeWhile_append_of_pos (List.all_eq_true.mp hds.all)]
    simp [Char.isDigit]
  have hrest : (ds ++ '.' :: es).dropWhile Char.isDigit = '.' :: es := by
    rw [List.dropWhile_append_of_pos (List.all_eq_true.mp hds.all)]
    simp [Char.isDigit]
  have hfraction : es.takeWhile Char.isDigit = es :=
    List.takeWhile_eq_self_iff.mpr (List.all_eq_true.mp hes.all)
  have hend : es.dropWhile Char.isDigit = [] :=
    List.dropWhile_eq_nil_iff.mpr (List.all_eq_true.mp hes.all)
  have hempty : ds.isEmpty = false := List.isEmpty_eq_false_iff.mpr hne
  have hinf := hname "inf".toList (by decide)
  have hinfinity := hname "infinity".toList (by decide)
  have hnan := hname "nan".toList (by decide)
  simp only [Double.unsignedOfText?, hinf, hinfinity, hnan, or_self, if_false, hwhole, hrest,
    hfraction, hend, hempty, Bool.false_and, Bool.false_eq_true, Double.exponentOf?,
    Option.map_some, Double.ofDigits, Number.ofDigits_eq, Int.zero_sub]

theorem doubleOfText?_sign {ds es : List Char} (negative : Bool) (hne : ds ≠ []) (hds : Digits ds)
    (hes : Digits es) :
    Double.ofText? (sign negative ++ (ds ++ '.' :: es)) =
      some (Decimal.toDouble ⟨negative, Nat.ofDigitChars 10 (ds ++ es) 0, -es.length⟩) := by
  cases negative with
  | true => exact unsignedOfText?_point true hne hds hes
  | false =>
    obtain ⟨d, rest, rfl⟩ := List.exists_cons_of_ne_nil hne
    obtain ⟨hplus, hminus⟩ := ne_sign_of_digit (hds d List.mem_cons_self)
    have hbranch : Double.ofText? (d :: (rest ++ '.' :: es)) =
        Double.unsignedOfText? false (d :: (rest ++ '.' :: es)) := by
      unfold Double.ofText?
      split <;> simp_all
    exact hbranch.trans (unsignedOfText?_point false hne hds hes)

/-- The beginning of a number, up to the last digit read; `point` if there is a point in it. -/
inductive NumberStart : Bool → List Char → Prop
  | whole (negative : Bool) {ds : List Char} (hne : ds ≠ []) (hds : Digits ds) :
      NumberStart false (sign negative ++ ds)
  | fraction (negative : Bool) {ds es : List Char} (hne : ds ≠ []) (hds : Digits ds)
      (hes : Digits es) : NumberStart true (sign negative ++ (ds ++ '.' :: es))

/-- What the machine makes of the characters of a number is what the grammar says. -/
theorem NumberStart.numberText {point : Bool} {cs : List Char} {f : Form}
    (h : NumberStart point cs) (hform : numberForm? point cs = some f) : NumberText cs f := by
  cases h with
  | whole negative hne hds =>
    simp only [numberForm?, Bool.false_eq_true, if_false, integerOfText?_sign negative hne hds,
      Option.map_eq_some_iff] at hform
    obtain ⟨n, hn, rfl⟩ := hform
    exact .int negative hne hds (Integer.toInt_of_ofInt? hn)
  | fraction negative hne hds hes =>
    simp only [numberForm?, if_true, doubleOfText?_sign negative hne hds hes,
      Option.map_some] at hform
    cases hform
    exact .double negative hne hds hes

theorem NumberText.start {cs : List Char} {f : Form} (h : NumberText cs f) :
    ∃ point, NumberStart point cs ∧ numberForm? point cs = some f := by
  cases h with
  | int negative hne hds hn =>
    refine ⟨false, .whole negative hne hds, ?_⟩
    simp only [numberForm?, Bool.false_eq_true, if_false, integerOfText?_sign negative hne hds,
      ← hn, Integer.ofInt?_toInt, Option.map_some]
  | double negative hne hds hes =>
    refine ⟨true, .fraction negative hne hds hes, ?_⟩
    simp only [numberForm?, if_true, doubleOfText?_sign negative hne hds hes, Option.map_some]

/-! ## Names as the machine reads them -/

theorem nameText_iff {cs : List Char} {f : Form} :
    NameText cs f ↔ SymbolText cs ∧ symbolForm? cs = some f := by
  have hpieces : (Text.pieces '.' cs).any List.isEmpty = true ↔ [] ∈ Text.pieces '.' cs := by
    simp
  constructor
  · intro h
    cases h with
    | nil hcs h => exact ⟨hcs, by simp only [symbolForm?, h, if_true]⟩
    | true hcs h =>
      have hne : "true".toList ≠ "nil".toList := by decide
      exact ⟨hcs, by simp only [symbolForm?, h, hne, if_true, if_false]⟩
    | path hcs hnil htrue h =>
      exact ⟨hcs, by simp only [symbolForm?, hnil, htrue, hpieces, h, if_false]⟩
  · rintro ⟨hcs, h⟩
    unfold symbolForm? at h
    dsimp only at h
    split_ifs at h with hnil htrue hempty
    · cases h
      exact .nil hcs hnil
    · cases h
      exact .true hcs htrue
    · cases h
      exact .path hcs hnil htrue fun hmem => hempty (hpieces.mpr hmem)

end Lisplet.Grammar
