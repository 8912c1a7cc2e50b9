import Lisplet.Proofs.Exactness
import Lisplet.Proofs.Expressions
import Lisplet.Proofs.Grammar

/-!
# Integers out of texts

`int` reads a text twice. The first reading is exact and takes a sign and digits whose number fits
in a word. Whatever it refuses is read once more, as a double of which the integer part is taken. This
second reading is meant for points and exponents, but digits whose number does not fit come to it
too: they are rounded to a double, and the end of the range that is nearest to the double is the
result. Only a number so large that the double is infinite has none.
-/

namespace Lisplet

open Eval

/-! ## Rounding large numbers -/

namespace Double

/-- The least number that is rounded to an infinity. It lies half a last place above the greatest
finite double, and ties go to the even mantissa. -/
def overflow : Nat :=
  (4 * leastFull - 1) <<< 970

variable {negative : Bool} {n m k : Nat}

theorem le_roundHalfEven (num den : Nat) : num / den ≤ roundHalfEven num den := by
  unfold roundHalfEven
  dsimp only
  split <;> omega

theorem roundHalfEven_le (num den : Nat) : roundHalfEven num den ≤ num / den + 1 := by
  unfold roundHalfEven
  dsimp only
  split <;> omega

/-- A mantissa of full length at most is carried beyond it from half a last place below on. -/
theorem roundHalfEven_eq_iff {half : Nat} (hhalf : 0 < half)
    (hfull : n / (2 * half) < 2 * leastFull) :
    roundHalfEven n (2 * half) = 2 * leastFull ↔ (4 * leastFull - 1) * half ≤ n := by
  have hdecomp : 2 * half * (n / (2 * half)) + n % (2 * half) = n := Nat.div_add_mod n (2 * half)
  have hrem : n % (2 * half) < 2 * half := Nat.mod_lt _ (by omega)
  by_cases hlast : n / (2 * half) = 2 * leastFull - 1
  · -- The last mantissa is odd, so the tie goes up.
    have hround : roundHalfEven n (2 * half) = 2 * leastFull ↔ half ≤ n % (2 * half) := by
      unfold roundHalfEven
      simp only [hlast, leastFull]
      split <;> omega
    rw [hround]
    simp only [hlast, leastFull] at hdecomp ⊢
    omega
  · have hle := roundHalfEven_le n (2 * half)
    have hbelow : n < (2 * leastFull - 1) * (2 * half) := by
      rw [← Nat.div_lt_iff_lt_mul (by omega)]
      omega
    simp only [leastFull] at *
    omega

/-- A number of at least 54 binary places keeps the first 53 of them, rounded. -/
theorem nearest_of_large (h : 2 * leastFull ≤ n) :
    nearest negative n 1 =
      pack negative (roundHalfEven n (1 <<< (n.log2 - 52))) ((n.log2 - 52 : Nat) : Int) := by
  have hzero : n ≠ 0 := by
    rintro rfl
    exact absurd h (by decide)
  have hlog : 53 ≤ n.log2 := (Nat.le_log2 hzero).mpr h
  have hlow : max minExponent ((n.log2 : Int) - ((1 : Nat).log2 : Int) - 53) =
      ((n.log2 - 53 : Nat) : Int) := by
    have hone : (1 : Nat).log2 = 0 := by decide
    rw [hone, minExponent]
    omega
  have hscale : ∀ k : Nat, scaleDown n 1 (k : Int) = (n, 1 <<< k) := fun k =>
    if_pos (Int.natCast_nonneg k)
  -- With one place more than fits, the quotient is never small.
  have hquotient : ¬ n / 1 <<< (n.log2 - 53) < 2 * leastFull := by
    have hpower : 2 * leastFull * 1 <<< (n.log2 - 53) = 2 ^ n.log2 := by
      rw [Nat.one_shiftLeft, show 2 * leastFull = 2 ^ 53 from rfl, ← Nat.pow_add]
      congr 1
      omega
    rw [Nat.not_lt, Nat.le_div_iff_mul_le (by rw [Nat.one_shiftLeft]; exact Nat.two_pow_pos _),
      hpower]
    exact Nat.log2_self_le hzero
  have hnext : ((n.log2 - 53 : Nat) : Int) + 1 = ((n.log2 - 52 : Nat) : Int) := by omega
  unfold nearest
  rw [if_neg hzero]
  simp only [hlow, hscale, if_neg hquotient, hnext]

theorem truncate_finite (negative : Bool) (m k : Nat) :
    (Double.finite negative m (k : Int)).truncate = some (signed negative (m <<< k)) := by
  unfold truncate
  dsimp only
  rw [if_pos (Int.natCast_nonneg k), Int.toNat_natCast]

/-- A carry makes no difference to the number, only to whether it is finite. -/
theorem truncate_pack (negative : Bool) (m k : Nat) :
    (pack negative m (k : Int)).truncate =
      if (if m = 2 * leastFull then k + 1 else k) ≤ 971 then some (signed negative (m <<< k))
      else none := by
  have hpack : ∀ m k : Nat, Double.truncate (if (k : Int) > maxExponent then .infinite negative
      else .finite negative m k) = if k ≤ 971 then some (signed negative (m <<< k)) else none := by
    intro m k
    by_cases hfinite : k ≤ 971
    · rw [if_pos hfinite, if_neg (by unfold maxExponent; omega), truncate_finite]
    · rw [if_neg hfinite, if_pos (by unfold maxExponent; omega)]
      rfl
  unfold pack
  by_cases hcarry : m = 2 * leastFull
  · have hshift : leastFull <<< (k + 1) = m <<< k := by
      rw [hcarry, Nat.shiftLeft_eq, Nat.shiftLeft_eq, Nat.pow_succ]
      ring
    rw [if_pos hcarry, if_pos hcarry, ← hshift]
    exact hpack leastFull (k + 1)
  · rw [if_neg hcarry, if_neg hcarry]
    exact hpack m k

/-- Whether a mantissa of full length, carried or not, stays within an exponent. The greatest
exponent is a variable here, since the powers of two that belong to the real one are long. -/
theorem carried_le_iff (hlow : 2 ^ (k + 52) ≤ n) (hhigh : n < 2 ^ (k + 53)) (top : Nat) :
    (if roundHalfEven n (2 ^ k) = 2 * leastFull then k + 1 else k) ≤ top + 1 ↔
      n < (4 * leastFull - 1) <<< top := by
  rw [Nat.shiftLeft_eq]
  rcases Nat.lt_trichotomy k (top + 1) with hbelow | rfl | habove
  · -- Far enough below, a carry does no harm.
    have hpower : 2 ^ (k + 53) ≤ 2 ^ (53 + top) := Nat.pow_le_pow_right (by decide) (by omega)
    have hsmall : 2 ^ (53 + top) ≤ (4 * leastFull - 1) * 2 ^ top := by
      rw [Nat.pow_add]
      exact Nat.mul_le_mul_right _ (by decide)
    refine iff_of_true ?_ (by omega)
    split <;> omega
  · -- At the last exponent, the carry decides.
    have hfull : n / (2 * 2 ^ top) < 2 * leastFull := by
      rw [Nat.div_lt_iff_lt_mul (Nat.mul_pos (by decide) (Nat.two_pow_pos top))]
      calc n < 2 ^ (top + 1 + 53) := hhigh
        _ = 2 ^ 53 * 2 ^ (top + 1) := by rw [Nat.add_comm, Nat.pow_add]
        _ = 2 ^ 53 * (2 * 2 ^ top) := by rw [Nat.pow_succ' (n := top)]
    have hcarry := roundHalfEven_eq_iff (Nat.two_pow_pos top) hfull
    rw [Nat.pow_succ']
    split <;> omega
  · have hpower : 2 ^ (54 + top) ≤ 2 ^ (k + 52) := Nat.pow_le_pow_right (by decide) (by omega)
    have hlarge : (4 * leastFull - 1) * 2 ^ top ≤ 2 ^ (54 + top) := by
      rw [Nat.pow_add]
      exact Nat.mul_le_mul_right _ (by decide)
    refine iff_of_false ?_ (by omega)
    split <;> omega

/-- What rounding leaves of a large number: nothing from `overflow` on, and below it a number of no
fewer binary places. -/
theorem truncate_nearest (negative : Bool) (h : 2 * leastFull ≤ n) :
    (overflow ≤ n ∧ (nearest negative n 1).truncate = none) ∨
      n < overflow ∧ ∃ m, 2 ^ n.log2 ≤ m ∧
        (nearest negative n 1).truncate = some (signed negative m) := by
  have hzero : n ≠ 0 := by
    rintro rfl
    exact absurd h (by decide)
  have hlog : 53 ≤ n.log2 := (Nat.le_log2 hzero).mpr h
  have hlow : 2 ^ n.log2 ≤ n := Nat.log2_self_le hzero
  have hhigh : n < 2 ^ (n.log2 + 1) := Nat.lt_log2_self
  obtain ⟨k, hk⟩ : ∃ k, n.log2 = k + 52 := ⟨n.log2 - 52, by omega⟩
  rw [nearest_of_large h, truncate_pack]
  rw [hk] at hlow hhigh ⊢
  rw [Nat.add_sub_cancel, Nat.one_shiftLeft]
  have hleast : leastFull ≤ roundHalfEven n (2 ^ k) := by
    refine Nat.le_trans ?_ (le_roundHalfEven n (2 ^ k))
    rw [Nat.le_div_iff_mul_le (Nat.two_pow_pos k), show leastFull = 2 ^ 52 from rfl, ← Nat.pow_add,
      Nat.add_comm]
    exact hlow
  have hplaces : 2 ^ (k + 52) ≤ roundHalfEven n (2 ^ k) <<< k := by
    rw [Nat.shiftLeft_eq, Nat.add_comm, Nat.pow_add]
    exact Nat.mul_le_mul_right _ hleast
  have hfinite := carried_le_iff hlow hhigh 970
  by_cases hlarge : n < overflow
  · exact .inr ⟨hlarge, _, hplaces, if_pos (hfinite.mpr hlarge)⟩
  · exact .inl ⟨Nat.le_of_not_lt hlarge, if_neg fun hle => hlarge (hfinite.mp hle)⟩

end Double

/-! ## Texts of digits -/

namespace Integer

/-- The text is an optional sign and one or more digits, and `z` is the integer that it writes. -/
inductive Written : List Char → Int → Prop
  | bare {ds : List Char} (hne : ds ≠ []) (hds : ∀ d ∈ ds, d.isDigit = true) :
      Written ds (Nat.ofDigitChars 10 ds 0)
  | plus {ds : List Char} (hne : ds ≠ []) (hds : ∀ d ∈ ds, d.isDigit = true) :
      Written ('+' :: ds) (Nat.ofDigitChars 10 ds 0)
  | minus {ds : List Char} (hne : ds ≠ []) (hds : ∀ d ∈ ds, d.isDigit = true) :
      Written ('-' :: ds) (-(Nat.ofDigitChars 10 ds 0 : Int))

variable {cs ds : List Char} {z : Int}

theorem written_digits (z : Int) : Written (digits z) z := by
  have hne : Nat.toDigits 10 z.natAbs ≠ [] := Nat.toDigits_ne_nil
  have hds : ∀ d ∈ Nat.toDigits 10 z.natAbs, d.isDigit = true := fun d hd =>
    Nat.isDigit_of_mem_toDigits (by decide) (by decide) hd
  have hvalue : Nat.ofDigitChars 10 (Nat.toDigits 10 z.natAbs) 0 = z.natAbs :=
    Nat.ofDigitChars_ten_toDigits
  unfold digits
  by_cases hneg : z < 0
  · have hwritten := Written.minus hne hds
    rw [hvalue, show -(z.natAbs : Int) = z by omega] at hwritten
    rwa [if_pos hneg]
  · have hwritten := Written.bare hne hds
    rw [hvalue, show (z.natAbs : Int) = z by omega] at hwritten
    rwa [if_neg hneg]

end Integer

section

variable {cs ds : List Char} {z : Int} {d : Char}

theorem toLower_of_isDigit (h : d.isDigit = true) : d.toLower = d := by
  simp only [Char.isDigit, Bool.and_eq_true, decide_eq_true_eq] at h
  unfold Char.toLower
  rw [dif_neg]
  grind

theorem isBlank_of_isDigit (h : d.isDigit = true) : Text.isBlank d = false := by
  by_contra hblank
  have hclass := Reader.ofChar_eq_blank (eq_true_of_ne_false hblank)
  rw [Reader.ofChar_of_isDigit h] at hclass
  cases hclass

theorem trim_of_no_blank (h : ∀ c ∈ cs, Text.isBlank c = false) : Text.trim cs = cs := by
  have hdrop : ∀ ds : List Char, (∀ d ∈ ds, Text.isBlank d = false) →
      ds.dropWhile Text.isBlank = ds := by
    intro ds hds
    cases ds with
    | nil => rfl
    | cons d ds => rw [List.dropWhile_cons_of_neg (by simp [hds d List.mem_cons_self])]
  unfold Text.trim
  rw [hdrop cs h, hdrop _ fun c hc => h c (List.mem_reverse.mp hc), List.reverse_reverse]

/-- There is nothing to trim off the text of an integer. -/
theorem trim_of_written (h : Integer.Written cs z) : Text.trim cs = cs := by
  apply trim_of_no_blank
  intro c hc
  cases h with
  | bare _ hds => exact isBlank_of_isDigit (hds c hc)
  | plus _ hds | minus _ hds =>
    rcases List.mem_cons.mp hc with rfl | hc
    · decide
    · exact isBlank_of_isDigit (hds c hc)

/-- Digits as a double: the number that they write, rounded. -/
theorem unsignedOfText?_digits (negative : Bool) (hne : ds ≠ [])
    (hds : ∀ d ∈ ds, d.isDigit = true) :
    Double.unsignedOfText? negative ds =
      some (.nearest negative (Nat.ofDigitChars 10 ds 0) 1) := by
  have hlower : ds.map Char.toLower = ds := by
    refine (List.map_congr_left fun d hd => ?_).trans (List.map_id ds)
    exact toLower_of_isDigit (hds d hd)
  have hname : ∀ (name : List Char) (c : Char), c ∈ name → c.isDigit = false → ds ≠ name := by
    rintro name c hc hdigit rfl
    rw [hds c hc] at hdigit
    cases hdigit
  have hinf := hname "inf".toList 'i' (by decide) (by decide)
  have hinfinity := hname "infinity".toList 'i' (by decide) (by decide)
  have hnan := hname "nan".toList 'n' (by decide) (by decide)
  have hwhole : ds.takeWhile Char.isDigit = ds := List.takeWhile_eq_self_iff.mpr hds
  have hrest : ds.dropWhile Char.isDigit = [] := List.dropWhile_eq_nil_iff.mpr hds
  have hempty : ds.isEmpty = false := List.isEmpty_eq_false_iff.mpr hne
  -- Without a point and an exponent, the decimal is its digits.
  have hdecimal : ∀ n : Nat, Decimal.toDouble ⟨negative, n, 0⟩ = .nearest negative n 1 := by
    intro n
    unfold Decimal.toDouble
    dsimp only
    by_cases hzero : n = 0
    · rw [if_pos hzero, hzero]
      rfl
    · rw [if_neg hzero, if_neg (by decide), if_neg (by omega), if_pos (Int.le_refl 0)]
      show Double.nearest negative (n * Decimal.powerOfTen 0) 1 = _
      rw [show Decimal.powerOfTen 0 = 1 from rfl, Nat.mul_one]
  simp only [Double.unsignedOfText?, hlower, hinf, hinfinity, hnan, or_self, if_false, hwhole,
    hrest, hempty, Bool.false_and, Bool.false_eq_true, Double.exponentOf?, Option.map_some,
    Double.ofDigits, List.append_nil, Number.ofDigits_eq]
  exact congrArg some (hdecimal _)

/-- The two readings of a text of digits: as the integer if it fits, and as that integer rounded. -/
theorem readings_of_written (h : Integer.Written cs z) :
    Integer.ofText? cs = Integer.ofInt? z ∧
      ∃ negative n, z = Double.signed negative n ∧
        Double.ofText? cs = some (.nearest negative n 1) := by
  have hnat : ∀ {ds : List Char}, ds ≠ [] → (∀ d ∈ ds, d.isDigit = true) →
      Integer.natOfText? ds = some (Nat.ofDigitChars 10 ds 0) := fun hne hds =>
    Grammar.natOfText?_of_digits hne fun d hd => Reader.ofChar_of_isDigit (hds d hd)
  cases h with
  | bare hne hds =>
    -- A digit is no sign, so both readings take the text as it is.
    obtain ⟨d, ds, rfl⟩ := List.exists_cons_of_ne_nil hne
    obtain ⟨hplus, hminus⟩ :=
      Grammar.ne_sign_of_digit (Reader.ofChar_of_isDigit (hds d List.mem_cons_self))
    have hexact : Integer.ofText? (d :: ds) =
        (Integer.natOfText? (d :: ds)).bind fun n => Integer.ofInt? n := by
      unfold Integer.ofText?
      split <;> simp_all
    have hrounded : Double.ofText? (d :: ds) = Double.unsignedOfText? false (d :: ds) := by
      unfold Double.ofText?
      split <;> simp_all
    rw [hexact, hnat hne hds, hrounded, unsignedOfText?_digits false hne hds]
    exact ⟨rfl, false, _, rfl, rfl⟩
  | plus hne hds =>
    refine ⟨?_, false, _, rfl, unsignedOfText?_digits false hne hds⟩
    show (Integer.natOfText? _).bind _ = _
    rw [hnat hne hds]
    rfl
  | minus hne hds =>
    refine ⟨?_, true, _, rfl, unsignedOfText?_digits true hne hds⟩
    show (Integer.natOfText? _).bind _ = _
    rw [hnat hne hds]
    rfl

end

/-! ## What becomes of a text of digits -/

section

variable {z : Int} {s : String} {w : Int64}

theorem toInt_clamp (z : Int) :
    (Integer.clamp z).toInt = max Integer.least (min z Integer.greatest) :=
  Int64.toInt_ofInt_of_le (by unfold Integer.least Integer.greatest; omega)
    (by unfold Integer.least Integer.greatest; omega)

/-- The nearest word is the integer itself exactly if that fits. -/
theorem toInt_clamp_eq_iff : (Integer.clamp z).toInt = z ↔ Integer.Fits z := by
  rw [toInt_clamp]
  unfold Integer.Fits Integer.least Integer.greatest
  omega

theorem lt_overflow_of_fits (h : Integer.Fits z) : z.natAbs < Double.overflow := by
  have hbound : z.natAbs ≤ 2 ^ 63 := by
    unfold Integer.Fits Integer.least Integer.greatest at h
    omega
  refine Nat.lt_of_le_of_lt hbound ?_
  decide +kernel

/-- A text of digits comes to the word nearest to the integer it writes, unless this is so large
that the double is infinite. -/
theorem integerOfText_of_written (h : Integer.Written (Text.trim s.toList) z) :
    Builtin.integerOfText s =
      if z.natAbs < Double.overflow then .int (Integer.clamp z) else .nil := by
  obtain ⟨hexact, negative, n, hz, hrounded⟩ := readings_of_written h
  unfold Builtin.integerOfText
  dsimp only
  rw [hexact]
  by_cases hfits : Integer.Fits z
  · obtain ⟨w, hw, hvalue⟩ := Integer.ofInt?_of_fits hfits
    have hclamp : Integer.clamp z = w :=
      Int64.toInt_inj.mp ((toInt_clamp_eq_iff.mpr hfits).trans hvalue.symm)
    rw [hw, if_pos (lt_overflow_of_fits hfits), hclamp]
  · rw [Integer.ofInt?_of_not_fits hfits, hrounded]
    dsimp only
    have habs : z.natAbs = n := by
      rw [hz]
      cases negative <;> simp [Double.signed]
    -- What does not fit has 64 binary places or more, and rounding takes none away.
    have hplaces : 2 ^ 63 ≤ n := by
      unfold Integer.Fits Integer.least Integer.greatest at hfits
      omega
    have hlog : 2 ^ 63 ≤ 2 ^ n.log2 :=
      Nat.pow_le_pow_right (by decide) ((Nat.le_log2 (by omega)).mpr hplaces)
    unfold Builtin.integerPart
    rw [habs]
    rcases Double.truncate_nearest (n := n) negative (by unfold Double.leastFull; omega) with
      ⟨hlarge, hnone⟩ | ⟨hsmall, m, hm, hsome⟩
    · rw [hnone, if_neg (Nat.not_lt.mpr hlarge)]
    · rw [hsome, if_pos hsmall]
      have hsame : Integer.clamp (Double.signed negative m) = Integer.clamp z := by
        apply Int64.toInt_inj.mp
        rw [toInt_clamp, toInt_clamp, hz]
        unfold Integer.Fits at hfits
        rw [hz] at hfits
        unfold Integer.least Integer.greatest at *
        cases negative <;> simp only [Double.signed, if_true, Bool.false_eq_true, if_false] at * <;>
          omega
      show Value.int (Integer.clamp (Double.signed negative m)) = _
      rw [hsame]

end

/-! ## Calls -/

section

variable {fuel id : Nat} {title name : String} {arg v : Value} {contract : List Kind}
  {op : Operation} {i j : Interpreter}

/-- An expression that calls a checked primitive with one argument of any kind. -/
theorem evaluate_unary (hidle : i.uses = []) (hdepth : i.depth < i.maxDepth)
    (hcontract : contract = [.any] ∨ contract = [.rest]) (hsimple : Path.isSimple name = true)
    (hget : i.env.get? name = some (.checked id title contract op))
    (harg : evaluate fuel arg (i.deeper 1) = .ok v j) (hv : v.isSignal = false) :
    evaluate (fuel + 1) (.expr [.symbol name, arg]) i =
      surfaced (.expr [.symbol name, arg]) (op.run (.ofFuel fuel) [v] j) := by
  rw [evaluate_expr hidle hdepth]
  cases fuel with
  | zero => cases harg
  | succ fuel =>
    have hbinds : Binds (Engine.ofFuel (fuel + 1)).evaluate (kinded contract [arg]) (i.deeper 1) [v]
        j := by
      rcases hcontract with rfl | rfl <;> exact .evaluated rfl harg hv rfl (.nil j)
    have hadmits : Admits contract 1 := by
      rcases hcontract with rfl | rfl <;> exact ⟨by decide, by decide⟩
    rw [callForm_of_bound (i := i.deeper 1) hsimple hget rfl, call_of_binds hadmits hbinds]

/-- The text that `cat` makes of an integer is the text of the integer. -/
theorem concatenate_int (hidle : i.uses = []) (n : Int64) :
    Builtin.concatenate [.int n] i = .ok (.str (Integer.text n)) i := by
  have htext : plainText (.int n) i = .ok (Integer.text n) i := looking_of_idle hidle _ _
  have htexts : Builtin.plainTexts [.int n] i = .ok [Integer.text n] i := bind_of_ok htext
  have hjoin : String.join [Integer.text n] = Integer.text n := by simp [String.join]
  refine (bind_of_ok htexts).trans ?_
  rw [hjoin]
  rfl

/-- What `int` makes of a form that comes to a text of digits. -/
theorem evaluate_int {form : Value} {s : String} {z : Int} (hidle : i.uses = [])
    (hdepth : i.depth < i.maxDepth)
    (hint : i.env.get? "int" = some (.checked id title [.any] .toInt))
    (hform : evaluate fuel form (i.deeper 1) = .ok (.str s) j)
    (hz : Integer.Written (Text.trim s.toList) z) :
    evaluate (fuel + 1) (.expr [.symbol "int", form]) i =
      .ok (if z.natAbs < Double.overflow then .int (Integer.clamp z) else .nil)
        { j with depth := j.depth - 1 } := by
  have hsimple : Path.isSimple "int" = true := by decide +kernel
  rw [evaluate_unary hidle hdepth (.inl rfl) hsimple hint hform rfl, ← integerOfText_of_written hz]
  rfl

end

/-- What `int` makes of a text that is a sign and digits between blanks. An integer that fits is the
result, and so is every integer that `cat` has made a text of. One that does not fit comes to the
end of the range on its side, which is not the integer that is written, except that from
`Double.overflow` on there is no result. -/
theorem int_of_decimal_text {fuel id : Nat} {title : String} {i : Interpreter}
    (hidle : i.uses = []) (hdepth : i.depth < i.maxDepth)
    (hint : i.env.get? "int" = some (.checked id title [.any] .toInt)) :
    (∀ form s j z, evaluate fuel form (i.deeper 1) = .ok (.str s) j →
      Integer.Written (Text.trim s.toList) z →
      let result := evaluate (fuel + 1) (.expr [.symbol "int", form]) i
      let after := { j with depth := j.depth - 1 }
      (Integer.Fits z → ∃ w : Int64, w.toInt = z ∧ result = .ok (.int w) after) ∧
      (¬ Integer.Fits z → z.natAbs < Double.overflow → ∃ w : Int64,
        w.toInt = (if z < 0 then Integer.least else Integer.greatest) ∧ w.toInt ≠ z ∧
          result = .ok (.int w) after) ∧
      (Double.overflow ≤ z.natAbs → result = .ok .nil after)) ∧
    ∀ form n j id' title', i.depth + 1 < i.maxDepth →
      i.env.get? "cat" = some (.checked id' title' [.rest] .concatenate) →
      evaluate fuel form (i.deeper 2) = .ok (.int n) j →
      evaluate (fuel + 2) (.expr [.symbol "int", .expr [.symbol "cat", form]]) i =
        .ok (.int n) { j with depth := j.depth - 2 } := by
  refine ⟨?_, ?_⟩
  · intro form s j z hform hz
    have hresult := evaluate_int hidle hdepth hint hform hz
    refine ⟨fun hfits => ?_, fun hfits hsmall => ?_, fun hlarge => ?_⟩
    · refine ⟨Integer.clamp z, toInt_clamp_eq_iff.mpr hfits, hresult.trans ?_⟩
      rw [if_pos (lt_overflow_of_fits hfits)]
    · refine ⟨Integer.clamp z, ?_, fun heq => hfits (toInt_clamp_eq_iff.mp heq), ?_⟩
      · rw [toInt_clamp]
        unfold Integer.Fits Integer.least Integer.greatest at *
        split <;> omega
      · exact hresult.trans (by rw [if_pos hsmall])
    · exact hresult.trans (by rw [if_neg (Nat.not_lt.mpr hlarge)])
  · intro form n j id' title' hroom hget hform
    have hsimple : Path.isSimple "cat" = true := by decide +kernel
    have hjidle : j.uses = [] := uses_of_ok (i := i.deeper 2) hidle hform
    have htext : evaluate (fuel + 1) (.expr [.symbol "cat", form]) (i.deeper 1) =
        .ok (.str (Integer.text n)) { j with depth := j.depth - 1 } := by
      rw [evaluate_unary (i := i.deeper 1) hidle hroom (.inr rfl) hsimple hget hform rfl]
      exact congrArg _ (concatenate_int hjidle n)
    -- Digits are no blanks, so nothing is trimmed from what `cat` has written.
    have hwritten : Integer.Written (Text.trim (Integer.text n).toList) n.toInt := by
      have hdigits : (Integer.text n).toList = Integer.digits n.toInt := String.toList_ofList
      rw [hdigits, trim_of_written (Integer.written_digits n.toInt)]
      exact Integer.written_digits n.toInt
    have hfits : Integer.Fits n.toInt := Integer.fits_toInt n
    have hclamp : Integer.clamp n.toInt = n := Int64.toInt_inj.mp (toInt_clamp_eq_iff.mpr hfits)
    rw [evaluate_int hidle hdepth hint htext hwritten, if_pos (lt_overflow_of_fits hfits), hclamp]
    rfl

def Interpreter.coercing : Interpreter where
  env := {
    globals := [
      ("int", .checked 0 "int" [.any] .toInt),
      ("cat", .checked 1 "cat" [.rest] .concatenate)] }
  maxDepth := 9

theorem Integer.written_beyond : Written "9223372036854775808".toList 9223372036854775808 :=
  .bare (by decide) (List.all_eq_true.mp (by decide +kernel))

-- An integer of the range with a sign and blanks, the first one above the range, and the least of
-- all by way of its text.
theorem int_of_decimal_text_ends :
    evaluate 4 (.expr [.symbol "int", .str " +0042\n"]) .coercing = .ok (.int 42) .coercing ∧
    evaluate 4 (.expr [.symbol "int", .str "9223372036854775808"]) .coercing =
      .ok (.int 9223372036854775807) .coercing ∧
    evaluate 5 (.expr [.symbol "int", .expr [.symbol "cat", .int Int64.minValue]]) .coercing =
      .ok (.int Int64.minValue) .coercing := by
  obtain ⟨htext, hback⟩ := @int_of_decimal_text 3 0 "int" .coercing rfl (by decide) rfl
  refine ⟨?_, ?_, hback (.int Int64.minValue) _ _ 1 "cat" (by decide) rfl rfl⟩
  · have hwritten : Integer.Written ('+' :: "0042".toList) 42 :=
      .plus (by decide) (List.all_eq_true.mp (by decide +kernel))
    obtain ⟨w, hw, hrun⟩ := (htext (.str " +0042\n") _ _ 42 rfl hwritten).1 (by decide)
    rw [hrun, show w = 42 from Int64.toInt_inj.mp hw]
    rfl
  · obtain ⟨w, hw, -, hrun⟩ := (htext (.str "9223372036854775808") _ _ _ rfl
      Integer.written_beyond).2.1 (by decide) (by decide +kernel)
    rw [hrun, show w = 9223372036854775807 from Int64.toInt_inj.mp hw]
    rfl

theorem evalSource_int_beyond {i : Interpreter} {id : Nat} {title : String}
    (hidle : i.uses = []) (hdepth : i.depth < i.maxDepth)
    (hint : i.env.get? "int" = some (.checked id title [.any] .toInt)) (fuel : Nat) :
    evalSource (fuel + 2) "(int \"9223372036854775808\")" i =
      .ok (.int 9223372036854775807) i := by
  have hread : read "(int \"9223372036854775808\")" =
      .ok [.expr [.symbol "int", .str "9223372036854775808"]] := by cbv
  have hform : evaluate (fuel + 1) (.str "9223372036854775808") (i.deeper 1) =
      .ok (.str "9223372036854775808") (i.deeper 1) := rfl
  have heval := evaluate_int hidle hdepth hint hform Integer.written_beyond
  rw [if_pos (by decide +kernel)] at heval
  rw [evalSource, hread]
  exact bind_of_ok heval

/-- One above the range, the result is neither the integer that is written nor `Nil`. -/
theorem int_invents_integer :
    Integer.Written (Text.trim "9223372036854775808".toList) 9223372036854775808 ∧
    ((Interpreter.fresh 400 {}).run (evalSource 8 "(int \"9223372036854775808\")")).1 =
      .ok (.int 9223372036854775807) := by
  have hint : (Interpreter.fresh 400 {}).env.get? "int" =
      some (.checked 26 "int" [.any] .toInt) := by cbv
  refine ⟨Integer.written_beyond, ?_⟩
  rw [Interpreter.run, evalSource_int_beyond (Interpreter.uses_fresh 400 {}) (by decide) hint]

end Lisplet
