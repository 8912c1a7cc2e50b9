import Lisplet.Proofs.Grammar
import Lisplet.Proofs.RoundTrip

/-!
# How the reader puts forms together

The reading machine makes forms of lexemes and of forms it has made before, and of nothing else. So
a property that every lexeme has, and that every bracket hands on from the forms in it, holds of all
forms that a reader returns. An example is that no number that was read is a NaN.
-/

namespace Lisplet

namespace Reader

/-- A property of forms that reading hands on: lexemes have it, and brackets around forms that have
it. In the text of a double there is a point. -/
structure HandsOn (P : Form → Prop) : Prop where
  number {point : Bool} {text : List Char} {f : Form} : (point = true → '.' ∈ text) →
    numberForm? point text = some f → P f
  symbol {text : List Char} {f : Form} : symbolForm? text = some f → P f
  str (s : String) : P (.str s)
  list {items : List Form} : (∀ f ∈ items, P f) → P (listForm items)
  expr {items : List Form} : (∀ f ∈ items, P f) → P (exprForm items)
  struct {fields : Record Form} : (∀ e ∈ fields, P e.2) → P (.struct fields)

def Open.Has (P : Form → Prop) : Open → Prop
  | .expr _ items | .list _ items => ∀ f ∈ items, P f
  | .field _ fields _ => ∀ e ∈ fields, P e.2

/-- The forms that wait in a mode have the property, and a number with a point has one in its
text. -/
def Mode.Has (P : Form → Prop) : Mode → Prop
  | .number _ point text => point = true → '.' ∈ text
  | .fields _ entries | .key _ entries _ | .colon _ entries _ => ∀ e ∈ entries, P e.2
  | _ => True

structure State.Has (P : Form → Prop) (s : State) : Prop where
  forms : ∀ f ∈ s.forms, P f
  stack : ∀ o ∈ s.stack, o.Has P
  mode : s.mode.Has P

variable {P : Form → Prop} {s t : State} {c : Char} {pos start : Nat}

theorem forall_mem_reverse {Q : Form → Prop} {fs : List Form} (h : ∀ f ∈ fs, Q f) :
    ∀ f ∈ fs.reverse, Q f :=
  fun f hf => h f (List.mem_reverse.mp hf)

theorem State.Has.withMode (hs : s.Has P) {m : Mode} (hm : m.Has P) :
    State.Has P { s with mode := m } :=
  ⟨hs.forms, hs.stack, hm⟩

theorem has_deliver {f : Form} (hforms : ∀ f ∈ s.forms, P f) (hstack : ∀ o ∈ s.stack, o.Has P)
    (hf : P f) : (s.deliver f).Has P := by
  unfold State.deliver
  split
  next => exact ⟨List.forall_mem_cons.mpr ⟨hf, hforms⟩, hstack, trivial⟩
  next start items stack heq =>
    rw [heq] at hstack
    obtain ⟨htop, hrest⟩ := List.forall_mem_cons.mp hstack
    have hitems : ∀ g ∈ f :: items, P g := List.forall_mem_cons.mpr ⟨hf, htop⟩
    exact ⟨hforms, List.forall_mem_cons.mpr ⟨hitems, hrest⟩, trivial⟩
  next start items stack heq =>
    rw [heq] at hstack
    obtain ⟨htop, hrest⟩ := List.forall_mem_cons.mp hstack
    have hitems : ∀ g ∈ f :: items, P g := List.forall_mem_cons.mpr ⟨hf, htop⟩
    exact ⟨hforms, List.forall_mem_cons.mpr ⟨hitems, hrest⟩, trivial⟩
  next start fields key stack heq =>
    rw [heq] at hstack
    obtain ⟨htop, hrest⟩ := List.forall_mem_cons.mp hstack
    refine ⟨hforms, hrest, fun e he => ?_⟩
    rcases Record.mem_insert he with rfl | hmem
    · exact hf
    · exact htop e hmem

/-! ## One character -/

theorem has_endLexeme (hP : HandsOn P) (hs : s.Has P) {next : CharClass}
    (h : s.endLexeme next = .ok t) : t.Has P := by
  have hmode := hs.mode
  unfold State.endLexeme at h
  split at h
  next start point text heq =>
    rw [heq] at hmode
    split at h
    · split at h <;> cases h
      next f hf =>
        refine has_deliver hs.forms hs.stack (hP.number (fun hpoint => ?_) hf)
        exact List.mem_reverse.mpr (hmode hpoint)
    · cases h
      exact hs
  next =>
    split at h
    · cases h
      exact hs
    · split at h <;> cases h
      next f hf => exact has_deliver hs.forms hs.stack (hP.symbol hf)
  next =>
    split at h <;> cases h
    · exact has_deliver hs.forms hs.stack (hP.str _)
    · exact hs
  next start fields text heq =>
    rw [heq] at hmode
    split at h <;> cases h
    · exact hs
    · exact hs.withMode hmode
  next =>
    cases h
    exact hs

theorem has_decideMinus (hs : s.Has P) (next : CharClass) : (s.decideMinus next).Has P := by
  unfold State.decideMinus
  split
  next =>
    refine hs.withMode ?_
    split
    · exact fun hpoint => absurd hpoint Bool.false_ne_true
    · split <;> exact trivial
  next => exact hs

theorem has_settle (hP : HandsOn P) (hs : s.Has P) {next : Option Char}
    (h : s.settle next = .ok t) : t.Has P := by
  unfold State.settle at h
  dsimp only at h
  split at h
  next u hu =>
    rw [eq_of_refuse h]
    exact has_endLexeme hP (has_decideMinus hs _) hu
  next => cases h

theorem has_nest {opened : State} (h : s.nest start opened = .ok t) (ho : opened.Has P) :
    t.Has P := by
  unfold State.nest at h
  split at h <;> cases h
  exact ho

theorem has_beginLiteral (hs : s.Has P) (h : s.beginLiteral start pos c = .ok t) : t.Has P := by
  have hempty : ∀ f ∈ ([] : List Form), P f := fun f hf => absurd hf List.not_mem_nil
  unfold State.beginLiteral at h
  generalize CharClass.ofChar c = k at h
  cases k with
  | openParen =>
    exact has_nest h ⟨hs.forms, List.forall_mem_cons.mpr ⟨hempty, hs.stack⟩, trivial⟩
  | digit =>
    cases h
    exact hs.withMode fun hpoint => absurd hpoint Bool.false_ne_true
  | letter =>
    cases h
    refine hs.withMode ?_
    split <;> exact trivial
  | quote | apostrophe | dot | unknown =>
    cases h
    exact hs.withMode trivial
  | blank | openBrace | closeParen | closeBrace | endOfText => cases h

theorem has_beginForm (hP : HandsOn P) (hs : s.Has P) (h : s.beginForm pos c = .ok t) :
    t.Has P := by
  have hempty : ∀ f ∈ ([] : List Form), P f := fun f hf => absurd hf List.not_mem_nil
  unfold State.beginForm at h
  generalize CharClass.ofChar c = k at h
  cases k with
  | openParen =>
    exact has_nest h ⟨hs.forms, List.forall_mem_cons.mpr ⟨hempty, hs.stack⟩, hs.mode⟩
  | openBrace => exact has_nest h (hs.withMode fun e he => absurd he List.not_mem_nil)
  | blank =>
    cases h
    exact hs
  | digit =>
    cases h
    exact hs.withMode fun hpoint => absurd hpoint Bool.false_ne_true
  | letter =>
    cases h
    refine hs.withMode ?_
    split <;> exact trivial
  | quote | apostrophe =>
    cases h
    exact hs.withMode trivial
  | closeParen =>
    dsimp only at h
    split at h <;> cases h
    next items stack heq =>
      have hstack := hs.stack
      rw [heq] at hstack
      obtain ⟨htop, hrest⟩ := List.forall_mem_cons.mp hstack
      exact has_deliver hs.forms hrest (hP.expr (forall_mem_reverse htop))
  | closeBrace =>
    dsimp only at h
    split at h <;> cases h
  | dot | unknown | endOfText => cases h

theorem has_beginItem (hP : HandsOn P) (hs : s.Has P) {items : List Form} {stack : List Open}
    (hstack : s.stack = .list start items :: stack)
    (h : s.beginItem start items stack pos c = .ok t) : t.Has P := by
  unfold State.beginItem at h
  split at h
  · cases h
    exact hs
  · cases h
    have hall := hs.stack
    rw [hstack] at hall
    obtain ⟨htop, hrest⟩ := List.forall_mem_cons.mp hall
    exact has_deliver hs.forms hrest (hP.list (forall_mem_reverse htop))
  · cases h
  · exact has_beginLiteral hs h

theorem has_take (hP : HandsOn P) (hs : s.Has P) (h : s.take pos c = .ok t) : t.Has P := by
  have hmode := hs.mode
  unfold State.take at h
  split at h
  next =>
    split at h
    next start items stack hstack => exact has_beginItem hP hs hstack h
    next => exact has_beginForm hP hs h
  next =>
    cases h
    refine hs.withMode ?_
    split <;> exact trivial
  next start point text heq =>
    rw [heq] at hmode
    split at h
    · cases h
      exact hs.withMode fun hpoint => List.mem_cons_of_mem _ (hmode hpoint)
    next hdot =>
      -- The point is the character that makes the number a double.
      split at h <;> cases h
      refine hs.withMode fun _ => ?_
      rw [show c = '.' from Grammar.eq_of_mark (by rw [hdot]; rfl)]
      exact List.mem_cons_self
    · cases h
  next =>
    cases h
    exact hs.withMode trivial
  next =>
    split at h
    · cases h
      exact hs.withMode trivial
    · split at h
      · cases h
        exact has_deliver hs.forms hs.stack (hP.str _)
      · split at h <;> cases h <;> exact hs.withMode trivial
  next => exact has_beginLiteral hs h
  next =>
    cases h
    exact hs.withMode trivial
  next start fields heq =>
    rw [heq] at hmode
    unfold State.beginKey at h
    split at h <;> cases h
    · exact hs
    · exact has_deliver hs.forms hs.stack (hP.struct hmode)
    · exact hs.withMode hmode
  next start fields text heq =>
    rw [heq] at hmode
    cases h
    exact hs.withMode hmode
  next start fields key heq =>
    rw [heq] at hmode
    split at h <;> cases h
    · exact ⟨hs.forms, List.forall_mem_cons.mpr ⟨hmode, hs.stack⟩, trivial⟩
    · exact hs

/-! ## A whole text -/

theorem has_run (hP : HandsOn P) (hs : s.Has P) {single : Bool} {before cs : List Char}
    (h : (run single s before pos cs).outcome = .ok t) : t.Has P := by
  induction cs generalizing s before pos with
  | nil => exact has_settle hP hs h
  | cons c cs ih =>
    unfold run at h
    split at h
    next => cases h
    next u hu =>
      have hsettled := has_settle hP hs hu
      split at h
      next =>
        cases h
        exact hsettled
      next =>
        split at h
        next => cases h
        next v hv =>
          have htaken := has_take hP hsettled hv
          split at h
          next =>
            cases h
            exact htaken
          next => exact ih htaken h

variable {single : Bool} {r : Reader} {fs : List Form}

theorem has_leg (hP : HandsOn P) (hs : s.Has P) (h : (leg single s r).1 = .ok t) : t.Has P := by
  unfold leg at h
  dsimp only at h
  split at h
  next => cases h
  next u hu =>
    cases h
    exact has_run hP hs hu

theorem has_conclude (hs : s.Has P) (h : (conclude single s r).1 = .ok fs) : ∀ f ∈ fs, P f := by
  unfold conclude at h
  split at h
  · cases h
  · cases h
    exact forall_mem_reverse hs.forms

theorem has_finish (hP : HandsOn P) (hs : s.Has P) (h : (finish single s r).1 = .ok fs) :
    ∀ f ∈ fs, P f := by
  unfold finish at h
  split at h
  next => cases h
  next t q hleg => exact has_conclude (has_leg hP hs (congrArg Prod.fst hleg)) h

theorem has_resume (hP : HandsOn P) {answers : List (Option String)} (hs : s.Has P)
    (h : (resume single s r answers).1 = .ok fs) : ∀ f ∈ fs, P f := by
  induction answers generalizing s r with
  | nil =>
    unfold resume at h
    split at h
    next => cases h
    next t q hleg =>
      have ht := has_leg hP hs (congrArg Prod.fst hleg)
      split at h
      · exact has_conclude ht h
      · exact has_finish hP ht h
  | cons answer rest ih =>
    unfold resume at h
    split at h
    next => cases h
    next t q hleg =>
      have ht := has_leg hP hs (congrArg Prod.fst hleg)
      split at h
      · exact has_conclude ht h
      · dsimp only at h
        split at h
        · exact has_finish hP ht h
        · exact ih ht h

theorem has_start (hP : HandsOn P) (h : (r.start single).1 = .ok fs) : ∀ f ∈ fs, P f := by
  have hinitial : State.Has P {} :=
    ⟨fun f hf => absurd hf List.not_mem_nil, fun o ho => absurd ho List.not_mem_nil, trivial⟩
  unfold start at h
  split at h
  · exact has_finish hP hinitial h
  · exact has_resume hP hinitial h

end Reader

/-- What reading hands on holds of every form that a reader returns. -/
theorem Form.Returned.of_handsOn {P : Form → Prop} (hP : Reader.HandsOn P) {f : Form}
    (h : f.Returned) : P f := by
  rcases h with ⟨r, fs, hfs, hf⟩ | ⟨r, hf⟩
  · exact Reader.has_start hP hfs f hf
  · unfold Reader.next at hf
    split at hf
    next fs r' hstart =>
      cases hf
      have hall := Reader.has_start hP (congrArg Prod.fst hstart)
      cases fs with
      | nil =>
        -- At the end of the text the reader returns `Nil`, as for an empty list.
        have hnone : ∀ f ∈ ([] : List Form), P f := fun f hf => absurd hf List.not_mem_nil
        exact hP.list hnone
      | cons f fs => exact hall f List.mem_cons_self
    next => cases hf

/-! ## Numbers that are read -/

namespace Double

theorem nearest_ne_nan (negative : Bool) (num den : Nat) : nearest negative num den ≠ .nan := by
  have hpack : ∀ m e, pack negative m e ≠ .nan := by
    intro m e
    unfold pack
    dsimp only
    split <;> split <;> exact Double.noConfusion
  unfold nearest
  split
  · exact Double.noConfusion
  · exact hpack _ _

theorem toDouble_ne_nan (d : Decimal) : d.toDouble ≠ .nan := by
  unfold Decimal.toDouble
  split_ifs
  · exact Double.noConfusion
  · exact Double.noConfusion
  · exact Double.noConfusion
  · exact nearest_ne_nan _ _ _
  · exact nearest_ne_nan _ _ _

theorem unsignedOfText?_ne_nan {negative : Bool} {cs : List Char} {d : Double} (hpoint : '.' ∈ cs)
    (h : unsignedOfText? negative cs = some d) : d ≠ .nan := by
  have hname : cs.map Char.toLower ≠ "nan".toList := by
    intro heq
    have hmem : '.' ∈ cs.map Char.toLower := List.mem_map.mpr ⟨'.', hpoint, rfl⟩
    rw [heq] at hmem
    revert hmem
    decide
  unfold unsignedOfText? at h
  dsimp only at h
  rw [if_neg hname] at h
  split_ifs at h
  · cases h
    exact Double.noConfusion
  · obtain ⟨e, -, rfl⟩ := Option.map_eq_some_iff.mp h
    exact toDouble_ne_nan _

theorem ofText?_ne_nan {cs : List Char} {d : Double} (hpoint : '.' ∈ cs)
    (h : ofText? cs = some d) : d ≠ .nan := by
  unfold ofText? at h
  split at h
  · exact unsignedOfText?_ne_nan (List.mem_of_ne_of_mem (by decide) hpoint) h
  · exact unsignedOfText?_ne_nan (List.mem_of_ne_of_mem (by decide) hpoint) h
  · exact unsignedOfText?_ne_nan hpoint h

end Double

def Form.HasNoNaN (f : Form) : Prop :=
  ¬ (Form.double .nan).Within f

/-- There is no text for a NaN: `nan` is a symbol. -/
theorem Form.Returned.hasNoNaN {f : Form} (h : f.Returned) : f.HasNoNaN := by
  refine h.of_handsOn ⟨?_, ?_, ?_, ?_, ?_, ?_⟩
  · intro point text f hpoint hf hnan
    unfold Reader.numberForm? at hf
    split at hf
    next htrue =>
      obtain ⟨d, hd, rfl⟩ := Option.map_eq_some_iff.mp hf
      cases hnan
      exact Double.ofText?_ne_nan (hpoint htrue) hd rfl
    next =>
      obtain ⟨n, -, rfl⟩ := Option.map_eq_some_iff.mp hf
      cases hnan
  · intro text f hf hnan
    unfold Reader.symbolForm? at hf
    dsimp only at hf
    split_ifs at hf <;> cases hf <;> cases hnan
  · intro s hnan
    cases hnan
  · intro items hitems hnan
    unfold Reader.listForm at hnan
    split at hnan
    · cases hnan
    · cases hnan with
      | item hmem h => exact hitems _ hmem h
  · intro items hitems hnan
    unfold Reader.exprForm at hnan
    split at hnan
    · cases hnan
    · cases hnan with
      | part hmem h => exact hitems _ hmem h
  · intro fields hfields hnan
    cases hnan with
    | field hmem h => exact hfields _ hmem h

end Lisplet
