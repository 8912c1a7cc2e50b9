import Mathlib.Logic.Relation
import Lisplet.Proofs.Signals

/-!
# Where jumps go

A body runs with a table of labels, which the labels written out among its forms begin and those it
meets overwrite. Here the course of a body is told without a table, from what it has evaluated so
far: a jump goes on after the form that came to the label last or, where none has, after the last
form that is written out as it. `Step` is one form of such a course and `Ends` what comes after it,
and running a body takes exactly this course, up to the number of jumps that the fuel allows.
-/

namespace Lisplet

open Eval

def Value.IsLabel (name : String) (form : Value) : Prop :=
  form = .expr [.symbol "label", .symbol name] ∨ form = .expr [.symbol "label", .str name]

theorem Value.isLabel_iff {name : String} {form : Value} :
    form.IsLabel name ↔ form.literalLabel? = some name := by
  constructor
  · rintro (rfl | rfl) <;> rfl
  · intro h
    unfold literalLabel? at h
    split at h
    next label =>
      cases label with
      | symbol other =>
        cases h
        exact .inl rfl
      | str other =>
        cases h
        exact .inr rfl
      | _ => cases h
    next => cases h

namespace Body

/-- A form of a body that has been evaluated: where it stands, and what it came to. -/
structure Visit where
  pos : Nat
  value : Value

/-- The last of the forms that are written out as the label `target` stands at `pos`. -/
def LastWritten (forms : List Value) (target : String) (pos : Nat) : Prop :=
  ∃ before form after, forms = before ++ form :: after ∧ form.IsLabel target ∧
    (∀ other ∈ after, ¬ other.IsLabel target) ∧ pos = before.length

/-- A jump to `target` goes to the form at `pos`: the one that came to the label last or, if none
has, the last one that is written out as it. What has been evaluated is `past`, the latest first. -/
inductive LabelAt (forms : List Value) (past : List Visit) (target : String) : Nat → Prop
  | met {later earlier : List Visit} {pos : Nat}
      (hpast : past = later ++ ⟨pos, .label target⟩ :: earlier)
      (hlater : ∀ visit ∈ later, visit.value ≠ .label target) : LabelAt forms past target pos
  | written {pos : Nat} (hpast : ∀ visit ∈ past, visit.value ≠ .label target)
      (hforms : LastWritten forms target pos) : LabelAt forms past target pos

/-- No form has come to the label `target`, and none is written out as it. -/
structure Lacks (forms : List Value) (past : List Visit) (target : String) : Prop where
  met : ∀ visit ∈ past, visit.value ≠ .label target
  written : ∀ form ∈ forms, ¬ form.IsLabel target

/-- The value of the last form that came to anything but a jump; `Nil` for a label, and where there
is no such form. -/
def lastValue : List Visit → Value
  | [] => .nil
  | visit :: past =>
    match visit.value with
    | .goto _ => lastValue past
    | .label _ => .nil
    | v => v

/-- A body in the course of being run: the forms it has evaluated, the latest first, the position it
has come to, and the state. -/
structure Stage where
  past : List Visit := []
  pos : Nat := 0
  state : Interpreter

def Visit.isJump (visit : Visit) : Bool :=
  match visit.value with
  | .goto _ => true
  | _ => false

def Stage.jumps (s : Stage) : Nat :=
  s.past.countP Visit.isJump

/-- One form is evaluated, and the body goes on. -/
inductive Step (e : Engine) (forms : List Value) : Stage → Stage → Prop
  | next {past : List Visit} {pos : Nat} {i j : Interpreter} {form v : Value}
      (hform : forms[pos]? = some form) (heval : e.evaluate form i = .ok v j)
      (hv : v.isSignal = false ∨ ∃ name, v = .label name) :
      Step e forms ⟨past, pos, i⟩ ⟨⟨pos, v⟩ :: past, pos + 1, j⟩
  | jump {past : List Visit} {pos label : Nat} {i j : Interpreter} {form : Value} {target : String}
      (hform : forms[pos]? = some form) (heval : e.evaluate form i = .ok (.goto target) j)
      (hlabel : LabelAt forms past target label) :
      Step e forms ⟨past, pos, i⟩ ⟨⟨pos, .goto target⟩ :: past, label + 1, j⟩

/-- The body ends: behind its last form, by a return or break, by a jump to a label it does not
have, or because a form halts. -/
inductive Ends (e : Engine) (forms : List Value) :
    Stage → EStateM.Result Halt Interpreter Flow → Prop
  | next {past : List Visit} {pos : Nat} {i : Interpreter} (hpos : forms.length ≤ pos) :
      Ends e forms ⟨past, pos, i⟩ (.ok (.next (lastValue past)) i)
  | leave {past : List Visit} {pos : Nat} {i j : Interpreter} {form v : Value}
      (hform : forms[pos]? = some form) (heval : e.evaluate form i = .ok (.leaving v) j) :
      Ends e forms ⟨past, pos, i⟩ (.ok (.leave v) j)
  | exit {past : List Visit} {pos : Nat} {i j : Interpreter} {form v : Value}
      (hform : forms[pos]? = some form) (heval : e.evaluate form i = .ok (.breaking v) j) :
      Ends e forms ⟨past, pos, i⟩ (.ok (.exit v) j)
  | goto {past : List Visit} {pos : Nat} {i j : Interpreter} {form : Value} {target : String}
      (hform : forms[pos]? = some form) (heval : e.evaluate form i = .ok (.goto target) j)
      (hlacks : Lacks forms past target) : Ends e forms ⟨past, pos, i⟩ (.ok (.goto target) j)
  | halt {past : List Visit} {pos : Nat} {i j : Interpreter} {form : Value} {h : Halt}
      (hform : forms[pos]? = some form) (heval : e.evaluate form i = .error h j) :
      Ends e forms ⟨past, pos, i⟩ (.error h j)

abbrev Steps (e : Engine) (forms : List Value) : Stage → Stage → Prop :=
  Relation.ReflTransGen (Step e forms)

/-! ## The label of a jump -/

variable {forms : List Value} {past : List Visit} {target : String}

/-- A visit decides where the label is, or it has nothing to do with it. -/
theorem labelAt_cons {visit : Visit} {pos : Nat} :
    LabelAt forms (visit :: past) target pos ↔
      visit.value = .label target ∧ pos = visit.pos ∨
        visit.value ≠ .label target ∧ LabelAt forms past target pos := by
  constructor
  · intro h
    cases h with
    | @met later earlier _ hpast hlater =>
      cases later with
      | nil =>
        cases hpast
        exact .inl ⟨rfl, rfl⟩
      | cons first later =>
        cases hpast
        refine .inr ⟨hlater _ List.mem_cons_self, .met rfl ?_⟩
        exact fun other h => hlater other (List.mem_cons_of_mem _ h)
    | written hpast hforms =>
      refine .inr ⟨hpast _ List.mem_cons_self, .written ?_ hforms⟩
      exact fun other h => hpast other (List.mem_cons_of_mem _ h)
  · rintro (⟨hvalue, rfl⟩ | ⟨hvalue, h⟩)
    · obtain ⟨pos, value⟩ := visit
      cases hvalue
      exact .met (List.nil_append _).symm (by simp)
    · cases h with
      | @met later earlier _ hpast hlater =>
        have hcons : visit :: past = (visit :: later) ++ ⟨pos, .label target⟩ :: earlier := by
          rw [hpast, List.cons_append]
        refine .met hcons ?_
        simpa [hvalue] using hlater
      | written hpast hforms => exact .written (by simpa [hvalue] using hpast) hforms

theorem lastWritten_cons {form : Value} {rest : List Value} {pos : Nat} :
    LastWritten (form :: rest) target pos ↔
      (∃ n, LastWritten rest target n ∧ pos = n + 1) ∨
        form.IsLabel target ∧ (∀ other ∈ rest, ¬ other.IsLabel target) ∧ pos = 0 := by
  constructor
  · rintro ⟨before, last, after, hforms, hlast, hafter, rfl⟩
    cases before with
    | nil =>
      cases hforms
      exact .inr ⟨hlast, hafter, rfl⟩
    | cons first before =>
      cases hforms
      exact .inl ⟨before.length, ⟨before, last, after, rfl, hlast, hafter, rfl⟩, rfl⟩
  · rintro (⟨n, ⟨before, last, after, rfl, hlast, hafter, rfl⟩, rfl⟩ | ⟨hform, hrest, rfl⟩)
    · exact ⟨form :: before, last, after, rfl, hlast, hafter, rfl⟩
    · exact ⟨[], form, rest, rfl, hform, hrest, rfl⟩

theorem LastWritten.exists_mem {pos : Nat} (h : LastWritten forms target pos) :
    ∃ form ∈ forms, form.IsLabel target := by
  obtain ⟨before, form, after, rfl, hform, -⟩ := h
  exact ⟨form, by simp, hform⟩

/-- A form writes its own label into the table, and nothing else. -/
theorem literalLabels_cons (labels : Record Nat) (start : Nat) (form : Value) (rest : List Value) :
    ∃ table, literalLabels labels start (form :: rest) = literalLabels table (start + 1) rest ∧
      ∀ target pos, Record.get? target table = some pos ↔
        form.IsLabel target ∧ pos = start ∨
          ¬ form.IsLabel target ∧ labels.get? target = some pos := by
  simp only [Value.isLabel_iff]
  cases hlabel : form.literalLabel? with
  | none => exact ⟨labels, by simp only [literalLabels, hlabel], by simp⟩
  | some name =>
    refine ⟨labels.insert name start, by simp only [literalLabels, hlabel], ?_⟩
    intro target pos
    by_cases hname : target = name
    · subst hname
      simp [Record.get?_insert_self, eq_comm]
    · simp [Record.get?_insert_of_ne hname, Ne.symm hname]

/-- What the table holds of a label once the forms have been looked through. -/
theorem get?_literalLabels {labels : Record Nat} {start pos : Nat} :
    (literalLabels labels start forms).get? target = some pos ↔
      (∃ n, LastWritten forms target n ∧ pos = start + n) ∨
        (∀ form ∈ forms, ¬ form.IsLabel target) ∧ labels.get? target = some pos := by
  induction forms generalizing labels start with
  | nil =>
    simp only [literalLabels, List.not_mem_nil, false_imp_iff, implies_true, true_and]
    refine ⟨.inr, ?_⟩
    rintro (⟨n, h, -⟩ | h)
    · obtain ⟨form, hform, -⟩ := h.exists_mem
      cases hform
    · exact h
  | cons form rest ih =>
    obtain ⟨table, htable, hget⟩ := literalLabels_cons labels start form rest
    rw [htable, ih, hget]
    constructor
    · rintro (⟨n, hn, rfl⟩ | ⟨hrest, ⟨hform, rfl⟩ | ⟨hform, hlabels⟩⟩)
      · exact .inl ⟨n + 1, lastWritten_cons.mpr (.inl ⟨n, hn, rfl⟩), by omega⟩
      · exact .inl ⟨0, lastWritten_cons.mpr (.inr ⟨hform, hrest, rfl⟩), rfl⟩
      · exact .inr ⟨by simpa [hform] using hrest, hlabels⟩
    · rintro (⟨n, hn, rfl⟩ | ⟨hforms, hlabels⟩)
      · rcases lastWritten_cons.mp hn with ⟨m, hm, rfl⟩ | ⟨hform, hrest, rfl⟩
        · exact .inl ⟨m, hm, by omega⟩
        · exact .inr ⟨hrest, .inl ⟨hform, rfl⟩⟩
      · obtain ⟨hform, hrest⟩ := List.forall_mem_cons.mp hforms
        exact .inr ⟨hrest, .inr ⟨hform, hlabels⟩⟩

/-- The table knows where every jump goes. -/
def Knows (forms : List Value) (past : List Visit) (labels : Record Nat) : Prop :=
  ∀ target pos, labels.get? target = some pos ↔ LabelAt forms past target pos

theorem knows_start (forms : List Value) : Knows forms [] (literalLabels [] 0 forms) := by
  intro target pos
  rw [get?_literalLabels]
  constructor
  · rintro (⟨n, hn, rfl⟩ | ⟨-, hnone⟩)
    · rw [Nat.zero_add]
      exact .written (by simp) hn
    · cases hnone
  · intro h
    cases h with
    | met hpast => simp at hpast
    | written _ hforms => exact .inl ⟨pos, hforms, (Nat.zero_add pos).symm⟩

theorem Knows.label {labels : Record Nat} (h : Knows forms past labels) (name : String)
    (pos : Nat) : Knows forms (⟨pos, .label name⟩ :: past) (labels.insert name pos) := by
  intro target n
  rw [labelAt_cons, ← h target n]
  by_cases hname : target = name
  · subst hname
    simp [Record.get?_insert_self, eq_comm]
  · simp [Record.get?_insert_of_ne hname, Ne.symm hname]

theorem Knows.other {labels : Record Nat} (h : Knows forms past labels) {v : Value}
    (hv : ∀ name, v ≠ .label name) (pos : Nat) : Knows forms (⟨pos, v⟩ :: past) labels := by
  intro target n
  rw [labelAt_cons, ← h target n]
  simp [hv target]

/-- A label that has been met or is written out can be jumped to. -/
theorem exists_labelAt (h : (∃ visit ∈ past, visit.value = .label target) ∨
    ∃ form ∈ forms, form.IsLabel target) : ∃ pos, LabelAt forms past target pos := by
  induction past with
  | nil =>
    obtain ⟨visit, hvisit, -⟩ | ⟨form, hform, hlabel⟩ := h
    · cases hvisit
    · have hhas := has_literalLabels [] forms 0 (.inr ⟨form, hform, Value.isLabel_iff.mp hlabel⟩)
      obtain ⟨pos, hpos⟩ := Option.isSome_iff_exists.mp hhas
      exact ⟨pos, (knows_start forms target pos).mp hpos⟩
  | cons visit past ih =>
    by_cases hvisit : visit.value = .label target
    · exact ⟨visit.pos, labelAt_cons.mpr (.inl ⟨hvisit, rfl⟩)⟩
    · obtain ⟨pos, hpos⟩ := ih (by simpa [hvisit] using h)
      exact ⟨pos, labelAt_cons.mpr (.inr ⟨hvisit, hpos⟩)⟩

theorem lacks_of_not_labelAt (h : ¬ ∃ pos, LabelAt forms past target pos) :
    Lacks forms past target :=
  ⟨fun visit hvisit hvalue => h (exists_labelAt (.inl ⟨visit, hvisit, hvalue⟩)),
    fun form hform hlabel => h (exists_labelAt (.inr ⟨form, hform, hlabel⟩))⟩

theorem Lacks.not_labelAt (h : Lacks forms past target) (pos : Nat) :
    ¬ LabelAt forms past target pos := by
  intro hpos
  cases hpos with
  | met hpast => exact h.met ⟨pos, .label target⟩ (by rw [hpast]; simp) rfl
  | written _ hforms =>
    obtain ⟨form, hform, hlabel⟩ := hforms.exists_mem
    exact h.written form hform hlabel

theorem Lacks.get? {labels : Record Nat} (h : Lacks forms past target)
    (hknows : Knows forms past labels) : labels.get? target = none := by
  rw [Option.eq_none_iff_forall_ne_some]
  intro pos hpos
  exact h.not_labelAt pos ((hknows target pos).mp hpos)

/-! ## One form at a time -/

section

variable {e : Engine} {labels : Record Nat} {legs pos : Nat} {result form : Value}
  {i : Interpreter}

theorem runLegs_end (hpos : forms.length ≤ pos) :
    e.runLegs forms (legs + 1) labels pos result i = .ok (.next result) i := by
  rw [Engine.runLegs, List.drop_eq_nil_of_le hpos]
  rfl

/-- What becomes of a body by the next form. -/
theorem runLegs_form (hform : forms[pos]? = some form) :
    e.runLegs forms (legs + 1) labels pos result i =
      match e.evaluate form i with
      | .error h j => .error h j
      | .ok (.leaving v) j => .ok (.leave v) j
      | .ok (.breaking v) j => .ok (.exit v) j
      | .ok (.goto target) j =>
        match labels.get? target with
        | some label => e.runLegs forms legs labels (label + 1) result j
        | none => .ok (.goto target) j
      | .ok (.label name) j =>
        e.runLegs forms (legs + 1) (labels.insert name pos) (pos + 1) .nil j
      | .ok v j => e.runLegs forms (legs + 1) labels (pos + 1) v j := by
  obtain ⟨hlt, rfl⟩ := List.getElem?_eq_some_iff.mp hform
  rw [Engine.runLegs, List.drop_eq_getElem_cons hlt, Engine.runLeg]
  cases heval : e.evaluate forms[pos] i with
  | error h j => simp only [bind, EStateM.bind, heval]
  | ok v j =>
    simp only [bind, EStateM.bind, heval]
    cases v with
    | goto target =>
      dsimp only
      cases labels.get? target <;> rfl
    | _ => rfl

/-- What is left of a body at a stage of its course, with a table that is right there. -/
def Stage.rest (e : Engine) (forms : List Value) (s : Stage) (labels : Record Nat) :
    EStateM.Result Halt Interpreter Flow :=
  e.runLegs forms (e.fuel - s.jumps) labels s.pos (lastValue s.past) s.state

end

variable {e : Engine} {s t : Stage}

theorem Stage.rest_of_jumps_eq (h : s.jumps = e.fuel) (labels : Record Nat) :
    s.rest e forms labels = .error .outOfFuel s.state := by
  unfold rest
  rw [h, Nat.sub_self]
  rfl

theorem jumps_next {v : Value} (hv : v.isSignal = false ∨ ∃ name, v = .label name)
    {pos n m : Nat} {i j : Interpreter} :
    Stage.jumps ⟨⟨pos, v⟩ :: past, n, j⟩ = Stage.jumps ⟨past, m, i⟩ := by
  apply List.countP_cons_of_neg
  rcases hv with hv | ⟨name, rfl⟩
  · cases v <;> first | exact Bool.false_ne_true | cases hv
  · exact Bool.false_ne_true

theorem jumps_goto {pos n m : Nat} {i j : Interpreter} :
    Stage.jumps ⟨⟨pos, .goto target⟩ :: past, n, j⟩ = Stage.jumps ⟨past, m, i⟩ + 1 :=
  List.countP_cons_of_pos rfl

/-- A step leads to a table that is right again, and leaves the same to be done. -/
theorem Step.rest_eq (h : Step e forms s t) {labels : Record Nat}
    (hknows : Knows forms s.past labels) (hfuel : s.jumps < e.fuel) :
    ∃ table, Knows forms t.past table ∧ s.rest e forms labels = t.rest e forms table := by
  obtain ⟨legs, hlegs⟩ : ∃ legs, e.fuel - s.jumps = legs + 1 := ⟨e.fuel - s.jumps - 1, by omega⟩
  cases h with
  | @next past pos i j form v hform heval hv =>
    unfold Stage.rest
    rw [jumps_next hv (m := pos) (i := i), hlegs, runLegs_form hform, heval]
    rcases hv with hv | ⟨name, rfl⟩
    · refine ⟨labels, hknows.other (by rintro name rfl; cases hv) pos, ?_⟩
      cases v <;> first | rfl | cases hv
    · exact ⟨labels.insert name pos, hknows.label name pos, rfl⟩
  | @jump past pos label i j form target hform heval hlabel =>
    refine ⟨labels, hknows.other (by simp) pos, ?_⟩
    unfold Stage.rest
    rw [jumps_goto (m := pos) (i := i), ← Nat.sub_sub, hlegs, runLegs_form hform, heval]
    dsimp only
    rw [(hknows target label).mpr hlabel]
    rfl

theorem Ends.rest_eq {r : EStateM.Result Halt Interpreter Flow} (h : Ends e forms s r)
    {labels : Record Nat} (hknows : Knows forms s.past labels) (hfuel : s.jumps < e.fuel) :
    s.rest e forms labels = r := by
  obtain ⟨legs, hlegs⟩ : ∃ legs, e.fuel - s.jumps = legs + 1 := ⟨e.fuel - s.jumps - 1, by omega⟩
  unfold Stage.rest
  rw [hlegs]
  cases h with
  | next hpos => exact runLegs_end hpos
  | leave hform heval => rw [runLegs_form hform, heval]
  | exit hform heval => rw [runLegs_form hform, heval]
  | goto hform heval hlacks =>
    rw [runLegs_form hform, heval]
    dsimp only
    rw [hlacks.get? hknows]
  | halt hform heval => rw [runLegs_form hform, heval]

/-- A body that has not ended goes on. -/
theorem ends_or_step (e : Engine) (forms : List Value) (s : Stage) :
    (∃ r, Ends e forms s r) ∨ ∃ t, Step e forms s t := by
  obtain ⟨past, pos, i⟩ := s
  cases hform : forms[pos]? with
  | none => exact .inl ⟨_, .next (List.getElem?_eq_none_iff.mp hform)⟩
  | some form =>
    cases heval : e.evaluate form i with
    | error h j => exact .inl ⟨_, .halt hform heval⟩
    | ok v j =>
      cases v with
      | leaving w => exact .inl ⟨_, .leave hform heval⟩
      | breaking w => exact .inl ⟨_, .exit hform heval⟩
      | goto target =>
        by_cases hlabel : ∃ label, LabelAt forms past target label
        · obtain ⟨label, hlabel⟩ := hlabel
          exact .inr ⟨_, .jump hform heval hlabel⟩
        · exact .inl ⟨_, .goto hform heval (lacks_of_not_labelAt hlabel)⟩
      | label name => exact .inr ⟨_, .next hform heval (.inr ⟨name, rfl⟩)⟩
      | _ => exact .inr ⟨_, .next hform heval (.inl rfl)⟩

/-! ## The whole course -/

/-- A step goes to the next form, or it is a jump. -/
theorem Step.goes_on (h : Step e forms s t) :
    t.jumps = s.jumps ∧ s.pos < forms.length ∧ t.pos = s.pos + 1 ∨ t.jumps = s.jumps + 1 := by
  cases h with
  | next hform _ hv =>
    obtain ⟨hlt, -⟩ := List.getElem?_eq_some_iff.mp hform
    exact .inl ⟨jumps_next hv, hlt, rfl⟩
  | jump => exact .inr jumps_goto

theorem Steps.rest_eq (h : Steps e forms s t) {labels : Record Nat}
    (hknows : Knows forms s.past labels) (hfuel : t.jumps < e.fuel) :
    ∃ table, Knows forms t.past table ∧ s.rest e forms labels = t.rest e forms table := by
  induction h with
  | refl => exact ⟨labels, hknows, rfl⟩
  | @tail u t _ hstep ih =>
    have hgoes := hstep.goes_on
    have hless : u.jumps < e.fuel := by omega
    obtain ⟨table, htable, hrest⟩ := ih hless
    obtain ⟨table', htable', hrest'⟩ := hstep.rest_eq htable hless
    exact ⟨table', htable', hrest.trans hrest'⟩

/-- From every stage a body comes to an end or to the last jump that the fuel allows. -/
theorem exists_steps (s : Stage) {labels : Record Nat} (hknows : Knows forms s.past labels)
    (hfuel : s.jumps ≤ e.fuel) :
    ∃ t, Steps e forms s t ∧
      (t.jumps < e.fuel ∧ Ends e forms t (s.rest e forms labels) ∨
        t.jumps = e.fuel ∧ s.rest e forms labels = .error .outOfFuel t.state) := by
  rcases Nat.lt_or_eq_of_le hfuel with hless | heq
  · rcases ends_or_step e forms s with ⟨r, hends⟩ | ⟨t, hstep⟩
    · refine ⟨s, .refl, .inl ⟨hless, ?_⟩⟩
      rw [hends.rest_eq hknows hless]
      exact hends
    · obtain ⟨table, htable, hrest⟩ := hstep.rest_eq hknows hless
      have hgoes := hstep.goes_on
      have hle : t.jumps ≤ e.fuel := by omega
      obtain ⟨u, hu, hcase⟩ := exists_steps t htable hle
      rw [hrest]
      exact ⟨u, .head hstep hu, hcase⟩
  · exact ⟨s, .refl, .inr ⟨heq, Stage.rest_of_jumps_eq heq labels⟩⟩
termination_by (e.fuel - s.jumps, forms.length - s.pos)
decreasing_by
  rcases hgoes with ⟨hjumps, hlt, hpos⟩ | hjumps
  · rw [hjumps, hpos]
    exact .right _ (by omega)
  · exact .left _ _ (by omega)

/-! ## The only course -/

theorem LabelAt.unique {p q : Nat} (hp : LabelAt forms past target p)
    (hq : LabelAt forms past target q) : p = q := by
  induction past with
  | nil =>
    have hget := (knows_start forms target p).mpr hp
    rw [(knows_start forms target q).mpr hq] at hget
    exact (Option.some.inj hget).symm
  | cons visit past ih =>
    rcases labelAt_cons.mp hp with ⟨hvisit, rfl⟩ | ⟨hvisit, hp⟩ <;>
      rcases labelAt_cons.mp hq with ⟨hvisit', rfl⟩ | ⟨hvisit', hq⟩
    · rfl
    · exact absurd hvisit hvisit'
    · exact absurd hvisit' hvisit
    · exact ih hp hq

theorem Step.unique {u : Stage} (h : Step e forms s t) (h' : Step e forms s u) : t = u := by
  cases h with
  | next hform heval hv =>
    cases h' with
    | next hform' heval' =>
      cases hform.symm.trans hform'
      cases heval.symm.trans heval'
      rfl
    | jump hform' heval' =>
      cases hform.symm.trans hform'
      cases heval.symm.trans heval'
      rcases hv with hv | ⟨name, hv⟩ <;> cases hv
  | jump hform heval hlabel =>
    cases h' with
    | next hform' heval' hv =>
      cases hform.symm.trans hform'
      cases heval.symm.trans heval'
      rcases hv with hv | ⟨name, hv⟩ <;> cases hv
    | jump hform' heval' hlabel' =>
      cases hform.symm.trans hform'
      cases heval.symm.trans heval'
      rw [hlabel.unique hlabel']

theorem Ends.not_step {r : EStateM.Result Halt Interpreter Flow} (h : Ends e forms s r) :
    ¬ Step e forms s t := by
  -- Both look at the same form and at what it comes to, and no value is taken up by both.
  intro hstep
  obtain ⟨form, v, j, hform, heval, hv⟩ : ∃ form v j, forms[s.pos]? = some form ∧
      e.evaluate form s.state = .ok v j ∧ ((v.isSignal = false ∨ ∃ name, v = .label name) ∨
        ∃ target label, v = .goto target ∧ LabelAt forms s.past target label) := by
    cases hstep with
    | next hform heval hv => exact ⟨_, _, _, hform, heval, .inl hv⟩
    | jump hform heval hlabel => exact ⟨_, _, _, hform, heval, .inr ⟨_, _, rfl, hlabel⟩⟩
  cases h with
  | next hpos =>
    rw [List.getElem?_eq_none hpos] at hform
    cases hform
  | leave hform' heval' | exit hform' heval' =>
    cases hform.symm.trans hform'
    cases heval.symm.trans heval'
    rcases hv with (hv | ⟨name, hv⟩) | ⟨target, label, hv, -⟩ <;> cases hv
  | goto hform' heval' hlacks =>
    cases hform.symm.trans hform'
    cases heval.symm.trans heval'
    rcases hv with (hv | ⟨name, hv⟩) | ⟨target, label, hv, hlabel⟩ <;> cases hv
    exact hlacks.not_labelAt label hlabel
  | halt hform' heval' =>
    cases hform.symm.trans hform'
    cases heval.symm.trans heval'

theorem Ends.unique {u : Stage} {r r' : EStateM.Result Halt Interpreter Flow}
    (ht : Steps e forms s t) (hr : Ends e forms t r) (hu : Steps e forms s u)
    (hr' : Ends e forms u r') : t = u := by
  have hunique : Relator.RightUnique (Step e forms) := fun _ _ _ => Step.unique
  rcases Relation.ReflTransGen.total_of_right_unique hunique ht hu with h | h
  · rcases Relation.ReflTransGen.cases_head h with rfl | ⟨v, hstep, -⟩
    · rfl
    · exact absurd hstep hr.not_step
  · rcases Relation.ReflTransGen.cases_head h with rfl | ⟨v, hstep, -⟩
    · rfl
    · exact absurd hstep hr'.not_step

theorem rest_start (e : Engine) (forms : List Value) (i : Interpreter) :
    Stage.rest e forms { state := i } (literalLabels [] 0 forms) = e.runBody forms i :=
  rfl

/-- A body takes the one course that its labels lay down: after a jump it goes on behind the form
that came to the label last or, if none has, behind the last form written out as it, and a jump to a
label that it has neither met nor written out ends it. The course is run to its end if the fuel
allows as many jumps. No jump to a label that is written out leaves the body. -/
theorem jumps_follow_labels (e : Engine) (forms : List Value) (i : Interpreter) :
    (∃ t, Steps e forms { state := i } t ∧
      (t.jumps < e.fuel ∧ Ends e forms t (e.runBody forms i) ∨
        t.jumps = e.fuel ∧ e.runBody forms i = .error .outOfFuel t.state)) ∧
    (∀ t r, Steps e forms { state := i } t → Ends e forms t r →
      (t.jumps < e.fuel → e.runBody forms i = r) ∧
        ∀ u r', Steps e forms { state := i } u → Ends e forms u r' → t = u) ∧
    (∀ target j, e.runBody forms i = .ok (.goto target) j →
      ∀ form ∈ forms, ¬ form.IsLabel target) := by
  have hcourse := exists_steps (e := e) { state := i } (knows_start forms) (Nat.zero_le _)
  rw [rest_start] at hcourse
  refine ⟨hcourse, ?_, ?_⟩
  · intro t r hsteps hends
    refine ⟨fun hfuel => ?_, fun u r' hu hr' => hends.unique hsteps hu hr'⟩
    obtain ⟨table, htable, hrest⟩ := Steps.rest_eq hsteps (knows_start forms) hfuel
    rw [← rest_start, hrest, hends.rest_eq htable hfuel]
  · intro target j hrun
    obtain ⟨t, -, ⟨-, hends⟩ | ⟨-, hout⟩⟩ := hcourse
    · rw [hrun] at hends
      cases hends with
      | goto _ _ hlacks => exact hlacks.written
    · rw [hrun] at hout
      cases hout

def twiceLabelled : List Value :=
  [.expr [.primitive 0 "goto" .goto, .symbol "a"], .expr [.symbol "label", .symbol "a"], .int 1,
    .expr [.symbol "label", .symbol "a"], .int 2]

-- The jump goes behind the second of the two labels, and neither is ever evaluated.
theorem jumps_follow_labels_forward :
    let last : Stage := ⟨[⟨4, .int 2⟩, ⟨0, .goto "a"⟩], 5, { maxDepth := 1 }⟩
    Steps (.ofFuel 5) twiceLabelled { state := { maxDepth := 1 } } last ∧
    Ends (.ofFuel 5) twiceLabelled last (.ok (.next (.int 2)) { maxDepth := 1 }) ∧
    last.jumps < 5 ∧
    (Engine.ofFuel 5).runBody twiceLabelled { maxDepth := 1 } =
      .ok (.next (.int 2)) { maxDepth := 1 } := by
  intro last
  have hlast : LastWritten twiceLabelled "a" 3 :=
    ⟨twiceLabelled.take 3, twiceLabelled[3], [.int 2], rfl, .inl rfl, by simp [Value.IsLabel], rfl⟩
  have hjump : Step (.ofFuel 5) twiceLabelled { state := { maxDepth := 1 } }
      ⟨[⟨0, .goto "a"⟩], 4, { maxDepth := 1 }⟩ := .jump rfl rfl (.written (by simp) hlast)
  have hsteps : Steps (.ofFuel 5) twiceLabelled { state := { maxDepth := 1 } } last :=
    .head hjump (.single (.next rfl rfl (.inl rfl)))
  have hends : Ends (.ofFuel 5) twiceLabelled last (.ok (.next (.int 2)) { maxDepth := 1 }) :=
    .next (Nat.le_refl _)
  have hfuel : last.jumps < 5 := by decide
  exact ⟨hsteps, hends, hfuel, ((jumps_follow_labels _ _ _).2.1 _ _ hsteps hends).1 hfuel⟩

end Body

end Lisplet
