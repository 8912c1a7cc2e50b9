import Lisplet.Proofs.Layout

/-!
# Safe computations

A computation is safe under a layout if, from every state with this layout, it ends in a state whose
layout has grown at most, and with a result that fits there. The rules for sequencing and for
brackets hand the grown layout on, and what fitted before still fits. Operations that do not
evaluate anything are safe on arguments that fit the roles in which they take them.

One crash is kept free: a computation that watches itself can raise it as an alarm, and safety
says that it does not.
-/

namespace Lisplet

/-- The halt that no evaluation comes to by itself. -/
def Halt.alarm : Halt :=
  .crash .characterCut

namespace Layout

/-- A result as it should be: a layout that has grown, a value with the property `Q` under it, and
no alarm. -/
def Ends (L : Layout) {α : Type} (Q : Layout → α → Prop) :
    EStateM.Result Halt Interpreter α → Prop
  | .ok a j => ∃ M : Layout, L.Grows M ∧ M.Holds j ∧ Q M a
  | .error h j => (∃ M : Layout, L.Grows M ∧ M.Holds j) ∧ h ≠ .alarm

/-- From every state with this layout the computation ends as it should. -/
def Safe (L : Layout) {α : Type} (Q : Layout → α → Prop) (x : Eval α) : Prop :=
  ∀ i, L.Holds i → L.Ends Q (x i)

variable {L M : Layout} {α β : Type} {Q : Layout → α → Prop} {R : Layout → β → Prop}

theorem Ends.shrink (hg : L.Grows M) {r : EStateM.Result Halt Interpreter α} (h : M.Ends Q r) :
    L.Ends Q r := by
  cases r with
  | ok a j =>
    obtain ⟨N, hN, hj, ha⟩ := h
    exact ⟨N, hg.trans hN, hj, ha⟩
  | error e j =>
    obtain ⟨⟨N, hN, hj⟩, he⟩ := h
    exact ⟨⟨N, hg.trans hN, hj⟩, he⟩

/-! ## Sequencing -/

theorem safe_pure {a : α} (h : Q L a) : L.Safe Q (pure a) :=
  fun _ hi => ⟨L, .refl L, hi, h⟩

theorem safe_bind {x : Eval α} {f : α → Eval β} (hx : L.Safe Q x)
    (hf : ∀ M, L.Grows M → ∀ a, Q M a → M.Safe R (f a)) : L.Safe R (x >>= f) := by
  intro i hi
  have hxi := hx i hi
  change L.Ends R (EStateM.bind x f i)
  unfold EStateM.bind
  cases hr : x i with
  | error h j =>
    rw [hr] at hxi
    exact hxi
  | ok a j =>
    rw [hr] at hxi
    obtain ⟨M, hg, hj, ha⟩ := hxi
    exact (hf M hg a ha j hj).shrink hg

theorem Safe.mono {Q' : Layout → α → Prop} {x : Eval α} (hx : L.Safe Q x)
    (h : ∀ M a, Q M a → Q' M a) : L.Safe Q' x := by
  intro i hi
  have hxi := hx i hi
  cases hr : x i with
  | error _ _ =>
    rw [hr] at hxi
    exact hxi
  | ok a j =>
    rw [hr] at hxi
    obtain ⟨M, hg, hj, ha⟩ := hxi
    exact ⟨M, hg, hj, h M a ha⟩

theorem safe_throw {h : Halt} (hh : h ≠ .alarm) : L.Safe Q (throw h) :=
  fun _ hi => ⟨⟨L, .refl L, hi⟩, hh⟩

theorem safe_error (e : Error) : L.Safe Q (throw (.error e)) :=
  safe_throw nofun

theorem safe_fail (cause : Cause) : L.Safe Q (Eval.fail cause) :=
  safe_error { cause }

theorem safe_outOfFuel : L.Safe Q Eval.outOfFuel :=
  safe_throw nofun

theorem safe_missingArgument : L.Safe Q Eval.missingArgument :=
  safe_throw (by decide)

theorem safe_ofExcept {x : Except Error α} (h : ∀ a, x = .ok a → Q L a) :
    L.Safe Q (Eval.ofExcept x) := by
  cases x with
  | ok a => exact safe_pure (h a rfl)
  | error e => exact safe_error e

/-! ## Looking at the state and changing it -/

theorem safe_looking {reads : Heap → Nat → Bool} {x : Eval α} (hx : L.Safe Q x) :
    L.Safe Q (Eval.looking reads x) := by
  intro i hi
  unfold Eval.looking
  split
  · exact ⟨⟨L, .refl L, hi⟩, by decide⟩
  · exact hx i hi

theorem safe_text (v : Value) : L.Safe (fun _ _ => True) (Eval.text v) :=
  safe_looking fun _ hi => ⟨L, .refl L, hi, trivial⟩

theorem safe_plainText (v : Value) : L.Safe (fun _ _ => True) (Eval.plainText v) :=
  safe_looking fun _ hi => ⟨L, .refl L, hi, trivial⟩

theorem safe_failWith (cause : String → Cause) (v : Value) : L.Safe Q (Eval.failWith cause v) :=
  safe_bind (safe_text v) fun _ _ t _ => safe_fail (cause t)

theorem safe_tooMany (v : Value) : L.Safe Q (Eval.tooMany v) :=
  safe_failWith _ v

theorem safe_items {a : Nat} (ha : L.data a) :
    L.Safe (FitsAll · .datum) (Eval.items a) :=
  safe_looking fun _ hi => ⟨L, .refl L, hi, hi.heap.items ha⟩

theorem safe_fields {role : Role} {a : Nat} (ha : role = .datum → L.data a) :
    L.Safe (FitsFields · role) (Eval.fields a) :=
  safe_looking fun _ hi => ⟨L, .refl L, hi, hi.heap.fields ha⟩

theorem safe_lookup (name : String) : L.Safe (Fits · .datum) (Eval.lookup name) := by
  intro i hi
  unfold Eval.lookup Environment.lookup
  cases hget : i.env.get? name with
  | none => exact ⟨⟨L, .refl L, hi⟩, nofun⟩
  | some v => exact ⟨L, .refl L, hi, hi.get? hget⟩

theorem safe_newList {items : List Value} (h : L.FitsAll .datum items) :
    L.Safe (Fits · .datum) (Eval.newList items) := by
  intro i hi
  obtain ⟨M, hg, hh, hv⟩ := hi.heap.newList h
  exact ⟨M, hg, hi.withHeap hg hh, hv⟩

theorem safe_copyList {a : Nat} (ha : L.data a) :
    L.Safe (Fits · .datum) (Eval.copyList a) := by
  refine safe_looking fun i hi => ?_
  have hh := hi.heap.alloc (c := .list (i.heap.items a)) (hi.heap.items ha)
  exact ⟨_, L.grows_add _, hi.withHeap (L.grows_add _) hh, .inr rfl⟩

theorem safe_newStruct {fields : Record Value} (h : L.FitsFields .datum fields) :
    L.Safe (Fits · .datum) (Eval.newStruct fields) := by
  intro i hi
  have hh := hi.heap.alloc (c := .struct fields) h
  exact ⟨_, L.grows_add _, hi.withHeap (L.grows_add _) hh, fun _ => .inr rfl⟩

theorem safe_write (a : Nat) {c : Cell} (hc : L.FitsCell .datum c) :
    L.Safe (fun _ _ => True) (Eval.write a c) := by
  intro i hi
  unfold Eval.write
  split
  · exact ⟨⟨L, .refl L, hi⟩, by decide⟩
  · exact ⟨L, .refl L, hi.withHeap (.refl L) (hi.heap.write a hc), trivial⟩

theorem safe_load {r : Reader} {forms : List Form} (h : r.all.1 = .ok forms) :
    L.Safe (FitsAll · .form) (Eval.load forms) := by
  intro i hi
  obtain ⟨M, hg, hh, hvs⟩ :=
    hi.heap.loadAll forms (Form.readableAll_iff.mpr (Reader.readable_start h))
  exact ⟨M, hg, hi.withHeap hg hh, hvs⟩

theorem safe_freshId : L.Safe (fun _ _ => True) Eval.freshId :=
  fun _ hi => ⟨L, .refl L, ⟨hi.globals, hi.frames, hi.heap⟩, trivial⟩

theorem safe_setVariable (name : String) {v : Value} (hv : L.Fits .datum v) :
    L.Safe (fun _ _ => True) (Eval.setVariable name v) :=
  fun _ hi => ⟨L, .refl L, hi.set name hv, trivial⟩

/-! ## Brackets -/

theorem safe_inFrame {f : Record Value} (hf : L.FitsFields .datum f) {x : Eval α}
    (hx : L.Safe Q x) : L.Safe Q (Eval.inFrame f x) := by
  intro i hi
  have hxi := hx _ (hi.scope hf)
  unfold Eval.inFrame
  dsimp only
  cases hr : x { i with env := (i.env.scope f).1 } with
  | ok a j =>
    rw [hr] at hxi
    obtain ⟨M, hg, hj, ha⟩ := hxi
    exact ⟨M, hg, hj.release _, ha⟩
  | error h j =>
    rw [hr] at hxi
    obtain ⟨⟨M, hg, hj⟩, hh⟩ := hxi
    exact ⟨⟨M, hg, hj.release _⟩, hh⟩

theorem safe_whileWriting (a : Nat) {x : Eval α} (hx : L.Safe Q x) :
    L.Safe Q (Eval.whileWriting a x) := by
  intro i hi
  unfold Eval.whileWriting
  split
  · exact ⟨⟨L, .refl L, hi⟩, by decide⟩
  · have hxi := hx { i with uses := ⟨a, true⟩ :: i.uses } ⟨hi.globals, hi.frames, hi.heap⟩
    unfold Eval.during
    cases hr : x { i with uses := ⟨a, true⟩ :: i.uses } with
    | ok b j =>
      rw [hr] at hxi
      obtain ⟨M, hg, hj, hb⟩ := hxi
      exact ⟨M, hg, ⟨hj.globals, hj.frames, hj.heap⟩, hb⟩
    | error h j =>
      rw [hr] at hxi
      obtain ⟨⟨M, hg, hj⟩, hh⟩ := hxi
      exact ⟨⟨M, hg, hj.globals, hj.frames, hj.heap⟩, hh⟩

theorem safe_descend {x : Eval α} (hx : L.Safe Q x) : L.Safe Q (Eval.descend x) := by
  intro i hi
  unfold Eval.descend
  split
  · have hxi := hx { i with depth := i.depth + 1 } ⟨hi.globals, hi.frames, hi.heap⟩
    cases hr : x { i with depth := i.depth + 1 } with
    | ok b j =>
      rw [hr] at hxi
      obtain ⟨M, hg, hj, hb⟩ := hxi
      exact ⟨M, hg, ⟨hj.globals, hj.frames, hj.heap⟩, hb⟩
    | error h j =>
      rw [hr] at hxi
      obtain ⟨⟨M, hg, hj⟩, hh⟩ := hxi
      exact ⟨⟨M, hg, hj.globals, hj.frames, hj.heap⟩, hh⟩
  · exact ⟨⟨L, .refl L, hi⟩, nofun⟩

theorem safe_rescue {x : Eval α} {handler : Error → Eval α} (hx : L.Safe Q x)
    (hh : ∀ M, L.Grows M → ∀ e, M.Safe Q (handler e)) : L.Safe Q (Eval.rescue x handler) := by
  intro i hi
  have hxi := hx i hi
  unfold Eval.rescue
  split
  next a j hr =>
    rw [hr] at hxi
    exact hxi
  next e j hr =>
    rw [hr] at hxi
    obtain ⟨⟨M, hg, hj⟩, -⟩ := hxi
    exact (hh M hg e j hj).shrink hg
  next h j _ hr =>
    rw [hr] at hxi
    exact hxi

-- To leave a crumb is to catch the error, look at the text and raise the error again.
theorem leavingCrumb_eq_rescue (v : Value) (x : Eval α) :
    Eval.leavingCrumb v x =
      Eval.rescue x fun e => Eval.text v >>= fun crumb => throw (.error (e.withCrumb crumb)) := by
  funext i
  unfold Eval.leavingCrumb Eval.rescue
  split
  next => rfl
  next e j _ =>
    simp only [bind, EStateM.bind]
    cases Eval.text v j <;> rfl
  next => rfl

theorem safe_leavingCrumb (v : Value) {x : Eval α} (hx : L.Safe Q x) :
    L.Safe Q (Eval.leavingCrumb v x) := by
  rw [leavingCrumb_eq_rescue]
  refine safe_rescue hx fun M _ e => ?_
  exact safe_bind (safe_text v) fun _ _ _ _ => safe_error _

/-! ## Paths, signals and kinds -/

open Eval

theorem Safe.result {x : Eval Value} (hx : L.Safe (Fits · .datum) x) : L.Safe FitsResult x :=
  hx.mono fun _ _ h => h.result

theorem safe_follow (path : String) (keys : List String) {v : Value} (hv : L.Fits .datum v) :
    L.Safe (Fits · .datum) (follow path v keys) := by
  induction keys generalizing L v with
  | nil => cases v <;> exact safe_pure hv
  | cons key keys ih =>
    cases v with
    | struct a =>
      refine safe_bind (safe_fields hv) fun M _ fields hfields => ?_
      split
      next w hw => exact ih (hfields.get? hw)
      next => exact safe_fail _
    | _ => exact safe_failWith _ _

theorem safe_resolve (path : String) : L.Safe (Fits · .datum) (resolve path) := by
  unfold resolve
  split
  next => exact safe_lookup path
  next name keys _ => exact safe_bind (safe_lookup name) fun _ _ _ hv => safe_follow path keys hv

-- The fields that are read are data, so they can be written back with one more.
theorem safe_storeField {a : Nat} (ha : L.data a) (key : String) {v w : Value}
    (hv : L.Fits .datum v) (hw : L.Fits .datum w) :
    L.Safe (Fits · .datum) (do
      write a (.struct ((← fields a).insert key v))
      pure w) := by
  refine safe_bind (Q := (FitsFields · .datum)) (safe_fields fun _ => ha) fun M hM r hr => ?_
  refine safe_bind (safe_write a (c := .struct _) (hr.insert key (hv.mono hM))) ?_
  exact fun N hN _ _ => safe_pure (hw.mono (hM.trans hN))

theorem safe_assign (path : String) {v : Value} (hv : L.Fits .datum v) :
    L.Safe (Fits · .datum) (Eval.assign path v) := by
  unfold Eval.assign
  split
  next => exact safe_fail _
  next =>
    split
    next => exact safe_bind (safe_setVariable path hv) fun M hM _ _ => safe_pure (hv.mono hM)
    next parent key _ =>
      refine safe_bind (safe_resolve parent) fun M hM w hw => ?_
      split
      next a => exact safe_storeField (hw rfl) key (hv.mono hM) (hv.mono hM)
      next => exact safe_failWith _ _

theorem safe_escalate {v : Value} (hv : L.FitsResult v) : L.Safe FitsResult (escalate v) := by
  unfold escalate
  split
  · exact safe_fail _
  · exact safe_pure hv

/-- What a kind makes of data fits the role of the kind. -/
theorem Fits.accept {kind : Kind} {v w : Value} (hv : L.Fits .datum v)
    (hw : kind.accept? v = some w) : L.Fits kind.role w := by
  cases kind <;> cases v <;> simp [Kind.accept?, Value.isCallable] at hw <;> subst hw <;>
    first | exact hv | exact rfl | exact hv.asForm

theorem safe_accept (kind : Kind) {v : Value} (hv : L.Fits .datum v) :
    L.Safe (Fits · kind.role) (accept kind v) := by
  unfold accept
  split
  next w hw => exact safe_pure (hv.accept hw)
  next => exact safe_failWith _ _

/-! ## Arithmetic, comparison and logic -/

open Builtin

theorem fits_ofBool (b : Bool) : L.Fits .datum (.ofBool b) := by
  cases b <;> exact trivial

theorem fits_toValue (n : Number) : L.Fits .datum n.toValue := by
  cases n <;> exact trivial

theorem safe_number (v : Value) : L.Safe (fun _ _ => True) (number v) := by
  unfold number
  split
  · exact safe_pure trivial
  · exact safe_pure trivial
  · exact safe_failWith _ _

theorem safe_fold (op : Arithmetic) (total : Number) (args : List Value) :
    L.Safe (fun _ _ => True) (fold op total args) := by
  induction args generalizing L total with
  | nil => exact safe_pure trivial
  | cons v vs ih =>
    refine safe_bind (safe_number v) fun M _ n _ => ?_
    exact safe_bind (safe_ofExcept (Q := fun _ _ => True) fun _ _ => trivial) fun _ _ total _ =>
      ih total

theorem safe_add (args : List Value) : L.Safe (Fits · .datum) (Builtin.add args) :=
  safe_bind (safe_fold _ _ args) fun _ _ n _ => safe_pure (fits_toValue n)

theorem safe_multiply (args : List Value) : L.Safe (Fits · .datum) (Builtin.multiply args) :=
  safe_bind (safe_fold _ _ args) fun _ _ n _ => safe_pure (fits_toValue n)

theorem safe_subtract (args : List Value) : L.Safe (Fits · .datum) (Builtin.subtract args) := by
  match args with
  | [] => exact safe_missingArgument
  | [v] =>
    refine safe_bind (safe_number v) fun M _ n _ => ?_
    exact safe_bind (safe_ofExcept (Q := fun _ _ => True) fun _ _ => trivial) fun _ _ m _ =>
      safe_pure (fits_toValue m)
  | v :: w :: vs =>
    refine safe_bind (safe_number v) fun M _ n _ => ?_
    exact safe_bind (safe_fold _ n (w :: vs)) fun _ _ m _ => safe_pure (fits_toValue m)

theorem safe_quotient (total : Number) (args : List Value) :
    L.Safe (fun _ _ => True) (quotient total args) := by
  induction args generalizing L total with
  | nil => exact safe_pure trivial
  | cons v vs ih =>
    refine safe_bind (safe_number v) fun M _ n _ => ?_
    split
    · exact safe_fail _
    · exact safe_bind (safe_ofExcept (Q := fun _ _ => True) fun _ _ => trivial) fun _ _ total _ =>
        ih total

theorem safe_divide (args : List Value) : L.Safe (Fits · .datum) (Builtin.divide args) := by
  cases args with
  | nil => exact safe_missingArgument
  | cons v vs =>
    refine safe_bind (safe_number v) fun M _ n _ => ?_
    exact safe_bind (safe_quotient n vs) fun _ _ m _ => safe_pure (fits_toValue m)

theorem safe_modulo (args : List Value) : L.Safe (Fits · .datum) (Builtin.modulo args) := by
  unfold Builtin.modulo
  split
  next =>
    split
    · exact safe_fail _
    · split
      · exact safe_pure trivial
      · exact safe_fail _
  next => exact safe_failWith _ _
  next => exact safe_missingArgument

theorem safe_order (v w : Value) : L.Safe (fun _ _ => True) (order v w) := by
  unfold order
  split
  · exact safe_pure trivial
  · exact safe_pure trivial
  · split
    · exact safe_failWith _ _
    · exact safe_failWith _ _
    · split
      · exact safe_pure trivial
      · refine safe_bind (safe_text v) fun _ _ s _ => ?_
        exact safe_bind (safe_text w) fun _ _ t _ => safe_fail _

theorem safe_comparison (holds : Ordering → Bool) (args : List Value) :
    L.Safe (Fits · .datum) (comparison holds args) := by
  match args with
  | [] | [_] => exact safe_missingArgument
  | v :: w :: _ => exact safe_bind (safe_order v w) fun _ _ o _ => safe_pure (fits_ofBool _)

theorem safe_equality (expected : Bool) (args : List Value) :
    L.Safe (Fits · .datum) (equality expected args) := by
  match args with
  | [] | [_] => exact safe_missingArgument
  | v :: w :: _ =>
    unfold equality
    exact safe_looking fun i hi => ⟨L, .refl L, hi, fits_ofBool _⟩

theorem safe_not (args : List Value) : L.Safe (Fits · .datum) (Builtin.not args) := by
  cases args with
  | nil => exact safe_missingArgument
  | cons v vs => exact safe_pure (fits_ofBool _)

theorem fits_integerPart (d : Double) : L.Fits .datum (integerPart d) := by
  unfold integerPart
  split <;> exact trivial

theorem fits_integerOfText (s : String) : L.Fits .datum (integerOfText s) := by
  unfold integerOfText
  dsimp only
  split
  · exact trivial
  · split
    · exact fits_integerPart _
    · exact trivial

theorem safe_toInt (args : List Value) : L.Safe (Fits · .datum) (Builtin.toInt args) := by
  unfold Builtin.toInt
  split
  · exact safe_pure trivial
  · exact safe_pure (fits_integerPart _)
  · exact safe_pure (fits_integerOfText _)
  · exact safe_pure trivial
  · exact safe_missingArgument

theorem safe_toDouble (args : List Value) : L.Safe (Fits · .datum) (Builtin.toDouble args) := by
  unfold Builtin.toDouble
  split
  · exact safe_pure trivial
  · exact safe_pure trivial
  · split <;> exact safe_pure trivial
  · exact safe_pure trivial
  · exact safe_missingArgument

/-! ## Texts, lists and structs -/

theorem safe_plainTexts (args : List Value) : L.Safe (fun _ _ => True) (plainTexts args) := by
  induction args generalizing L with
  | nil => exact safe_pure trivial
  | cons v vs ih =>
    refine safe_bind (safe_plainText v) fun _ _ t _ => ?_
    exact safe_bind ih fun _ _ ts _ => safe_pure trivial

theorem safe_concatenate (args : List Value) : L.Safe (Fits · .datum) (concatenate args) :=
  safe_bind (safe_plainTexts args) fun _ _ _ _ => safe_pure trivial

theorem safe_count {args : List Value} (hargs : L.FitsAll .form args) :
    L.Safe (Fits · .datum) (count args) := by
  match args with
  | [] => exact safe_missingArgument
  | v :: _ =>
    unfold count
    split
    next h => cases h
    next w _ heq =>
      cases heq
      split
      · exact safe_pure trivial
      · exact safe_pure trivial
      · exact safe_bind (safe_items hargs.1) fun _ _ _ _ => safe_pure trivial
      · exact safe_bind (safe_fields hargs.1) fun _ _ _ _ => safe_pure trivial
      · exact safe_failWith _ _

theorem safe_append {args : List Value} (hargs : L.FitsAll .datum args) :
    L.Safe (Fits · .datum) (Builtin.append args) := by
  unfold Builtin.append
  split
  · exact safe_missingArgument
  · exact safe_newList hargs.2
  · exact safe_bind (safe_items hargs.1) fun M hM items hitems =>
      safe_newList (hitems.append (hargs.2.mono hM))
  · exact safe_failWith _ _

theorem safe_structKey (v : Value) : L.Safe (fun _ _ => True) (structKey v) := by
  unfold structKey
  split
  · exact safe_pure trivial
  · exact safe_pure trivial
  · exact safe_pure trivial
  · exact safe_failWith _ _

theorem safe_pairs {record : Record Value} {args : List Value} (hargs : L.FitsAll .datum args)
    (hrecord : L.FitsFields .datum record) :
    L.Safe (FitsFields · .datum) (pairs record args) := by
  fun_induction pairs record args generalizing L with
  | case1 record => exact safe_pure hrecord
  | case2 record v => exact safe_fail _
  | case3 record key v rest ih =>
    refine safe_bind (safe_structKey key) fun M hM name _ => ?_
    exact ih name (hargs.2.2.mono hM) ((hrecord.mono hM).insert name (hargs.2.1.mono hM))

theorem safe_struct {args : List Value} (hargs : L.FitsAll .datum args) :
    L.Safe (Fits · .datum) (Builtin.struct args) := by
  unfold Builtin.struct
  split
  · exact safe_fail _
  · exact safe_bind (safe_pairs hargs trivial) fun _ _ r hr => safe_newStruct hr

theorem fitsAll_strings (names : List String) : L.FitsAll .datum (names.map .str) := by
  rw [fitsAll_iff]
  intro v hv
  obtain ⟨s, _, rfl⟩ := List.mem_map.mp hv
  exact trivial

theorem safe_keys {args : List Value} (hargs : L.FitsAll .form args) :
    L.Safe (Fits · .datum) (Builtin.keys args) := by
  unfold Builtin.keys
  split
  · exact safe_missingArgument
  · exact safe_bind (safe_fields hargs.1) fun _ _ r _ =>
      safe_newList (fitsAll_strings (Record.keys r))
  · exact safe_failWith _ _

theorem safe_listIndex (length : Nat) (v : Value) :
    L.Safe (fun _ _ => True) (listIndex length v) := by
  unfold listIndex
  split
  · split
    · exact safe_pure trivial
    · exact safe_fail _
  · exact safe_failWith _ _

theorem safe_fetch {args : List Value} (hargs : L.FitsAll .datum args) :
    L.Safe (Fits · .datum) (fetch args) := by
  unfold fetch
  split
  next a key _ =>
    refine safe_bind (safe_structKey key) fun M hM name _ => ?_
    refine safe_bind (safe_fields (hargs.1.mono hM)) fun N _ r hr => safe_pure ?_
    cases hget : r.get? name with
    | none => exact trivial
    | some v => exact hr.get? hget
  next a index _ =>
    rw [whileReading_item]
    refine safe_bind (safe_items hargs.1) fun M _ items hitems => ?_
    exact safe_bind (safe_listIndex _ index) fun N hN n _ => safe_pure ((hitems.mono hN).getD n)
  next index _ => exact safe_bind (safe_listIndex _ index) fun _ _ _ _ => safe_pure trivial
  next => exact safe_failWith _ _
  next => exact safe_missingArgument

theorem safe_store {args : List Value} (hargs : L.FitsAll .datum args) :
    L.Safe (Fits · .datum) (store args) := by
  unfold store
  split
  next a key v _ =>
    refine safe_bind (safe_structKey key) fun M hM name _ => ?_
    have hstruct := hargs.1.mono hM
    exact safe_storeField (hstruct rfl) name (hargs.2.2.1.mono hM) hstruct
  next a index v _ =>
    refine safe_bind (safe_items hargs.1) fun M hM items hitems => ?_
    refine safe_bind (safe_whileWriting a (safe_listIndex _ index)) fun N hN n _ => ?_
    have hitem := hargs.2.2.1.mono (hM.trans hN)
    refine safe_bind (safe_write a (c := .list _) ((hitems.mono hN).set hitem n)) fun K hK _ _ => ?_
    exact safe_pure (hargs.1.mono (hM.trans (hN.trans hK)))
  next => exact safe_failWith _ _
  next => exact safe_missingArgument

/-! ## The console, errors and introspection -/

theorem safe_print (args : List Value) : L.Safe (Fits · .datum) (Builtin.print args) :=
  safe_bind (safe_plainTexts args) fun M _ _ _ _ hi =>
    ⟨M, .refl M, ⟨hi.globals, hi.frames, hi.heap⟩, trivial⟩

theorem safe_optionalText (args : List Value) : L.Safe (fun _ _ => True) (optionalText args) := by
  match args with
  | [] => exact safe_pure trivial
  | [v] => exact safe_plainText v
  | _ :: extra :: _ => exact safe_tooMany extra

theorem fits_line (line : Option String) : L.Fits .datum ((line.map Value.str).getD .nil) := by
  cases line <;> exact trivial

theorem safe_read (args : List Value) : L.Safe (Fits · .datum) (Builtin.read args) :=
  safe_bind (safe_optionalText args) fun M _ _ _ _ hi =>
    ⟨M, .refl M, ⟨hi.globals, hi.frames, hi.heap⟩, fits_line _⟩

theorem safe_help (args : List Value) : L.Safe (Fits · .datum) (Builtin.help args) :=
  safe_bind (safe_optionalText args) fun M _ _ _ _ hi => ⟨M, .refl M, hi, trivial⟩

theorem safe_throw_builtin (args : List Value) :
    L.Safe (Fits · .datum) (Builtin.throw args) := by
  unfold Builtin.throw
  split
  · exact safe_fail _
  · exact safe_error _
  · exact safe_failWith _ _
  · exact safe_missingArgument

theorem safe_typeName (args : List Value) : L.Safe (Fits · .datum) (Builtin.typeName args) := by
  cases args with
  | nil => exact safe_missingArgument
  | cons v vs => exact safe_pure trivial

theorem safe_bound (args : List Value) : L.Safe (Fits · .datum) (Builtin.bound args) := by
  unfold Builtin.bound
  split
  · refine safe_rescue ?_ fun _ _ _ => safe_pure trivial
    exact safe_bind (safe_resolve _) fun _ _ _ _ => safe_pure trivial
  · exact safe_failWith _ _
  · exact safe_missingArgument

end Layout

end Lisplet
