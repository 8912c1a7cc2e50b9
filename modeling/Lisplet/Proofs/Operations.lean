import Lisplet.Proofs.Sound

/-!
# Operations are sound

Every operation is sound under every policy that allows a primitive with it, as long as the
evaluation it is given is. An operation that is handed fewer arguments than it takes for granted
halts with a crash, so the number of its arguments is part of what it asks for.
-/

namespace Lisplet

def Operation.evaluates : Operation → Bool
  | .conditional | .block | .leave | .exitLoop | .whileLoop | .untilLoop | .doLoop | .endlessLoop
  | .forLoop | .and | .or | .assign | .eval | .attempt | .apply => true
  | _ => false

structure Engine.Sound (e : Engine) (P : Policy) : Prop where
  exhaust : P.exhaust
  evaluate : ∀ {v : Value}, P.Allows v → P.Sound P.Allows (e.evaluate v)
  apply : ∀ {f : Value} {vs : List Value}, P.Allows f → P.AllowsAll vs →
    P.Sound P.Allows (e.apply f vs)

namespace Policy

open Eval

variable {P : Policy} {e : Engine}

/-- Enough arguments, unless the policy puts up with the crash. -/
def Supplies (P : Policy) (n : Nat) (args : List Value) : Prop :=
  n ≤ args.length ∨ P.crash .missingArgument

theorem Supplies.missing {n : Nat} {args : List Value} (h : P.Supplies n args)
    (hlt : args.length < n) : P.crash .missingArgument := by
  rcases h with h | h
  · omega
  · exact h

/-! ## Paths, signals and kinds -/

theorem sound_follow (path : String) (keys : List String) {v : Value} (hv : P.Allows v) :
    P.Sound P.Allows (follow path v keys) := by
  induction keys generalizing v with
  | nil =>
    cases v <;> exact sound_pure hv
  | cons key keys ih =>
    cases v with
    | struct a =>
      refine sound_bind (sound_fields hv) fun fields hfields => ?_
      split
      next w hw => exact ih (hfields.get? hw)
      next => exact sound_fail _
    | _ => exact sound_failWith _ _

theorem sound_resolve (path : String) : P.Sound P.Allows (resolve path) := by
  unfold resolve
  split
  next => exact sound_lookup path
  next name keys _ => exact sound_bind (sound_lookup name) fun v hv => sound_follow path keys hv

theorem sound_assign (path : String) {v : Value} (hv : P.Allows v) :
    P.Sound P.Allows (Eval.assign path v) := by
  unfold Eval.assign
  split
  next => exact sound_fail _
  next =>
    split
    next => exact sound_bind (sound_setVariable path hv) fun _ _ => sound_pure hv
    next parent key _ =>
      refine sound_bind (sound_resolve parent) fun w hw => ?_
      split
      next a => exact sound_storeField hw key hv hv
      next => exact sound_failWith _ _

theorem sound_escalate {v : Value} (hv : P.Allows v) : P.Sound P.Allows (escalate v) := by
  unfold escalate
  split
  next => exact sound_fail _
  next => exact sound_pure hv

theorem sound_accept (kind : Kind) {v : Value} (hv : P.Allows v) :
    P.Sound P.Allows (accept kind v) := by
  unfold accept
  split
  next w hw => exact sound_pure (allows_accept hv hw)
  next => exact sound_failWith _ _

theorem sound_value (he : e.Sound P) {form : Value} (hform : P.Allows form)
    {next : Value → Eval Value} (hnext : ∀ v, P.Allows v → P.Sound P.Allows (next v)) :
    P.Sound P.Allows (e.value form next) := by
  refine sound_bind (he.evaluate hform) fun v hv => ?_
  split
  · exact sound_escalate hv
  · exact hnext v hv

theorem sound_sequence (he : e.Sound P) {forms : List Value} (hforms : P.AllowsAll forms)
    {result : Value} (hresult : P.Allows result) :
    P.Sound P.Allows (e.sequence forms result) := by
  induction forms generalizing result with
  | nil => exact sound_pure hresult
  | cons form rest ih => exact sound_value he hforms.1 fun v hv => ih hforms.2 hv

/-! ## Arithmetic, comparison and logic -/

open Builtin

theorem allows_ofBool (b : Bool) : P.Allows (.ofBool b) := by
  cases b <;> exact trivial

theorem allows_toValue (n : Number) : P.Allows n.toValue := by
  cases n <;> exact trivial

theorem sound_number (v : Value) : P.Sound (fun _ => True) (number v) := by
  unfold number
  split
  · exact sound_pure trivial
  · exact sound_pure trivial
  · exact sound_failWith _ _

theorem sound_fold (op : Arithmetic) (total : Number) (args : List Value) :
    P.Sound (fun _ => True) (fold op total args) := by
  induction args generalizing total with
  | nil => exact sound_pure trivial
  | cons v vs ih =>
    refine sound_bind (sound_number v) fun n _ => ?_
    exact sound_bind (sound_ofExcept fun _ _ => trivial) fun total _ => ih total

theorem sound_add (args : List Value) : P.Sound P.Allows (Builtin.add args) :=
  sound_bind (sound_fold _ _ args) fun n _ => sound_pure (allows_toValue n)

theorem sound_multiply (args : List Value) : P.Sound P.Allows (Builtin.multiply args) :=
  sound_bind (sound_fold _ _ args) fun n _ => sound_pure (allows_toValue n)

theorem sound_subtract {args : List Value} (h : P.Supplies 1 args) :
    P.Sound P.Allows (Builtin.subtract args) := by
  match args with
  | [] => exact sound_missingArgument (h.missing (by simp))
  | [v] =>
    refine sound_bind (sound_number v) fun n _ => ?_
    exact sound_bind (sound_ofExcept fun _ _ => trivial) fun m _ => sound_pure (allows_toValue m)
  | v :: w :: vs =>
    refine sound_bind (sound_number v) fun n _ => ?_
    exact sound_bind (sound_fold _ n (w :: vs)) fun m _ => sound_pure (allows_toValue m)

theorem sound_quotient (total : Number) (args : List Value) :
    P.Sound (fun _ => True) (quotient total args) := by
  induction args generalizing total with
  | nil => exact sound_pure trivial
  | cons v vs ih =>
    refine sound_bind (sound_number v) fun n _ => ?_
    split
    · exact sound_fail _
    · exact sound_bind (sound_ofExcept fun _ _ => trivial) fun total _ => ih total

theorem sound_divide {args : List Value} (h : P.Supplies 1 args) :
    P.Sound P.Allows (Builtin.divide args) := by
  match args with
  | [] => exact sound_missingArgument (h.missing (by simp))
  | v :: vs =>
    refine sound_bind (sound_number v) fun n _ => ?_
    exact sound_bind (sound_quotient n vs) fun m _ => sound_pure (allows_toValue m)

theorem sound_modulo {args : List Value} (h : P.Supplies 2 args) :
    P.Sound P.Allows (Builtin.modulo args) := by
  unfold Builtin.modulo
  split
  next =>
    split
    · exact sound_fail _
    · split
      · exact sound_pure trivial
      · exact sound_fail _
  next => exact sound_failWith _ _
  next hne =>
    refine sound_missingArgument (h.missing ?_)
    match args with
    | [] | [_] => simp
    | v :: w :: vs => exact (hne v w vs rfl).elim

theorem sound_order (v w : Value) : P.Sound (fun _ => True) (order v w) := by
  unfold order
  split
  · exact sound_pure trivial
  · exact sound_pure trivial
  · split
    · exact sound_failWith _ _
    · exact sound_failWith _ _
    · split
      · exact sound_pure trivial
      · refine sound_bind (sound_text v) fun s _ => ?_
        exact sound_bind (sound_text w) fun t _ => sound_fail _

theorem sound_comparison (holds : Ordering → Bool) {args : List Value} (h : P.Supplies 2 args) :
    P.Sound P.Allows (comparison holds args) := by
  match args with
  | [] | [_] => exact sound_missingArgument (h.missing (by simp))
  | v :: w :: _ => exact sound_bind (sound_order v w) fun o _ => sound_pure (allows_ofBool _)

theorem sound_equality (expected : Bool) {args : List Value} (h : P.Supplies 2 args) :
    P.Sound P.Allows (equality expected args) := by
  match args with
  | [] | [_] => exact sound_missingArgument (h.missing (by simp))
  | v :: w :: _ =>
    unfold equality
    exact sound_looking fun i _ => ⟨.refl i, allows_ofBool _⟩

theorem sound_not {args : List Value} (h : P.Supplies 1 args) :
    P.Sound P.Allows (Builtin.not args) := by
  match args with
  | [] => exact sound_missingArgument (h.missing (by simp))
  | v :: _ => exact sound_pure (allows_ofBool _)

theorem sound_conjunction (he : e.Sound P) {forms : List Value} (hforms : P.AllowsAll forms)
    {result : Value} (hresult : P.Allows result) :
    P.Sound P.Allows (conjunction e forms result) := by
  induction forms generalizing result with
  | nil => exact sound_pure hresult
  | cons form rest ih =>
    refine sound_value he hforms.1 fun v hv => ?_
    split
    · exact sound_pure trivial
    · exact ih hforms.2 hv

theorem sound_or (he : e.Sound P) {forms : List Value} (hforms : P.AllowsAll forms) :
    P.Sound P.Allows (Builtin.or e forms) := by
  induction forms with
  | nil => exact sound_pure trivial
  | cons form rest ih =>
    refine sound_value he hforms.1 fun v hv => ?_
    split
    · exact sound_pure hv
    · exact ih hforms.2

theorem allows_integerPart (d : Double) : P.Allows (integerPart d) := by
  unfold integerPart
  split <;> exact trivial

theorem allows_integerOfText (s : String) : P.Allows (integerOfText s) := by
  unfold integerOfText
  dsimp only
  split
  · exact trivial
  · split
    · exact allows_integerPart _
    · exact trivial

theorem sound_toInt {args : List Value} (h : P.Supplies 1 args) :
    P.Sound P.Allows (Builtin.toInt args) := by
  unfold Builtin.toInt
  split
  · exact sound_pure trivial
  · exact sound_pure (allows_integerPart _)
  · exact sound_pure (allows_integerOfText _)
  · exact sound_pure trivial
  · exact sound_missingArgument (h.missing (by simp))

theorem sound_toDouble {args : List Value} (h : P.Supplies 1 args) :
    P.Sound P.Allows (Builtin.toDouble args) := by
  unfold Builtin.toDouble
  split
  · exact sound_pure trivial
  · exact sound_pure trivial
  · split <;> exact sound_pure trivial
  · exact sound_pure trivial
  · exact sound_missingArgument (h.missing (by simp))

/-! ## Texts, lists and structs -/

theorem sound_plainTexts (args : List Value) : P.Sound (fun _ => True) (plainTexts args) := by
  induction args with
  | nil => exact sound_pure trivial
  | cons v vs ih =>
    refine sound_bind (sound_plainText v) fun t _ => ?_
    exact sound_bind ih fun ts _ => sound_pure trivial

theorem sound_concatenate (args : List Value) : P.Sound P.Allows (concatenate args) :=
  sound_bind (sound_plainTexts args) fun _ _ => sound_pure trivial

theorem sound_count {args : List Value} (hargs : P.AllowsAll args) (h : P.Supplies 1 args) :
    P.Sound P.Allows (count args) := by
  match args with
  | [] => exact sound_missingArgument (h.missing (by simp))
  | v :: _ =>
    unfold count
    split
    next h => cases h
    next w _ heq =>
      cases heq
      split
      · exact sound_pure trivial
      · exact sound_pure trivial
      · exact sound_bind (sound_items hargs.1) fun _ _ => sound_pure trivial
      · exact sound_bind (sound_fields hargs.1) fun _ _ => sound_pure trivial
      · exact sound_failWith _ _

theorem sound_append {args : List Value} (hargs : P.AllowsAll args) (h : P.Supplies 1 args) :
    P.Sound P.Allows (Builtin.append args) := by
  unfold Builtin.append
  split
  · exact sound_missingArgument (h.missing (by simp))
  · exact sound_newList hargs.2
  · exact sound_bind (sound_items hargs.1) fun items hitems => sound_newList (hitems.append hargs.2)
  · exact sound_failWith _ _

theorem sound_structKey (v : Value) : P.Sound (fun _ => True) (structKey v) := by
  unfold structKey
  split
  · exact sound_pure trivial
  · exact sound_pure trivial
  · exact sound_pure trivial
  · exact sound_failWith _ _

theorem sound_pairs {record : Record Value} {args : List Value} (hargs : P.AllowsAll args)
    (hrecord : P.AllowsFields record) (hkeys : record.keys.Nodup) :
    P.Sound (fun r => P.AllowsFields r ∧ (Record.keys r).Nodup) (pairs record args) := by
  fun_induction pairs record args with
  | case1 record => exact sound_pure ⟨hrecord, hkeys⟩
  | case2 record v => exact sound_fail _
  | case3 record key v rest ih =>
    refine sound_bind (sound_structKey key) fun name _ => ?_
    exact ih name hargs.2.2 (hrecord.insert name hargs.2.1) (Record.nodup_keys_insert hkeys name v)

theorem sound_struct {args : List Value} (hargs : P.AllowsAll args) :
    P.Sound P.Allows (Builtin.struct args) := by
  unfold Builtin.struct
  split
  · exact sound_fail _
  · refine sound_bind (sound_pairs hargs trivial (by simp [Record.keys])) fun r hr => ?_
    exact sound_newStruct hr.2 hr.1

theorem allowsAll_strings (names : List String) : P.AllowsAll (names.map .str) := by
  rw [allowsAll_iff]
  intro v hv
  obtain ⟨s, _, rfl⟩ := List.mem_map.mp hv
  exact trivial

theorem sound_keys {args : List Value} (hargs : P.AllowsAll args) (h : P.Supplies 1 args) :
    P.Sound P.Allows (Builtin.keys args) := by
  unfold Builtin.keys
  split
  · exact sound_missingArgument (h.missing (by simp))
  · exact sound_bind (sound_fields hargs.1) fun r _ =>
      sound_newList (allowsAll_strings (Record.keys r))
  · exact sound_failWith _ _

theorem sound_listIndex (length : Nat) (v : Value) :
    P.Sound (fun n => n < length) (listIndex length v) := by
  unfold listIndex
  split
  next n =>
    split
    next h => exact sound_pure (by omega)
    next => exact sound_fail _
  next => exact sound_failWith _ _

theorem failWith_ne_ok {α : Type} {cause : String → Cause} {v : Value} {i j : Interpreter} {a : α} :
    failWith cause v i ≠ .ok a j := by
  intro h
  simp only [failWith, bind, EStateM.bind] at h
  split at h <;> cases h

theorem state_listIndex {length n : Nat} {v : Value} {i j : Interpreter}
    (h : listIndex length v i = .ok n j) : j = i := by
  unfold listIndex at h
  split at h
  · split at h
    · cases h
      rfl
    · cases h
  · exact absurd h failWith_ne_ok

theorem state_whileWriting_listIndex {a length n : Nat} {v : Value} {i j : Interpreter}
    (h : whileWriting a (listIndex length v) i = .ok n j) : j = i := by
  unfold whileWriting at h
  split at h
  next => cases h
  next =>
    unfold during at h
    split at h
    next m k hk =>
      cases h
      rw [state_listIndex hk]
    next => cases h

theorem sound_fetch {args : List Value} (hargs : P.AllowsAll args) (h : P.Supplies 2 args) :
    P.Sound P.Allows (fetch args) := by
  unfold fetch
  split
  next a key _ =>
    refine sound_bind (sound_structKey key) fun name _ => ?_
    refine sound_bind (sound_fields hargs.1) fun r hr => sound_pure ?_
    cases hget : r.get? name with
    | none => exact trivial
    | some v => exact hr.get? hget
  next a index _ =>
    rw [whileReading_item]
    refine sound_bind (sound_items hargs.1) fun items hitems => ?_
    exact sound_bind (sound_listIndex _ index) fun n _ => sound_pure (hitems.getD n)
  next index _ => exact sound_bind (sound_listIndex _ index) fun _ _ => sound_pure trivial
  next => exact sound_failWith _ _
  next hne =>
    refine sound_missingArgument (h.missing ?_)
    match args with
    | [] | [_] => simp
    | v :: w :: vs => exact (hne v w vs rfl).elim

-- The list is read before its index is looked at, and looking at the index changes nothing, so the
-- items written back are those that are there.
theorem sound_storeItem {a : Nat} (ha : P.cell a) (index : Value) {v : Value} (hv : P.Allows v)
    (hc : P.crash .cellInUse) :
    P.Sound P.Allows (do
      let items ← items a
      let n ← whileWriting a (listIndex items.length index)
      write a (.list (items.set n v))
      pure (.list a)) := by
  intro i hi
  by_cases hbarred : i.barred (· == a) = true
  · have hitems : items a i = .error (.crash .cellInUse) i := if_pos hbarred
    rw [bind_of_error hitems]
    exact ⟨.refl i, hc⟩
  · have hitems : items a i = .ok (i.heap.items a) i := if_neg hbarred
    have hindex := sound_whileWriting a hc (sound_listIndex (i.heap.items a).length index) i hi
    rw [bind_of_ok hitems]
    cases hr : whileWriting a (listIndex (i.heap.items a).length index) i with
    | error h j =>
      rw [hr] at hindex
      rw [bind_of_error hr]
      exact hindex
    | ok n j =>
      rw [hr] at hindex
      rw [bind_of_ok hr]
      have hj : j = i := state_whileWriting_listIndex hr
      subst hj
      rcases hi.write_eq a (.list ((j.heap.items a).set n v)) with hwrite | ⟨-, hwrite⟩
      · rw [bind_of_ok hwrite]
        exact ⟨.storeItem j a n v ha hindex.2 hv, ha⟩
      · rw [bind_of_error hwrite]
        exact ⟨.refl j, hc⟩

theorem sound_store {args : List Value} (hargs : P.AllowsAll args) (h : P.Supplies 3 args)
    (hc : P.crash .cellInUse) : P.Sound P.Allows (store args) := by
  unfold store
  split
  next a key v _ =>
    refine sound_bind (sound_structKey key) fun name _ => ?_
    exact sound_storeField hargs.1 name hargs.2.2.1 hargs.1
  next a index v _ => exact sound_storeItem hargs.1 index hargs.2.2.1 hc
  next => exact sound_failWith _ _
  next hne =>
    refine sound_missingArgument (h.missing ?_)
    match args with
    | [] | [_] | [_, _] => simp
    | u :: v :: w :: vs => exact (hne u v w vs rfl).elim

/-! ## The console, errors and introspection -/

theorem sound_print (args : List Value) : P.Sound P.Allows (Builtin.print args) := by
  refine sound_bind (sound_plainTexts args) fun texts _ => ?_
  exact fun i _ => ⟨.print i _, trivial⟩

theorem sound_optionalText (args : List Value) : P.Sound (fun _ => True) (optionalText args) := by
  match args with
  | [] => exact sound_pure trivial
  | [v] => exact sound_plainText v
  | _ :: extra :: _ => exact sound_tooMany extra

theorem allows_line (line : Option String) : P.Allows ((line.map Value.str).getD .nil) := by
  cases line <;> exact trivial

theorem sound_read (args : List Value) : P.Sound P.Allows (Builtin.read args) := by
  refine sound_bind (sound_optionalText args) fun prompt _ => ?_
  exact fun i _ => ⟨.ask i prompt, allows_line _⟩

theorem sound_help (args : List Value) : P.Sound P.Allows (Builtin.help args) := by
  refine sound_bind (sound_optionalText args) fun start _ => ?_
  exact fun i _ => ⟨.refl i, trivial⟩

theorem sound_throw {args : List Value} (h : P.Supplies 1 args) :
    P.Sound P.Allows (Builtin.throw args) := by
  unfold Builtin.throw
  split
  · exact sound_fail _
  · exact sound_error _
  · exact sound_failWith _ _
  · exact sound_missingArgument (h.missing (by simp))

theorem sound_typeName {args : List Value} (h : P.Supplies 1 args) :
    P.Sound P.Allows (Builtin.typeName args) := by
  match args with
  | [] => exact sound_missingArgument (h.missing (by simp))
  | v :: _ => exact sound_pure trivial

theorem sound_bound {args : List Value} (h : P.Supplies 1 args) :
    P.Sound P.Allows (Builtin.bound args) := by
  unfold Builtin.bound
  split
  · refine sound_rescue ?_ fun _ => sound_pure trivial
    exact sound_bind (sound_resolve _) fun _ _ => sound_pure trivial
  · exact sound_failWith _ _
  · exact sound_missingArgument (h.missing (by simp))

end Policy

end Lisplet
