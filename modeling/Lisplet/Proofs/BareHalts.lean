import Lisplet.Proofs.Operations
import Lisplet.Proofs.Storing

/-!
# Bare halts

An error is bare as long as it has left no expression: its trail is empty. Whatever an operation has
to complain about, it raises a bare error. Two kinds of errors bring a trail along when they are
raised: those of the reader, and those that a program throws once more after it has caught them.

With no cell in use an operation halts for lack of arguments or of fuel, if not with an error. `set@`
alone can come upon a cell in use, which is the list that it has itself taken hold of.
-/

namespace Lisplet

open Eval

/-- A halt that has nothing to do with anything that went before. -/
def Halt.IsBare : Halt → Prop
  | .error err => err.trail = []
  | .crash c => c = .missingArgument
  | .outOfFuel => True

/-- Begun with no cell in use, the computation leaves none in use, and it halts only with `R`. -/
def Eval.Halts {α : Type} (R : Halt → Prop) (x : Eval α) : Prop :=
  ∀ i, i.uses = [] →
    match x i with
    | .ok _ j => j.uses = []
    | .error h j => j.uses = [] ∧ R h

abbrev Eval.Bare {α : Type} (x : Eval α) : Prop :=
  x.Halts Halt.IsBare

variable {α β : Type} {x : Eval α} {f : α → Eval β}

theorem Eval.Halts.mono {R R' : Halt → Prop} (hx : x.Halts R) (h : ∀ halt, R halt → R' halt) :
    x.Halts R' := by
  intro i hidle
  have hend := hx i hidle
  cases hr : x i with
  | ok a j =>
    rw [hr] at hend
    exact hend
  | error halt j =>
    rw [hr] at hend
    exact ⟨hend.1, h halt hend.2⟩

/-! ## Sequencing, looking and brackets -/

theorem bare_of_total (hx : ∀ i, ∃ a j, x i = .ok a j ∧ j.uses = i.uses) : x.Bare := by
  intro i hidle
  obtain ⟨a, j, hr, huses⟩ := hx i
  rw [hr]
  exact huses.trans hidle

theorem bare_pure (a : α) : (pure a : Eval α).Bare :=
  bare_of_total fun i => ⟨a, i, rfl, rfl⟩

theorem bare_throw {h : Halt} (hbare : h.IsBare) : (throw h : Eval α).Bare :=
  fun _ hidle => ⟨hidle, hbare⟩

theorem bare_fail (cause : Cause) : (fail cause : Eval α).Bare :=
  bare_throw (h := .error { cause }) rfl

theorem bare_missingArgument : (missingArgument : Eval α).Bare :=
  bare_throw (h := .crash .missingArgument) rfl

theorem bare_outOfFuel : (outOfFuel : Eval α).Bare :=
  bare_throw (h := .outOfFuel) trivial

theorem bare_bind (hx : x.Bare) (hf : ∀ a, (f a).Bare) : (x >>= f).Bare := by
  intro i hidle
  have hfirst := hx i hidle
  cases hr : x i with
  | ok a j =>
    rw [hr] at hfirst
    rw [bind_of_ok hr]
    exact hf a j hfirst
  | error h j =>
    rw [hr] at hfirst
    rw [bind_of_error hr]
    exact hfirst

theorem bare_looking {reads : Heap → Nat → Bool} (hx : x.Bare) : (looking reads x).Bare := by
  intro i hidle
  rw [looking_of_idle hidle]
  exact hx i hidle

theorem bare_text (v : Value) : (text v).Bare :=
  bare_looking (bare_of_total fun _ => ⟨_, _, rfl, rfl⟩)

theorem bare_plainText (v : Value) : (plainText v).Bare :=
  bare_looking (bare_of_total fun _ => ⟨_, _, rfl, rfl⟩)

theorem bare_items (cell : Nat) : (items cell).Bare :=
  bare_looking (bare_of_total fun _ => ⟨_, _, rfl, rfl⟩)

theorem bare_fields (cell : Nat) : (fields cell).Bare :=
  bare_looking (bare_of_total fun _ => ⟨_, _, rfl, rfl⟩)

theorem bare_copyList (cell : Nat) : (copyList cell).Bare :=
  bare_looking (bare_of_total fun _ => ⟨_, _, rfl, rfl⟩)

theorem bare_write (cell : Nat) (contents : Cell) : (write cell contents).Bare := by
  intro i hidle
  rw [write_of_idle hidle]
  exact hidle

theorem bare_newList (vs : List Value) : (newList vs).Bare :=
  bare_of_total fun _ => ⟨_, _, rfl, rfl⟩

theorem bare_newStruct (r : Record Value) : (newStruct r).Bare :=
  bare_of_total fun _ => ⟨_, _, rfl, rfl⟩

theorem bare_load (forms : List Form) : (load forms).Bare :=
  bare_of_total fun _ => ⟨_, _, rfl, rfl⟩

theorem bare_freshId : freshId.Bare :=
  bare_of_total fun _ => ⟨_, _, rfl, rfl⟩

theorem bare_setVariable (name : String) (v : Value) : (setVariable name v).Bare :=
  bare_of_total fun _ => ⟨_, _, rfl, rfl⟩

theorem bare_failWith (cause : String → Cause) (v : Value) : (failWith cause v : Eval α).Bare :=
  bare_bind (bare_text v) fun t => bare_fail (cause t)

theorem bare_lookup (name : String) : (lookup name).Bare := by
  intro i hidle
  unfold lookup Environment.lookup
  cases i.env.get? name with
  | some v => exact hidle
  | none => exact ⟨hidle, rfl⟩

theorem bare_rescue {handler : Error → Eval α} (hx : x.Bare) (hhandler : ∀ e, (handler e).Bare) :
    (rescue x handler).Bare := by
  intro i hidle
  have hact := hx i hidle
  unfold rescue
  cases hr : x i with
  | ok a j =>
    rw [hr] at hact
    exact hact
  | error h j =>
    rw [hr] at hact
    cases h with
    | error e => exact hhandler e j hact.1
    | crash c => exact hact
    | outOfFuel => exact hact

/-! ## Paths, signals and kinds -/

theorem bare_follow (path : String) (keys : List String) (v : Value) :
    (follow path v keys).Bare := by
  induction keys generalizing v with
  | nil => cases v <;> exact bare_pure _
  | cons key keys ih =>
    cases v with
    | struct cell =>
      apply bare_bind (bare_fields cell)
      intro r
      split
      · exact ih _
      · exact bare_fail _
    | _ => exact bare_failWith _ _

theorem bare_resolve (path : String) : (resolve path).Bare := by
  unfold resolve
  split
  · exact bare_lookup path
  · exact bare_bind (bare_lookup _) fun v => bare_follow path _ v

theorem bare_assign (path : String) (v : Value) : (Eval.assign path v).Bare := by
  unfold Eval.assign
  split
  · exact bare_fail _
  · split
    · exact bare_bind (bare_setVariable path v) fun _ => bare_pure v
    · apply bare_bind (bare_resolve _)
      intro target
      split
      · apply bare_bind (bare_fields _)
        intro r
        exact bare_bind (bare_write _ _) fun _ => bare_pure v
      · exact bare_failWith _ _

theorem bare_escalate (v : Value) : (escalate v).Bare := by
  unfold escalate
  split
  · exact bare_fail _
  · exact bare_pure _

theorem bare_accept (kind : Kind) (v : Value) : (accept kind v).Bare := by
  unfold accept
  split
  · exact bare_pure _
  · exact bare_failWith _ _

theorem bare_closureResult (v : Value) : (closureResult v).Bare := by
  unfold closureResult
  split
  · exact bare_pure _
  · exact bare_fail _
  · exact bare_fail _
  · exact bare_fail _
  · exact bare_pure _

/-! ## Arithmetic and comparison -/

open Builtin

theorem bare_combine (op : Arithmetic) (m n : Number) : (ofExcept (op.combine m n)).Bare := by
  unfold Arithmetic.combine
  split
  · split
    · exact bare_pure _
    · exact bare_fail _
  · exact bare_pure _

theorem bare_number (v : Value) : (number v).Bare := by
  unfold number
  split
  · exact bare_pure _
  · exact bare_pure _
  · exact bare_failWith _ _

theorem bare_fold (op : Arithmetic) (total : Number) (args : List Value) :
    (fold op total args).Bare := by
  induction args generalizing total with
  | nil => exact bare_pure total
  | cons v vs ih =>
    apply bare_bind (bare_number v)
    intro n
    exact bare_bind (bare_combine op total n) ih

theorem bare_subtract (args : List Value) : (subtract args).Bare := by
  unfold subtract
  split
  · exact bare_missingArgument
  · apply bare_bind (bare_number _)
    intro n
    exact bare_bind (bare_combine _ _ n) fun _ => bare_pure _
  · apply bare_bind (bare_number _)
    intro n
    exact bare_bind (bare_fold _ n _) fun _ => bare_pure _

theorem bare_quotient (total : Number) (args : List Value) : (quotient total args).Bare := by
  induction args generalizing total with
  | nil => exact bare_pure total
  | cons v vs ih =>
    apply bare_bind (bare_number v)
    intro n
    split
    · exact bare_fail _
    · exact bare_bind (bare_combine _ total n) ih

theorem bare_divide (args : List Value) : (divide args).Bare := by
  unfold divide
  split
  · exact bare_missingArgument
  · apply bare_bind (bare_number _)
    intro n
    exact bare_bind (bare_quotient n _) fun _ => bare_pure _

theorem bare_modulo (args : List Value) : (modulo args).Bare := by
  unfold modulo
  split
  · split
    · exact bare_fail _
    · split
      · exact bare_pure _
      · exact bare_fail _
  · exact bare_failWith _ _
  · exact bare_missingArgument

theorem bare_order (v w : Value) : (order v w).Bare := by
  unfold order
  split
  · exact bare_pure _
  · exact bare_pure _
  · split
    · exact bare_failWith _ _
    · exact bare_failWith _ _
    · split
      · exact bare_pure _
      · apply bare_bind (bare_text v)
        intro s
        exact bare_bind (bare_text w) fun t => bare_fail _

theorem bare_comparison (holds : Ordering → Bool) (args : List Value) :
    (comparison holds args).Bare := by
  unfold comparison
  split
  · exact bare_bind (bare_order _ _) fun _ => bare_pure _
  · exact bare_missingArgument

theorem bare_equality (expected : Bool) (args : List Value) : (equality expected args).Bare := by
  unfold equality
  split
  · exact bare_looking (bare_of_total fun _ => ⟨_, _, rfl, rfl⟩)
  · exact bare_missingArgument

theorem bare_not (args : List Value) : (Builtin.not args).Bare := by
  unfold Builtin.not
  split
  · exact bare_pure _
  · exact bare_missingArgument

theorem bare_toInt (args : List Value) : (toInt args).Bare := by
  unfold toInt
  split
  · exact bare_pure _
  · exact bare_pure _
  · exact bare_pure _
  · exact bare_pure _
  · exact bare_missingArgument

theorem bare_toDouble (args : List Value) : (toDouble args).Bare := by
  unfold toDouble
  split
  · exact bare_pure _
  · exact bare_pure _
  · split <;> exact bare_pure _
  · exact bare_pure _
  · exact bare_missingArgument

/-! ## Texts, lists and structs -/

theorem bare_plainTexts (args : List Value) : (plainTexts args).Bare := by
  induction args with
  | nil => exact bare_pure []
  | cons v vs ih =>
    apply bare_bind (bare_plainText v)
    intro t
    exact bare_bind ih fun ts => bare_pure (t :: ts)

theorem bare_count (args : List Value) : (count args).Bare := by
  unfold count
  split
  · exact bare_missingArgument
  · split
    · exact bare_pure _
    · exact bare_pure _
    · exact bare_bind (bare_items _) fun _ => bare_pure _
    · exact bare_bind (bare_fields _) fun _ => bare_pure _
    · exact bare_failWith _ _

theorem bare_append (args : List Value) : (Builtin.append args).Bare := by
  unfold Builtin.append
  split
  · exact bare_missingArgument
  · exact bare_newList _
  · exact bare_bind (bare_items _) fun _ => bare_newList _
  · exact bare_failWith _ _

theorem bare_structKey (v : Value) : (structKey v).Bare := by
  unfold structKey
  split
  · exact bare_pure _
  · exact bare_pure _
  · exact bare_pure _
  · exact bare_failWith _ _

theorem bare_pairs (record : Record Value) (args : List Value) : (pairs record args).Bare := by
  fun_induction pairs record args with
  | case1 record => exact bare_pure record
  | case2 record v => exact bare_fail _
  | case3 record key v rest ih => exact bare_bind (bare_structKey key) ih

theorem bare_struct (args : List Value) : (Builtin.struct args).Bare := by
  unfold Builtin.struct
  split
  · exact bare_fail _
  · exact bare_bind (bare_pairs [] args) bare_newStruct

theorem bare_keys (args : List Value) : (Builtin.keys args).Bare := by
  unfold Builtin.keys
  split
  · exact bare_missingArgument
  · exact bare_bind (bare_fields _) fun _ => bare_newList _
  · exact bare_failWith _ _

theorem bare_listIndex (length : Nat) (v : Value) : (listIndex length v).Bare := by
  unfold listIndex
  split
  · split
    · exact bare_pure _
    · exact bare_fail _
  · exact bare_failWith _ _

theorem bare_fetch (args : List Value) : (fetch args).Bare := by
  unfold fetch
  split
  · apply bare_bind (bare_structKey _)
    intro key
    exact bare_bind (bare_fields _) fun _ => bare_pure _
  · rw [whileReading_item]
    apply bare_bind (bare_items _)
    intro items
    exact bare_bind (bare_listIndex _ _) fun _ => bare_pure _
  · exact bare_bind (bare_listIndex _ _) fun _ => bare_pure _
  · exact bare_failWith _ _
  · exact bare_missingArgument

-- Only an index that is no integer is looked at while the list is in use.
theorem bare_store {args : List Value}
    (hindex : ∀ a index v rest, args = .list a :: index :: v :: rest → ∃ n, index = .int n) :
    (store args).Bare := by
  unfold store
  split
  · apply bare_bind (bare_structKey _)
    intro key
    apply bare_bind (bare_fields _)
    intro r
    exact bare_bind (bare_write _ _) fun _ => bare_pure _
  next a index v rest =>
    obtain ⟨n, rfl⟩ := hindex a index v rest rfl
    have hlist : ∀ length, (whileWriting a (listIndex length (.int n))).Bare := by
      intro length i hidle
      rw [whileWriting_of_idle hidle, listIndex]
      by_cases hn : 0 ≤ n.toInt ∧ n.toInt < length
      · rw [if_pos hn]
        exact hidle
      · rw [if_neg hn]
        exact ⟨hidle, rfl⟩
    apply bare_bind (bare_items _)
    intro items
    apply bare_bind (hlist _)
    intro n
    exact bare_bind (bare_write _ _) fun _ => bare_pure _
  · exact bare_failWith _ _
  · exact bare_missingArgument

/-! ## The console and introspection -/

theorem bare_print (args : List Value) : (print args).Bare :=
  bare_bind (bare_plainTexts args) fun _ => bare_of_total fun _ => ⟨_, _, rfl, rfl⟩

theorem bare_optionalText (args : List Value) : (optionalText args).Bare := by
  unfold optionalText
  split
  · exact bare_pure _
  · exact bare_plainText _
  · exact bare_failWith _ _

theorem bare_read (args : List Value) : (Builtin.read args).Bare :=
  bare_bind (bare_optionalText args) fun _ => bare_of_total fun _ => ⟨_, _, rfl, rfl⟩

theorem bare_help (args : List Value) : (Builtin.help args).Bare :=
  bare_bind (bare_optionalText args) fun _ => bare_of_total fun _ => ⟨_, _, rfl, rfl⟩

theorem bare_typeName (args : List Value) : (Builtin.typeName args).Bare := by
  unfold Builtin.typeName
  split
  · exact bare_pure _
  · exact bare_missingArgument

theorem bare_bound (args : List Value) : (bound args).Bare := by
  unfold bound
  split
  · exact bare_rescue (bare_bind (bare_resolve _) fun _ => bare_pure _) fun _ => bare_pure _
  · exact bare_failWith _ _
  · exact bare_missingArgument

/-! ## Names, jumps and functions -/

theorem bare_localName (v : Value) : (localName v).Bare := by
  unfold localName
  split
  · split
    · exact bare_pure _
    · exact bare_failWith _ _
  · exact bare_failWith _ _

theorem bare_localNames (vs : List Value) : (localNames vs).Bare := by
  induction vs with
  | nil => exact bare_pure []
  | cons v vs ih =>
    apply bare_bind (bare_localName v)
    intro name
    exact bare_bind ih fun names => bare_pure (name :: names)

theorem bare_blockFrame (v : Value) : (blockFrame v).Bare := by
  unfold blockFrame
  split
  · exact bare_fields _
  · rw [whileReading_names]
    apply bare_bind (bare_items _)
    intro items
    exact bare_bind (bare_localNames items) fun _ => bare_pure _
  · exact bare_pure _
  · exact bare_failWith _ _

theorem bare_labelName (v : Value) : (labelName v).Bare := by
  unfold labelName
  split
  · exact bare_pure _
  · exact bare_failWith _ _

theorem bare_label (args : List Value) : (label args).Bare := by
  unfold label
  split
  · exact bare_fail _
  · exact bare_bind (bare_labelName _) fun _ => bare_pure _
  · exact bare_failWith _ _

theorem bare_goto (args : List Value) : (goto args).Bare := by
  unfold goto
  split
  · exact bare_fail _
  · exact bare_bind (bare_labelName _) fun _ => bare_pure _
  · exact bare_failWith _ _

theorem bare_loopVariable (v : Value) : (loopVariable v).Bare := by
  unfold loopVariable
  split
  · exact bare_localName _
  · exact bare_failWith _ _

theorem bare_handlerName (v : Value) : (handlerName v).Bare := by
  unfold handlerName
  split
  · split
    · exact bare_pure _
    · exact bare_failWith _ _
  · split
    · exact bare_pure _
    · exact bare_failWith _ _
  · exact bare_failWith _ _

theorem bare_nameList (v : Value) : (nameList v).Bare := by
  unfold nameList
  split
  · exact bare_pure _
  · exact bare_localNames _
  · exact bare_bind (bare_items _) bare_localNames
  · exact bare_failWith _ _

theorem bare_capture (captured : Record Value) (names : List String) :
    (capture captured names).Bare := by
  induction names generalizing captured with
  | nil => exact bare_pure captured
  | cons name names ih => exact bare_bind (bare_resolve name) fun v => ih _

theorem bare_lambda (args : List Value) : (lambda args).Bare := by
  unfold lambda
  split
  · apply bare_bind (bare_nameList _)
    intro names
    apply bare_bind (bare_capture [] names)
    intro captured
    apply bare_bind (bare_nameList _)
    intro params
    exact bare_bind bare_freshId fun id => bare_pure _
  · exact bare_missingArgument

/-! ## Operations that do not evaluate -/

/-- The halts that are not bare, and which operations have them. -/
inductive Operation.Brings : Operation → List Value → Halt → Prop
  /-- `eval` raises the errors of the reader. -/
  | eval {source : String} {rest : List Value} {err : Error} :
    Lisplet.read source = .error err → Brings .eval (.str source :: rest) (.error err)
  /-- `throw` raises the error that it is given. -/
  | throw {rest : List Value} {err : Error} : Brings .throw (.error err :: rest) (.error err)
  /-- `set@` crashes over a list that its index, which is no integer, shows. -/
  | store {a : Nat} {index v : Value} {rest : List Value} :
    (∀ n, index ≠ .int n) → Brings .store (.list a :: index :: v :: rest) (.crash .cellInUse)

def Operation.HaltsWith (op : Operation) (args : List Value) (h : Halt) : Prop :=
  h.IsBare ∨ op.Brings args h

variable {op : Operation} {args : List Value}

theorem Eval.Bare.haltsWith {x : Eval Value} (hx : x.Bare) : x.Halts (op.HaltsWith args) :=
  hx.mono fun _ => .inl

theorem halts_throw (args : List Value) :
    (Builtin.throw args).Halts (Operation.throw.HaltsWith args) := by
  unfold Builtin.throw
  split
  · exact (bare_fail _).haltsWith
  · exact fun i hidle => ⟨hidle, .inr .throw⟩
  · exact (bare_failWith _ _).haltsWith
  · exact bare_missingArgument.haltsWith

theorem halts_store (args : List Value) :
    (Builtin.store args).Halts (Operation.store.HaltsWith args) := by
  by_cases hindex : ∀ a index v rest, args = .list a :: index :: v :: rest → ∃ n, index = .int n
  · exact (bare_store hindex).haltsWith
  · simp only [not_forall, not_exists] at hindex
    obtain ⟨a, index, v, rest, rfl, hindex⟩ := hindex
    intro i hidle
    rw [store_of_ne_int hidle a hindex]
    by_cases hshows : i.heap.shows a index = true
    · rw [if_pos hshows]
      exact ⟨hidle, .inr (.store hindex)⟩
    · rw [if_neg hshows]
      exact ⟨hidle, .inl rfl⟩

/-- The halts of an operation that does not evaluate are bare, apart from those of `throw` and
`set@`. -/
theorem halts_run {e : Engine} (hplain : op.evaluates = false) (args : List Value) :
    (op.run e args).Halts (op.HaltsWith args) := by
  cases op with
  | throw => exact halts_throw args
  | store => exact halts_store args
  | label => exact (bare_label args).haltsWith
  | goto => exact (bare_goto args).haltsWith
  | lambda => exact (bare_lambda args).haltsWith
  | add | multiply => exact (bare_bind (bare_fold _ _ args) fun _ => bare_pure _).haltsWith
  | subtract => exact (bare_subtract args).haltsWith
  | divide => exact (bare_divide args).haltsWith
  | modulo => exact (bare_modulo args).haltsWith
  | less | greater | atMost | atLeast => exact (bare_comparison _ args).haltsWith
  | equal | different => exact (bare_equality _ args).haltsWith
  | not => exact (bare_not args).haltsWith
  | toInt => exact (bare_toInt args).haltsWith
  | toDouble => exact (bare_toDouble args).haltsWith
  | concatenate => exact (bare_bind (bare_plainTexts args) fun _ => bare_pure _).haltsWith
  | list => exact (bare_newList args).haltsWith
  | count => exact (bare_count args).haltsWith
  | append => exact (bare_append args).haltsWith
  | struct => exact (bare_struct args).haltsWith
  | keys => exact (bare_keys args).haltsWith
  | fetch => exact (bare_fetch args).haltsWith
  | print => exact (bare_print args).haltsWith
  | read => exact (bare_read args).haltsWith
  | help => exact (bare_help args).haltsWith
  | typeName => exact (bare_typeName args).haltsWith
  | bound => exact (bare_bound args).haltsWith
  | native => exact (bare_newList args).haltsWith
  | _ => cases hplain

end Lisplet
