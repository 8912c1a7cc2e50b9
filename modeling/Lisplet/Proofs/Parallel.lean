import Lisplet.Proofs.Lockstep

/-!
# Operations in lockstep

Operations that do not evaluate anything keep two runs in step on arguments that are alike. What an
operation decides on, be it the shape of an argument, its text, an index or a key, is the same in
both runs, so both take the same branch.
-/

namespace Lisplet.Lockstep

open Eval Builtin Pairing

variable {S : Lockstep} {w : S.World} {n : Nesting} {α : Type} {Q : S.Link α} {v v' u u' : Value}
  {args args' : List Value}

/-! ## Paths, signals and kinds -/

theorem sim_follow (path : String) (keys : List String) (hv : (S.pairing w).Alike v v') :
    S.Simulates w n S.values (follow path v keys) (follow path v' keys) := by
  induction keys generalizing w v v' with
  | nil =>
    have halike := hv
    cases hv <;> exact sim_pure halike
  | cons key keys ih =>
    have halike := hv
    cases hv with
    | struct hab =>
      refine sim_bind (sim_fields hab) fun w' _ r t (hr : (S.pairing w').AlikeFields r t) => ?_
      rcases hr.get? key with ⟨hget, hget'⟩ | ⟨u, u', hget, hget', hu⟩
      · simp only [hget, hget']
        exact sim_fail _
      · simp only [hget, hget']
        exact ih hu
    | _ => exact sim_failWith _ halike

theorem sim_resolve (path : String) :
    S.Simulates w n S.values (resolve path) (resolve path) := by
  unfold resolve
  split
  next => exact sim_lookup path
  next name keys _ => exact sim_bind (sim_lookup name) fun _ _ _ _ hv => sim_follow path keys hv

theorem sim_assign (path : String) (hv : (S.pairing w).Alike v v') :
    S.Simulates w n S.values (Eval.assign path v) (Eval.assign path v') := by
  unfold Eval.assign
  split
  next => exact sim_fail _
  next =>
    split
    next =>
      refine sim_bind (sim_setVariable path hv) fun w' hw' _ _ _ => ?_
      exact sim_pure (hv.mono (S.within hw'))
    next parent key _ =>
      refine sim_bind (sim_resolve parent) fun w' hw' u u' hu => ?_
      have halike : (S.pairing w').Alike u u' := hu
      have hv' := hv.mono (S.within hw')
      cases halike with
      | struct hab => exact sim_storeField hab key hv' hv'
      | _ => exact sim_failWith _ hu

theorem sim_escalate (hv : (S.pairing w).Alike v v') :
    S.Simulates w n S.values (escalate v) (escalate v') := by
  have halike := hv
  cases hv with
  | label name => exact sim_fail _
  | _ => exact sim_pure halike

theorem sim_accept (kind : Kind) (hv : (S.pairing w).Alike v v') :
    S.Simulates w n S.values (accept kind v) (accept kind v') := by
  unfold accept
  rcases hv.accept? kind with ⟨haccept, haccept'⟩ | ⟨u, u', haccept, haccept', hu⟩
  · rw [haccept, haccept']
    exact sim_failWith _ hv
  · rw [haccept, haccept']
    exact sim_pure hu

/-! ## Arithmetic, comparison and logic -/

theorem alike_toValue (m : Number) : (S.pairing w).Alike m.toValue m.toValue := by
  cases m with
  | int k => exact .int k
  | double d => exact .double d

theorem sim_number (hv : (S.pairing w).Alike v v') :
    S.Simulates w n (S.equal Number) (number v) (number v') := by
  have halike := hv
  cases hv with
  | int k => exact sim_pure rfl
  | double d => exact sim_pure rfl
  | _ => exact sim_failWith _ halike

theorem sim_fold (op : Arithmetic) (total : Number) (hargs : (S.pairing w).AlikeAll args args') :
    S.Simulates w n (S.equal Number) (fold op total args) (fold op total args') := by
  induction args generalizing w args' total with
  | nil =>
    cases hargs
    exact sim_pure rfl
  | cons v vs ih =>
    cases hargs with
    | cons hv hs =>
      refine sim_bind (sim_number hv) fun w' hw' m m' hm => ?_
      cases hm
      refine sim_bind (sim_ofExcept _) fun u hu k k' hk => ?_
      cases hk.1
      exact ih k (hs.mono (S.within (S.trans hw' hu)))

theorem sim_add (hargs : (S.pairing w).AlikeAll args args') :
    S.Simulates w n S.values (Builtin.add args) (Builtin.add args') := by
  refine sim_bind (sim_fold _ _ hargs) fun w' _ m m' hm => ?_
  cases hm
  exact sim_pure (alike_toValue m)

theorem sim_multiply (hargs : (S.pairing w).AlikeAll args args') :
    S.Simulates w n S.values (Builtin.multiply args) (Builtin.multiply args') := by
  refine sim_bind (sim_fold _ _ hargs) fun w' _ m m' hm => ?_
  cases hm
  exact sim_pure (alike_toValue m)

theorem sim_subtract (hargs : (S.pairing w).AlikeAll args args') :
    S.Simulates w n S.values (Builtin.subtract args) (Builtin.subtract args') := by
  match args, args', hargs with
  | _, _, .nil => exact sim_missingArgument
  | _, _, .cons hv .nil =>
    refine sim_bind (sim_number hv) fun w' _ m m' hm => ?_
    cases hm
    refine sim_bind (sim_ofExcept _) fun u _ k k' hk => ?_
    cases hk.1
    exact sim_pure (alike_toValue k)
  | _, _, .cons hv (.cons hu hs) =>
    refine sim_bind (sim_number hv) fun w' hw' m m' hm => ?_
    cases hm
    refine sim_bind (sim_fold _ m ((AlikeAll.cons hu hs).mono (S.within hw'))) fun _ _ k k' hk => ?_
    cases hk
    exact sim_pure (alike_toValue k)

theorem sim_quotient (total : Number) (hargs : (S.pairing w).AlikeAll args args') :
    S.Simulates w n (S.equal Number) (quotient total args) (quotient total args') := by
  induction args generalizing w args' total with
  | nil =>
    cases hargs
    exact sim_pure rfl
  | cons v vs ih =>
    cases hargs with
    | cons hv hs =>
      refine sim_bind (sim_number hv) fun w' hw' m m' hm => ?_
      cases hm
      split
      · exact sim_fail _
      · refine sim_bind (sim_ofExcept _) fun u hu k k' hk => ?_
        cases hk.1
        exact ih k (hs.mono (S.within (S.trans hw' hu)))

theorem sim_divide (hargs : (S.pairing w).AlikeAll args args') :
    S.Simulates w n S.values (Builtin.divide args) (Builtin.divide args') := by
  cases hargs with
  | nil => exact sim_missingArgument
  | cons hv hs =>
    refine sim_bind (sim_number hv) fun w' hw' m m' hm => ?_
    cases hm
    refine sim_bind (sim_quotient m (hs.mono (S.within hw'))) fun _ _ k k' hk => ?_
    cases hk
    exact sim_pure (alike_toValue k)

theorem sim_modulo (hargs : (S.pairing w).AlikeAll args args') :
    S.Simulates w n S.values (Builtin.modulo args) (Builtin.modulo args') := by
  match args, args', hargs with
  | _, _, .nil => exact sim_missingArgument
  | _, _, .cons hv .nil => cases hv <;> exact sim_missingArgument
  | _, _, .cons hv (.cons hu _) =>
    have halike := hv
    cases hv with
    | int a =>
      cases hu with
      | int b =>
        unfold Builtin.modulo
        dsimp only
        split
        · exact sim_fail _
        · split
          · exact sim_pure (.int _)
          · exact sim_fail _
      | _ => exact sim_failWith _ halike
    | _ => exact sim_failWith _ halike

theorem toDouble?_eq (hv : (S.pairing w).Alike v v') : v.toDouble? = v'.toDouble? := by
  cases hv <;> rfl

/-- The order of values that are neither two integers nor two strings. -/
theorem sim_orderByDouble (hv : (S.pairing w).Alike v v') (hu : (S.pairing w).Alike u u') :
    S.Simulates w n (S.equal Ordering)
      (match v.toDouble?, u.toDouble? with
        | none, _ => failWith (.typeMismatch .number) v
        | _, none => failWith (.typeMismatch .number) u
        | some x, some y =>
          match x.compare? y with
          | some o => pure o
          | none => do fail (.notComparable (← Eval.text v) (← Eval.text u)))
      (match v'.toDouble?, u'.toDouble? with
        | none, _ => failWith (.typeMismatch .number) v'
        | _, none => failWith (.typeMismatch .number) u'
        | some x, some y =>
          match x.compare? y with
          | some o => pure o
          | none => do fail (.notComparable (← Eval.text v') (← Eval.text u'))) := by
  rw [← toDouble?_eq hv, ← toDouble?_eq hu]
  split
  · exact sim_failWith _ hv
  · exact sim_failWith _ hu
  · split
    · exact sim_pure rfl
    · refine sim_bind (sim_text hv) fun w' hw' s s' hs => ?_
      cases hs
      refine sim_bind (sim_text (hu.mono (S.within hw'))) fun _ _ t t' ht => ?_
      cases ht
      exact sim_fail _

theorem sim_order (hv : (S.pairing w).Alike v v') (hu : (S.pairing w).Alike u u') :
    S.Simulates w n (S.equal Ordering) (order v u) (order v' u') := by
  have hdouble := sim_orderByDouble (n := n) hv hu
  unfold order
  cases hv with
  | int a =>
    cases hu with
    | int b => exact sim_pure rfl
    | _ => exact hdouble
  | str s =>
    cases hu with
    | str t => exact sim_pure rfl
    | _ => exact hdouble
  | _ => exact hdouble

theorem sim_comparison (holds : Ordering → Bool) (hargs : (S.pairing w).AlikeAll args args') :
    S.Simulates w n S.values (comparison holds args) (comparison holds args') := by
  match args, args', hargs with
  | _, _, .nil | _, _, .cons _ .nil => exact sim_missingArgument
  | _, _, .cons hv (.cons hu _) =>
    refine sim_bind (sim_order hv hu) fun w' _ o o' ho => ?_
    cases ho
    exact sim_pure (alike_ofBool _)

theorem equalValues_eq {h k : Heap} (hh : S.heaps w h k) (hv : (S.pairing w).Alike v v')
    (hu : (S.pairing w).Alike u u') : equalValues h v u = equalValues k v' u' := by
  have hsame := S.same hh hv hu
  cases hv with
  | int a =>
    cases hu with
    | double d => rfl
    | _ => exact hsame
  | double d =>
    cases hu with
    | int a => rfl
    | _ => exact hsame
  | _ => exact hsame

theorem sim_equality (expected : Bool) (hargs : (S.pairing w).AlikeAll args args') :
    S.Simulates w n S.values (equality expected args) (equality expected args') := by
  match args, args', hargs with
  | _, _, .nil | _, _, .cons _ .nil => exact sim_missingArgument
  | _, _, .cons hv (.cons hu _) =>
    unfold equality
    refine sim_looking (fun i j hrel a b hab => ?_) fun i j hrel => ?_
    · rw [S.shows hrel.heap hab hv, S.shows hrel.heap hab hu]
    · refine ⟨w, S.refl w, hrel, ?_⟩
      rw [equalValues_eq hrel.heap hv hu]
      exact alike_ofBool _

theorem sim_not (hargs : (S.pairing w).AlikeAll args args') :
    S.Simulates w n S.values (Builtin.not args) (Builtin.not args') := by
  cases hargs with
  | nil => exact sim_missingArgument
  | cons hv _ =>
    unfold Builtin.not
    dsimp only
    rw [hv.isNil]
    exact sim_pure (alike_ofBool _)

theorem alike_integerPart (d : Double) : (S.pairing w).Alike (integerPart d) (integerPart d) := by
  unfold integerPart
  split
  · exact .int _
  · exact .nil

theorem alike_integerOfText (s : String) :
    (S.pairing w).Alike (integerOfText s) (integerOfText s) := by
  unfold integerOfText
  dsimp only
  split
  · exact .int _
  · split
    · exact alike_integerPart _
    · exact .nil

theorem sim_toInt (hargs : (S.pairing w).AlikeAll args args') :
    S.Simulates w n S.values (Builtin.toInt args) (Builtin.toInt args') := by
  cases hargs with
  | nil => exact sim_missingArgument
  | cons hv _ =>
    cases hv with
    | int a => exact sim_pure (.int a)
    | double d => exact sim_pure (alike_integerPart d)
    | str s => exact sim_pure (alike_integerOfText s)
    | _ => exact sim_pure .nil

theorem sim_toDouble (hargs : (S.pairing w).AlikeAll args args') :
    S.Simulates w n S.values (Builtin.toDouble args) (Builtin.toDouble args') := by
  cases hargs with
  | nil => exact sim_missingArgument
  | cons hv _ =>
    cases hv with
    | int a => exact sim_pure (.double _)
    | double d => exact sim_pure (.double d)
    | str s =>
      unfold Builtin.toDouble
      dsimp only
      split
      · exact sim_pure (.double _)
      · exact sim_pure .nil
    | _ => exact sim_pure .nil

/-! ## Texts, lists and structs -/

theorem sim_plainTexts (hargs : (S.pairing w).AlikeAll args args') :
    S.Simulates w n (S.equal (List String)) (plainTexts args) (plainTexts args') := by
  induction args generalizing w args' with
  | nil =>
    cases hargs
    exact sim_pure rfl
  | cons v vs ih =>
    cases hargs with
    | cons hv hs =>
      refine sim_bind (sim_plainText hv) fun w' hw' s s' hst => ?_
      cases hst
      refine sim_bind (ih (hs.mono (S.within hw'))) fun _ _ ts ts' hts => ?_
      cases hts
      exact sim_pure rfl

theorem sim_concatenate (hargs : (S.pairing w).AlikeAll args args') :
    S.Simulates w n S.values (concatenate args) (concatenate args') := by
  refine sim_bind (sim_plainTexts hargs) fun w' _ ts ts' hts => ?_
  cases hts
  exact sim_pure (.str _)

theorem sim_count (hargs : (S.pairing w).AlikeAll args args') :
    S.Simulates w n S.values (count args) (count args') := by
  cases hargs with
  | nil => exact sim_missingArgument
  | cons hv _ =>
    have halike := hv
    cases hv with
    | nil => exact sim_pure (.int _)
    | str s => exact sim_pure (.int _)
    | list hab =>
      refine sim_bind (sim_items hab) fun w' _ vs ws (hvs : (S.pairing w').AlikeAll vs ws) => ?_
      rw [hvs.length_eq]
      exact sim_pure (.int _)
    | struct hab =>
      refine sim_bind (sim_fields hab) fun w' _ r t (hr : (S.pairing w').AlikeFields r t) => ?_
      rw [hr.length_eq]
      exact sim_pure (.int _)
    | _ => exact sim_failWith _ halike

theorem sim_append (hargs : (S.pairing w).AlikeAll args args') :
    S.Simulates w n S.values (Builtin.append args) (Builtin.append args') := by
  cases hargs with
  | nil => exact sim_missingArgument
  | cons hv hs =>
    have halike := hv
    cases hv with
    | nil => exact sim_newList hs
    | list hab =>
      refine sim_bind (sim_items hab) fun w' hw' vs ws (hvs : (S.pairing w').AlikeAll vs ws) => ?_
      exact sim_newList (hvs.append (hs.mono (S.within hw')))
    | _ => exact sim_failWith _ halike

theorem sim_structKey (hv : (S.pairing w).Alike v v') :
    S.Simulates w n (S.equal String) (structKey v) (structKey v') := by
  have halike := hv
  cases hv with
  | str s => exact sim_pure rfl
  | symbol path => exact sim_pure rfl
  | int a => exact sim_pure rfl
  | _ => exact sim_failWith _ halike

theorem sim_pairs {r t : Record Value} (hr : (S.pairing w).AlikeFields r t)
    (hnodup : (Record.keys r).Nodup) (hargs : (S.pairing w).AlikeAll args args') :
    S.Simulates w n (S.records.such fun r => (Record.keys r).Nodup) (pairs r args)
      (pairs t args') := by
  fun_induction pairs r args generalizing w t args' with
  | case1 r =>
    cases hargs
    exact sim_pure (Q := S.records.such _) ⟨hr, hnodup⟩
  | case2 r v =>
    obtain _ | ⟨_, _ | _⟩ := hargs
    exact sim_fail _
  | case3 r key v rest ih =>
    obtain _ | ⟨hkey, _ | ⟨hv, hs⟩⟩ := hargs
    refine sim_bind (sim_structKey hkey) fun w' hw' k k' hk => ?_
    cases hk
    have hlater := S.within hw'
    exact ih k ((hr.mono hlater).insert k (hv.mono hlater)) (Record.nodup_keys_insert hnodup k v)
      (hs.mono hlater)

theorem sim_struct (hargs : (S.pairing w).AlikeAll args args') :
    S.Simulates w n S.values (Builtin.struct args) (Builtin.struct args') := by
  unfold Builtin.struct
  rw [← hargs.length_eq]
  split
  · exact sim_fail _
  · refine sim_bind (sim_pairs .nil List.nodup_nil hargs) fun w' _ r t hr => ?_
    exact sim_newStruct hr.1 hr.2

theorem sim_keys (hargs : (S.pairing w).AlikeAll args args') :
    S.Simulates w n S.values (Builtin.keys args) (Builtin.keys args') := by
  cases hargs with
  | nil => exact sim_missingArgument
  | cons hv _ =>
    have halike := hv
    cases hv with
    | struct hab =>
      refine sim_bind (sim_fields hab) fun w' _ r t (hr : (S.pairing w').AlikeFields r t) => ?_
      rw [hr.keys_eq]
      exact sim_newList (alikeAll_strings _)
    | _ => exact sim_failWith _ halike

/-! ## Items by key or index -/

/-- Both indices are the same and within the list, or both are refused in the same way. -/
theorem listIndex_cases (length : Nat) (hv : (S.pairing w).Alike v v') :
    (∃ k < length, listIndex length v = pure k ∧ listIndex length v' = pure k) ∨
      ∀ Q, S.Simulates w n Q (listIndex length v) (listIndex length v') := by
  have halike := hv
  cases hv with
  | int a =>
    unfold listIndex
    dsimp only
    by_cases hrange : 0 ≤ a.toInt ∧ a.toInt < length
    · rw [if_pos hrange]
      exact .inl ⟨a.toInt.toNat, by omega, rfl, rfl⟩
    · rw [if_neg hrange]
      exact .inr fun Q => sim_fail _
  | _ => exact .inr fun Q => sim_failWith _ halike

theorem sim_listIndex (length : Nat) (hv : (S.pairing w).Alike v v') :
    S.Simulates w n (S.equal Nat) (listIndex length v) (listIndex length v') := by
  rcases listIndex_cases length hv with ⟨k, -, haccept, haccept'⟩ | hrefuse
  · rw [haccept, haccept']
    exact sim_pure rfl
  · exact hrefuse _

theorem sim_fetch (hargs : (S.pairing w).AlikeAll args args') :
    S.Simulates w n S.values (fetch args) (fetch args') := by
  match args, args', hargs with
  | _, _, .nil => exact sim_missingArgument
  | _, _, .cons hv .nil => cases hv <;> exact sim_missingArgument
  | _, _, .cons hv (.cons hkey _) =>
    have halike := hv
    cases hv with
    | struct hab =>
      refine sim_bind (sim_structKey hkey) fun w' hw' k k' hk => ?_
      cases hk
      refine sim_bind (sim_fields ((S.within hw').struct hab)) ?_
      intro w'' _ r t (hr : (S.pairing w'').AlikeFields r t)
      refine sim_pure ?_
      rcases hr.get? k with ⟨hget, hget'⟩ | ⟨u, u', hget, hget', hu⟩
      · rw [hget, hget']
        exact .nil
      · rw [hget, hget']
        exact hu
    | list hab =>
      have hlist : ∀ a index rest, fetch (.list a :: index :: rest) = _ :=
        fun a index _ => whileReading_item a index
      rw [hlist, hlist]
      refine sim_bind (sim_items hab) fun w' hw' vs ws (hvs : (S.pairing w').AlikeAll vs ws) => ?_
      rw [← hvs.length_eq]
      refine sim_bind (sim_listIndex _ (hkey.mono (S.within hw'))) fun w'' hw'' k k' hk => ?_
      cases hk
      exact sim_pure ((hvs.mono (S.within hw'')).getD k)
    | nil =>
      refine sim_bind (sim_listIndex _ hkey) fun w' _ _ _ _ => ?_
      exact sim_pure .nil
    | _ => exact sim_failWith _ halike

theorem items_bind_apply (a : Nat) (f : List Value → Eval α) (i : Interpreter) :
    (Eval.items a >>= f) i =
      if i.barred (· == a) then .error (.crash .cellInUse) i else f (i.heap.items a) i := by
  show EStateM.bind (Eval.items a) f i = _
  unfold EStateM.bind Eval.items looking
  by_cases hbarred : i.barred (· == a) = true
  · rw [if_pos hbarred, if_pos hbarred]
  · rw [if_neg hbarred, if_neg hbarred]

-- Between reading the items and writing them back only the index is looked at, which changes
-- nothing: the items that are written are still those in the heap.
theorem sim_storeItem {a b : Nat} (hab : (S.pairing w).list a b)
    (hu : (S.pairing w).Alike u u') (hv : (S.pairing w).Alike v v') :
    S.Simulates w n S.values
      (do
        let vs ← Eval.items a
        let k ← whileWriting a (listIndex vs.length u)
        write a (.list (vs.set k v))
        pure (.list a))
      (do
        let ws ← Eval.items b
        let k ← whileWriting b (listIndex ws.length u')
        write b (.list (ws.set k v'))
        pure (.list b)) := by
  intro i j hrel
  rw [items_bind_apply, items_bind_apply, ← hrel.barred_eq fun _ _ => beq_of_list (S := S) hab,
    ← (S.items hrel.heap hab).length_eq]
  by_cases hbarred : i.barred (· == a) = true
  · rw [if_pos hbarred, if_pos hbarred]
    exact ends_error hrel
  · rw [if_neg hbarred, if_neg hbarred]
    rcases listIndex_cases (i.heap.items a).length hu with ⟨k, hk, haccept, haccept'⟩ | hrefuse
    · obtain ⟨w', hw', hh⟩ := S.storeItem k hrel.heap hab hv hk
      have huse := hrel.inUse_eq fun _ _ => beq_of_list (S := S) hab
      rw [haccept, haccept']
      simp only [bind, EStateM.bind, whileWriting, ← huse]
      by_cases hused : i.inUse a = true
      · simp only [hused, if_true]
        exact ends_error hrel
      · simp only [during, pure, EStateM.pure, write, ← huse, hused, Bool.false_eq_true, if_false]
        exact ⟨w', hw', hrel.heap_later hw' hh, .list ((S.within hw').list hab)⟩
    · have hstop := hrefuse ((S.equal Nat).such fun _ => False)
      exact sim_bind (sim_whileWriting hab hstop) (fun _ _ _ _ hfalse => hfalse.2.elim) i j hrel

theorem sim_store (hargs : (S.pairing w).AlikeAll args args') :
    S.Simulates w n S.values (store args) (store args') := by
  match args, args', hargs with
  | _, _, .nil => exact sim_missingArgument
  | _, _, .cons hv .nil | _, _, .cons hv (.cons _ .nil) => cases hv <;> exact sim_missingArgument
  | _, _, .cons hv (.cons hkey (.cons hu _)) =>
    have halike := hv
    cases hv with
    | struct hab =>
      refine sim_bind (sim_structKey hkey) fun w' hw' k k' hk => ?_
      cases hk
      have hlater := S.within hw'
      exact sim_storeField (hlater.struct hab) k (hu.mono hlater) (halike.mono hlater)
    | list hab => exact sim_storeItem hab hkey hu
    | _ => exact sim_failWith _ halike

/-! ## The console, errors and introspection -/

theorem sim_print (hargs : (S.pairing w).AlikeAll args args') :
    S.Simulates w n S.values (Builtin.print args) (Builtin.print args') := by
  refine sim_bind (sim_plainTexts hargs) fun w' _ ts ts' hts i j hrel => ?_
  cases hts
  refine ⟨w', S.refl w', { hrel with console := ?_ }, .true⟩
  show i.console.writeLine _ = j.console.writeLine _
  rw [hrel.console]

theorem sim_optionalText (hargs : (S.pairing w).AlikeAll args args') :
    S.Simulates w n (S.equal String) (optionalText args) (optionalText args') := by
  match args, args', hargs with
  | _, _, .nil => exact sim_pure rfl
  | _, _, .cons hv .nil => exact sim_plainText hv
  | _, _, .cons _ (.cons hu _) => exact sim_tooMany hu

theorem alike_line (line : Option String) :
    (S.pairing w).Alike ((line.map Value.str).getD .nil) ((line.map Value.str).getD .nil) := by
  cases line with
  | none => exact .nil
  | some s => exact .str s

theorem sim_read (hargs : (S.pairing w).AlikeAll args args') :
    S.Simulates w n S.values (Builtin.read args) (Builtin.read args') := by
  refine sim_bind (sim_optionalText hargs) fun w' _ s s' hs i j hrel => ?_
  cases hs
  rw [← hrel.console]
  exact ⟨w', S.refl w', { hrel with console := rfl }, alike_line _⟩

theorem sim_help (hargs : (S.pairing w).AlikeAll args args') :
    S.Simulates w n S.values (Builtin.help args) (Builtin.help args') := by
  refine sim_bind (sim_optionalText hargs) fun w' _ s s' hs i j hrel => ?_
  cases hs
  rw [← hrel.help]
  exact ⟨w', S.refl w', hrel, .str _⟩

theorem sim_throwBuiltin (hargs : (S.pairing w).AlikeAll args args') :
    S.Simulates w n S.values (Builtin.throw args) (Builtin.throw args') := by
  cases hargs with
  | nil => exact sim_missingArgument
  | cons hv _ =>
    have halike := hv
    cases hv with
    | str message => exact sim_fail _
    | error e => exact sim_throw _
    | _ => exact sim_failWith _ halike

theorem sim_typeName (hargs : (S.pairing w).AlikeAll args args') :
    S.Simulates w n S.values (Builtin.typeName args) (Builtin.typeName args') := by
  cases hargs with
  | nil => exact sim_missingArgument
  | cons hv _ =>
    unfold Builtin.typeName
    dsimp only
    rw [hv.typeName]
    exact sim_pure (.str _)

theorem sim_bound (hargs : (S.pairing w).AlikeAll args args') :
    S.Simulates w n S.values (Builtin.bound args) (Builtin.bound args') := by
  cases hargs with
  | nil => exact sim_missingArgument
  | cons hv _ =>
    have halike := hv
    cases hv with
    | symbol path =>
      refine sim_rescue ?_ fun _ _ _ => sim_pure .nil
      exact sim_bind (sim_resolve path) fun _ _ _ _ _ => sim_pure .true
    | _ => exact sim_failWith _ halike

/-! ## Names -/

theorem sim_localName (hv : (S.pairing w).Alike v v') :
    S.Simulates w n (S.equal String) (localName v) (localName v') := by
  unfold localName
  rw [hv.labelName?]
  split
  · split
    · exact sim_pure rfl
    · exact sim_failWith _ hv
  · exact sim_failWith _ hv

theorem sim_localNames (hargs : (S.pairing w).AlikeAll args args') :
    S.Simulates w n (S.equal (List String)) (localNames args) (localNames args') := by
  induction args generalizing w args' with
  | nil =>
    cases hargs
    exact sim_pure rfl
  | cons v vs ih =>
    cases hargs with
    | cons hv hs =>
      refine sim_bind (sim_localName hv) fun w' hw' s s' hst => ?_
      cases hst
      refine sim_bind (ih (hs.mono (S.within hw'))) fun _ _ ts ts' hts => ?_
      cases hts
      exact sim_pure rfl

theorem sim_blockFrame (hv : (S.pairing w).Alike v v') :
    S.Simulates w n S.records (blockFrame v) (blockFrame v') := by
  have halike := hv
  cases hv with
  | struct hab => exact sim_fields hab
  | list hab =>
    have hlist : ∀ a, blockFrame (.list a) = _ := whileReading_names
    rw [hlist, hlist]
    refine sim_bind (sim_items hab) fun w' _ vs ws (hvs : (S.pairing w').AlikeAll vs ws) => ?_
    refine sim_bind (sim_localNames hvs) fun _ _ names names' hnames => ?_
    cases hnames
    exact sim_pure (alikeFields_names names)
  | nil => exact sim_pure AlikeFields.nil
  | _ => exact sim_failWith _ halike

theorem sim_labelName (hv : (S.pairing w).Alike v v') :
    S.Simulates w n (S.equal String) (labelName v) (labelName v') := by
  unfold labelName
  rw [hv.labelName?]
  split
  · exact sim_pure rfl
  · exact sim_failWith _ hv

theorem sim_label (hargs : (S.pairing w).AlikeAll args args') :
    S.Simulates w n S.values (label args) (label args') := by
  match args, args', hargs with
  | _, _, .nil => exact sim_fail _
  | _, _, .cons hv .nil =>
    refine sim_bind (sim_labelName hv) fun w' _ s s' hs => ?_
    cases hs
    exact sim_pure (.label s)
  | _, _, .cons _ (.cons hu _) => exact sim_tooMany hu

theorem sim_goto (hargs : (S.pairing w).AlikeAll args args') :
    S.Simulates w n S.values (goto args) (goto args') := by
  match args, args', hargs with
  | _, _, .nil => exact sim_fail _
  | _, _, .cons hv .nil =>
    refine sim_bind (sim_labelName hv) fun w' _ s s' hs => ?_
    cases hs
    exact sim_pure (.goto s)
  | _, _, .cons _ (.cons hu _) => exact sim_tooMany hu

theorem sim_loopVariable (hv : (S.pairing w).Alike v v') :
    S.Simulates w n (S.equal String) (loopVariable v) (loopVariable v') := by
  have halike := hv
  cases hv with
  | symbol name => exact sim_localName halike
  | _ => exact sim_failWith _ halike

theorem sim_handlerName (hv : (S.pairing w).Alike v v') :
    S.Simulates w n (S.equal String) (handlerName v) (handlerName v') := by
  have halike := hv
  unfold handlerName
  cases hv with
  | symbol name | str name =>
    dsimp only
    split
    · exact sim_pure rfl
    · exact sim_failWith _ halike
  | _ => exact sim_failWith _ halike

theorem sim_nameList (hv : (S.pairing w).Alike v v') :
    S.Simulates w n (S.equal (List String)) (nameList v) (nameList v') := by
  have halike := hv
  cases hv with
  | nil => exact sim_pure rfl
  | expr hs => exact sim_localNames hs
  | list hab =>
    refine sim_bind (sim_items hab) fun w' _ vs ws (hvs : (S.pairing w').AlikeAll vs ws) => ?_
    exact sim_localNames hvs
  | _ => exact sim_failWith _ halike

theorem sim_capture (names : List String) {r t : Record Value}
    (hr : (S.pairing w).AlikeFields r t) :
    S.Simulates w n S.records (capture r names) (capture t names) := by
  induction names generalizing w r t with
  | nil => exact sim_pure hr
  | cons name names ih =>
    refine sim_bind (sim_resolve name) fun w' hw' u u' hu => ?_
    exact ih ((hr.mono (S.within hw')).insert name hu)

theorem sim_lambda (hargs : (S.pairing w).AlikeAll args args') :
    S.Simulates w n S.values (lambda args) (lambda args') := by
  match args, args', hargs with
  | _, _, .nil | _, _, .cons _ .nil | _, _, .cons _ (.cons _ .nil) => exact sim_missingArgument
  | _, _, .cons hcaptured (.cons hparams (.cons hbody _)) =>
    refine sim_bind (sim_nameList hcaptured) fun w₁ h₁ names names' hnames => ?_
    cases hnames
    refine sim_bind (sim_capture names .nil) fun w₂ h₂ r t hr => ?_
    have hlater := S.trans h₁ h₂
    refine sim_bind (sim_nameList (hparams.mono (S.within hlater))) fun w₃ h₃ ps ps' hps => ?_
    cases hps
    refine sim_bind sim_freshId fun w₄ h₄ id id' hid => ?_
    cases hid
    have hbody' := hbody.mono (S.within (S.trans hlater (S.trans h₃ h₄)))
    exact sim_pure (.closure id ps (AlikeFields.mono (S.within (S.trans h₃ h₄)) hr) hbody')

end Lisplet.Lockstep
