import Lisplet.Proofs.Expressions
import Lisplet.Proofs.Recognition

/-!
# Struct literals and calls of `struct`

A struct can be written out, or made by a call of `struct` with strings for the keys. A key that is
written twice keeps its first place and takes its last form, and that is settled when the literal is
read. What is left to do is the same for both: the forms are evaluated in order, one level further
in, and the first error or signal ends it. The call adds its own text to an error, and the literal
has a cell of its own from the moment it is read. There is no other difference.
-/

namespace Lisplet

open Eval Builtin

/-! ## Keys written twice -/

namespace Record

variable {α : Type}

def lastOf (key : String) (v : α) (entries : List (String × α)) : α :=
  ((entries.filter (·.1 = key)).map Prod.snd).getLastD v

/-- Entries with repeated keys merged: each key at its first place, with its last value. -/
def merged : List (String × α) → Record α
  | [] => []
  | (key, v) :: rest => (key, lastOf key v rest) :: (merged rest).filter (·.1 ≠ key)

theorem lastOf_cons_self (key : String) (v w : α) (entries : List (String × α)) :
    lastOf key v ((key, w) :: entries) = lastOf key w entries := by
  simp only [lastOf, List.filter_cons, decide_true, if_true, List.map_cons, List.getLastD_cons]

theorem lastOf_cons_of_ne {key other : String} (h : other ≠ key) (v w : α)
    (entries : List (String × α)) :
    lastOf key v ((other, w) :: entries) = lastOf key v entries := by
  simp only [lastOf, List.filter_cons, h, decide_false, Bool.false_eq_true, if_false]

theorem filter_insert_self (key : String) (v : α) (r : Record α) :
    (insert key v r).filter (·.1 ≠ key) = r.filter (·.1 ≠ key) := by
  induction r with
  | nil => simp [insert]
  | cons e r ih =>
    obtain ⟨k, w⟩ := e
    by_cases hk : k = key
    · simp [insert, hk]
    · simpa [insert, hk] using ih

theorem filter_insert_of_ne {key other : String} (h : other ≠ key) (v : α) (r : Record α) :
    (insert other v r).filter (·.1 ≠ key) = insert other v (r.filter (·.1 ≠ key)) := by
  induction r with
  | nil => simp [insert, h]
  | cons e r ih =>
    obtain ⟨k, w⟩ := e
    by_cases hother : k = other
    · subst hother
      simp [insert, h]
    · by_cases hk : k = key
      · subst hk
        simpa [insert, hother] using ih
      · simpa [insert, hother, hk] using ih

-- An entry for the key in front changes its value and stays; any other entry goes on to the rest.
theorem foldl_insert_cons (key : String) (v : α) (r : Record α) (entries : List (String × α)) :
    entries.foldl (fun r (k, v) => insert k v r) ((key, v) :: r) = (key, lastOf key v entries) ::
      (entries.filter (·.1 ≠ key)).foldl (fun r (k, v) => insert k v r) r := by
  induction entries generalizing v r with
  | nil => rfl
  | cons e entries ih =>
    obtain ⟨k, w⟩ := e
    by_cases hk : k = key
    · subst hk
      simp [insert, ih, lastOf_cons_self]
    · simp [insert, ih, hk, Ne.symm hk, lastOf_cons_of_ne hk]

theorem foldl_insert_filter (key : String) (r : Record α) (entries : List (String × α)) :
    (entries.filter (·.1 ≠ key)).foldl (fun r (k, v) => insert k v r) (r.filter (·.1 ≠ key)) =
      (entries.foldl (fun r (k, v) => insert k v r) r).filter (·.1 ≠ key) := by
  induction entries generalizing r with
  | nil => rfl
  | cons e entries ih =>
    obtain ⟨k, w⟩ := e
    by_cases hk : k = key
    · subst hk
      have hih := ih (insert k w r)
      rw [filter_insert_self] at hih
      simpa using hih
    · have hih := ih (insert k w r)
      rw [filter_insert_of_ne hk] at hih
      simpa [hk] using hih

/-- Writing entries one after the other merges them. -/
theorem ofEntries_eq_merged (entries : List (String × α)) :
    ofEntries entries = merged entries := by
  induction entries with
  | nil => rfl
  | cons e entries ih =>
    obtain ⟨key, v⟩ := e
    have hrest := foldl_insert_filter key [] entries
    rw [merged, ← ih]
    exact (foldl_insert_cons key v [] entries).trans (congrArg _ hrest)

end Record

/-! ## The arguments of the call -/

def structCall (fields : Record Form) : List Form :=
  .symbol "struct" :: fields.flatMap fun (key, f) => [.str key, f]

def keyed (fields : Record Value) : List Value :=
  fields.flatMap fun (key, v) => [.str key, v]

theorem loadAll_keyed (h : Heap) (fields : Record Form) :
    h.loadAll (fields.flatMap fun (key, f) => [.str key, f]) =
      (keyed (h.loadFields fields).1, (h.loadFields fields).2) := by
  induction fields generalizing h with
  | nil => rfl
  | cons field fields ih =>
    obtain ⟨key, f⟩ := field
    simp only [List.flatMap_cons, List.cons_append, List.nil_append, Heap.loadAll, Heap.load, ih,
      Heap.loadFields, keyed]

theorem load_structCall (h : Heap) (fields : Record Form) :
    h.load (.expr (structCall fields)) =
      (.expr (.symbol "struct" :: keyed (h.loadFields fields).1), (h.loadFields fields).2) := by
  simp only [Heap.load, structCall, Heap.loadAll, loadAll_keyed]

/-- What the call makes of its bound arguments, with fields that are there already. -/
def structFrom (values : Record Value) : Bound → Eval Value
  | .args vs =>
    if vs.length % 2 = 1 then fail .insufficientArguments
    else pairs values vs >>= newStruct
  | .signal s => pure s

theorem structFrom_cons (values : Record Value) (key : String) (v : Value) (b : Bound) :
    structFrom values ((b.cons v).cons (.str key)) = structFrom (values.insert key v) b := by
  cases b with
  | args vs =>
    have hparity : (vs.length + 1 + 1) % 2 = vs.length % 2 := by omega
    simp only [Bound.cons, structFrom, List.length_cons, hparity]
    rfl
  | signal s => rfl

-- By induction on the fields. A key comes to itself, and a form goes the same ways in both.
theorem newStructOf_eq_bindArgs (e : Engine) (hstr : ∀ s, e.evaluate (.str s) = pure (.str s))
    (fields values : Record Value) :
    e.newStructOf fields values =
      bindArgs e.evaluate .rest [] (keyed fields) >>= structFrom values := by
  induction fields generalizing values with
  | nil => rfl
  | cons field fields ih =>
    obtain ⟨key, form⟩ := field
    have hkey : bindArgs e.evaluate .rest [] (keyed ((key, form) :: fields)) =
        bindArgs e.evaluate .rest [] (form :: keyed fields) >>= fun b =>
          pure (b.cons (.str key)) := by
      change (e.evaluate (.str key) >>= _) = _
      rw [hstr, pure_bind]
      rfl
    rw [hkey, bind_assoc]
    change (e.evaluate form >>= _) = (e.evaluate form >>= _) >>= _
    rw [bind_assoc]
    refine bind_congr fun v => ?_
    cases hv : v.isSignal with
    | true =>
      simp only [if_true]
      cases v <;> rfl
    | false =>
      simp only [Bool.false_eq_true, if_false]
      rw [ih]
      change _ = (bindArgs e.evaluate .rest [] (keyed fields) >>= _) >>= _
      rw [bind_assoc]
      refine bind_congr fun b => ?_
      exact (structFrom_cons values key v b).symm

/-! ## From one state -/

section

variable {fuel id : Nat} {title : String} {i : Interpreter}

theorem callForm_struct
    (hstruct : i.env.get? "struct" = some (.checked id title [.rest] .struct)) (fuel : Nat)
    (fields : Record Value) :
    (Engine.ofFuel (fuel + 1)).callForm (.symbol "struct" :: keyed fields) i =
      (Engine.ofFuel (fuel + 1)).newStructOf fields [] i := by
  have hsimple : Path.isSimple "struct" = true := by decide +kernel
  have hcall : (Engine.ofFuel (fuel + 1)).call (.checked id title [.rest] .struct) (keyed fields) =
      bindArgs (evaluate (fuel + 1)) .rest [] (keyed fields) >>= structFrom [] := by
    have hbind : bindContract (evaluate (fuel + 1)) title [.rest] (keyed fields) =
        bindArgs (evaluate (fuel + 1)) .rest [] (keyed fields) :=
      bindContract_of_rest rfl (Nat.zero_le _)
    rw [← hbind]
    refine bind_congr fun b => ?_
    cases b <;> rfl
  rw [callForm_of_bound hsimple hstruct rfl, hcall, newStructOf_eq_bindArgs]
  · rfl
  · exact fun s => rfl

/-- In one and the same state, the call is the literal with a crumb left on an error. -/
theorem evaluate_structCall (hidle : i.uses = [])
    (hstruct : i.env.get? "struct" = some (.checked id title [.rest] .struct)) (fuel cell : Nat) :
    let call : Value := .expr (.symbol "struct" :: keyed (i.heap.fields cell))
    evaluate (fuel + 2) call i = leavingCrumb call (evaluate (fuel + 2) (.struct cell)) i := by
  intro call
  have hfields : (fields cell >>= fun fs => (Engine.ofFuel (fuel + 1)).newStructOf fs [])
      (i.deeper 1) = (Engine.ofFuel (fuel + 1)).newStructOf (i.heap.fields cell) [] (i.deeper 1) :=
    bind_of_ok (looking_of_idle (i := i.deeper 1) hidle _ _)
  have hinside := (callForm_struct (i := i.deeper 1) hstruct fuel (i.heap.fields cell)).trans
    hfields.symm
  exact leavingCrumb_congr call (descend_of_deeper_eq hinside)

end

/-! ## From the state before the form was read -/

/-- Two runs at the same levels, of which the first has one cell more. Neither is ever excused. -/
def Lockstep.insertionExact : Lockstep :=
  { Lockstep.insertion with
    excuses := fun _ => False
    not_excuses := fun _ => id }

theorem Lockstep.Rel.inserts_exact {w : Nat × Cell} {n : Nesting} {i j : Interpreter}
    (h : Lockstep.insertionExact.Rel w n i j) (hidle : j.uses = []) : i.Inserts w.1 w.2 j :=
  Lockstep.Rel.inserts (n := n) ⟨h.heap, h.env, h.help, h.console, h.nextId, h.uses, h.nests,
    h.left, h.leftLimit, h.right, h.rightLimit⟩ hidle

/-- What a literal comes to, and what the call in its place comes to: like values, which for
a struct means the same keys in the same order with like values, or an error that only has the text
of the call added to it. The literal is one cell more in the heap, `c` at `p`, and otherwise the
states are the same. -/
inductive Agree (p : Nat) (c : Cell) (call : Value) :
    EStateM.Result Halt Interpreter Value → EStateM.Result Halt Interpreter Value → Prop
  | ok {v w : Value} {i j : Interpreter} : (Pairing.along (shift p)).Alike v w →
      i.heap.text v = j.heap.text w → i.Inserts p c j → Agree p c call (.ok v i) (.ok w j)
  | error {e : Error} {i j : Interpreter} : i.Inserts p c j →
      Agree p c call (.error (.error e) i)
        (.error (.error (e.withCrumb (j.heap.text call))) j)
  | crash {crash : Crash} {i j : Interpreter} : i.Inserts p c j →
      Agree p c call (.error (.crash crash) i) (.error (.crash crash) j)
  | outOfFuel {i j : Interpreter} : i.Inserts p c j →
      Agree p c call (.error .outOfFuel i) (.error .outOfFuel j)

section

variable {i j : Interpreter} {call : Value}

/-- With one cell more in the heap, evaluation does what it does without it. -/
theorem evaluate_inserts (hi : i.Coherent) (hidle : i.uses = []) (fuel : Nat) (c : Cell)
    (hcall : i.heap.self.Alike call call) :
    Lockstep.Ends (S := .insertionExact) (i.heap.size, c) ⟨i.depth, i.maxDepth, i.depth, i.maxDepth⟩
      Lockstep.insertionExact.values
      (evaluate fuel call { i with heap := (i.heap.alloc c).2 }) (evaluate fuel call i) := by
  have hdepth : ∀ n, Lockstep.insertionExact.nests n →
      n.left < n.leftLimit ∨ ¬ n.right < n.rightLimit := by
    rintro n ⟨hlevel, hlimit⟩
    omega
  have hwithin := i.heap.self_within_along
  have hrel : Lockstep.insertionExact.Rel (i.heap.size, c)
      ⟨i.depth, i.maxDepth, i.depth, i.maxDepth⟩ { i with heap := (i.heap.alloc c).2 } i :=
    ⟨hi.heap.inserts_alloc _, hi.env.mono hwithin, rfl, rfl, rfl, by rw [hidle]; exact .nil,
      ⟨rfl, rfl⟩, rfl, rfl, rfl, rfl⟩
  have hdrives : Lockstep.insertionExact.Drives (.ofFuel fuel) (.ofFuel fuel) :=
    Lockstep.drives_self hdepth (.inl rfl)
  exact hdrives.evaluate (w := (i.heap.size, c)) (hcall.mono hwithin) _ _ hrel

/-- A literal that is the newest cell agrees with the call in the state without the cell. -/
theorem agree_of_newest (hi : i.Coherent) (hidle : i.uses = []) {id : Nat} {title : String}
    (hstruct : i.env.get? "struct" = some (.checked id title [.rest] .struct))
    {fields : Record Value} (hfields : i.heap.self.AlikeAll (keyed fields) (keyed fields))
    (fuel : Nat) :
    Agree i.heap.size (.struct fields) (.expr (.symbol "struct" :: keyed fields))
      (evaluate (fuel + 2) (.struct i.heap.size)
        { i with heap := (i.heap.alloc (.struct fields)).2 })
      (evaluate (fuel + 2) (.expr (.symbol "struct" :: keyed fields)) i) := by
  let call : Value := .expr (.symbol "struct" :: keyed fields)
  let i₁ : Interpreter := { i with heap := (i.heap.alloc (.struct fields)).2 }
  have hcall : i.heap.self.Alike call call := .expr (.cons (.symbol _) hfields)
  -- With the cell of the literal there, the call differs from it by the crumb of an error only.
  have hsame : evaluate (fuel + 2) call i₁ =
      leavingCrumb call (evaluate (fuel + 2) (.struct i.heap.size)) i₁ := by
    have hnewest : i₁.heap.fields i.heap.size = fields := Heap.fields_alloc i.heap fields
    have hstate := evaluate_structCall (i := i₁) hidle hstruct fuel i.heap.size
    rw [hnewest] at hstate
    exact hstate
  -- And the call does not mind that cell, which nothing leads to.
  have hends := evaluate_inserts hi hidle (fuel + 2) (.struct fields) hcall
  change Lockstep.Ends (S := .insertionExact) _ _ _ (evaluate (fuel + 2) call i₁) _ at hends
  rw [hsame] at hends
  change Agree i.heap.size (.struct fields) call (evaluate (fuel + 2) (.struct i.heap.size) i₁)
    (evaluate (fuel + 2) call i)
  unfold leavingCrumb at hends
  cases hliteral : evaluate (fuel + 2) (.struct i.heap.size) i₁ with
  | ok v j =>
    rw [hliteral] at hends
    cases hcalled : evaluate (fuel + 2) call i with
    | error h k =>
      rw [hcalled] at hends
      exact hends.elim
    | ok w k =>
      rw [hcalled] at hends
      obtain ⟨_, rfl, hrel, hv⟩ := hends
      have hkidle := uses_of_ok hidle hcalled
      exact .ok hv (Lockstep.insertionExact.text hrel.heap hv) (hrel.inserts_exact hkidle)
  | error h j =>
    rw [hliteral] at hends
    have hjidle : j.uses = [] := uses_of_error (i := i₁) hidle hliteral
    cases h with
    | error e =>
      have htext : text call j = .ok (j.heap.text call) j := looking_of_idle hjidle _ _
      simp only [htext] at hends
      obtain ⟨hno, -⟩ | ⟨_, k, hcalled, rfl, hrel⟩ := hends
      · exact hno.elim
      · have hkidle := uses_of_error hidle hcalled
        have htexts : j.heap.text call = k.heap.text call :=
          Lockstep.insertionExact.text hrel.heap (hcall.mono i.heap.self_within_along)
        rw [hcalled, htexts]
        exact .error (hrel.inserts_exact hkidle)
    | crash c =>
      obtain ⟨hno, -⟩ | ⟨_, k, hcalled, rfl, hrel⟩ := hends
      · exact hno.elim
      · rw [hcalled]
        exact .crash (hrel.inserts_exact (uses_of_error hidle hcalled))
    | outOfFuel =>
      obtain ⟨hno, -⟩ | ⟨_, k, hcalled, rfl, hrel⟩ := hends
      · exact hno.elim
      · rw [hcalled]
        exact .outOfFuel (hrel.inserts_exact (uses_of_error hidle hcalled))

end

/-! ## From the source -/

section

open Grammar Reader

variable {cs : List Char} {entries : List (String × Form)}

/-- A struct literal is read as its merged entries. -/
theorem read_structLiteral (hcs : Derives (maxNesting - 1) cs ['\x7d'] (.fields entries)) :
    read (String.ofList ('\x7b' :: cs)) = .ok [.struct (Record.merged entries)] := by
  have hform : Derives maxNesting ('\x7b' :: cs) []
      (.form false (.struct (Record.ofEntries entries))) := .struct hcs
  rw [Record.ofEntries_eq_merged] at hform
  rw [read_eq_ok_iff, String.toList_ofList]
  exact accepts_of_derives (.cons hform (.nil false))

theorem read_structCall {fields : Record Form}
    (hcs : Derives (maxNesting - 1) cs [')'] (.forms false (structCall fields))) :
    read (String.ofList ('(' :: cs)) = .ok [.expr (structCall fields)] := by
  have hform : Derives maxNesting ('(' :: cs) [] (.form false (group false (structCall fields))) :=
    .paren hcs
  rw [read_eq_ok_iff, String.toList_ofList]
  exact accepts_of_derives (.cons hform (.nil false))

theorem alikeAll_keyed {p : Pairing} {fields fields' : Record Value}
    (h : p.AlikeFields fields fields') : p.AlikeAll (keyed fields) (keyed fields') := by
  induction fields generalizing fields' with
  | nil =>
    cases h
    exact .nil
  | cons field fields ih =>
    cases h with
    | cons key hv hs => exact .cons (.str key) (.cons hv (ih hs))

/-- To bring in the fields of a literal that was read leaves a coherent state, which they refer
to. -/
theorem Interpreter.Coherent.loadFields {i : Interpreter} (hi : i.Coherent) {room : Nat}
    {fields : Record Form} (hfields : Form.ReadableFields room fields) :
    Interpreter.Coherent { i with heap := (i.heap.loadFields fields).2 } ∧
      (i.heap.loadFields fields).2.self.AlikeAll (keyed (i.heap.loadFields fields).1)
        (keyed (i.heap.loadFields fields).1) := by
  obtain ⟨_, hevolves, ⟨rfl, -, hheap⟩, halike, -⟩ :=
    Lockstep.loadFields_later (S := .evolution) ⟨rfl, rfl, hi.heap⟩ fields hfields
  exact ⟨⟨hheap, hi.env.mono hevolves.within⟩, alikeAll_keyed halike⟩

end

/-- Struct literals agree with calls of `struct`. A literal is read as its entries with repeated
keys merged at their first place with their last form; the call with these keys and forms is read as
it stands. Wherever `struct` is the operation of that name, the two come to the same from any one
state, but for the text of the call in an error. If each is brought into the heap and evaluated on
its own, they come to the same but for that text and the cell of the literal. -/
theorem struct_literals_agree_with_calls {cs : List Char} {entries : List (String × Form)}
    (hcs : Grammar.Derives (Reader.maxNesting - 1) cs ['\x7d'] (.fields entries)) {i : Interpreter}
    (hi : i.Coherent) (hidle : i.uses = []) {id : Nat} {title : String}
    (hstruct : i.env.get? "struct" = some (.checked id title [.rest] .struct)) (fuel : Nat) :
    let fields := Record.merged entries
    let literal := i.heap.load (.struct fields)
    let call := i.heap.load (.expr (structCall fields))
    let read₁ : Interpreter := { i with heap := literal.2 }
    let read₂ : Interpreter := { i with heap := call.2 }
    read (String.ofList ('\x7b' :: cs)) = .ok [.struct fields] ∧
    (∀ ds, Grammar.Derives (Reader.maxNesting - 1) ds [')'] (.forms false (structCall fields)) →
      read (String.ofList ('(' :: ds)) = .ok [.expr (structCall fields)]) ∧
    evaluate (fuel + 2) call.1 read₁ =
      leavingCrumb call.1 (evaluate (fuel + 2) literal.1) read₁ ∧
    Agree call.2.size (.struct (i.heap.loadFields fields).1) call.1
      (evaluate (fuel + 2) literal.1 read₁) (evaluate (fuel + 2) call.1 read₂) := by
  intro fields literal call read₁ read₂
  have hread : read (String.ofList ('\x7b' :: cs)) = .ok [.struct fields] := read_structLiteral hcs
  have hreadable : (Form.struct fields).Readable Reader.maxNesting :=
    Reader.readable_start hread _ List.mem_cons_self
  obtain ⟨hcoherent, halike⟩ := hi.loadFields hreadable.2.2
  let loaded := i.heap.loadFields fields
  have hcall : call = (.expr (.symbol "struct" :: keyed loaded.1), loaded.2) :=
    load_structCall i.heap fields
  have hnewest : read₁.heap.fields loaded.2.size = loaded.1 := Heap.fields_alloc loaded.2 loaded.1
  refine ⟨hread, fun ds hds => read_structCall hds, ?_, ?_⟩
  · have hsame := evaluate_structCall (i := read₁) hidle hstruct fuel loaded.2.size
    rw [hnewest] at hsame
    rw [hcall]
    exact hsame
  · have hagree := agree_of_newest hcoherent hidle hstruct halike fuel
    simp only [read₂, hcall]
    exact hagree

def Interpreter.building : Interpreter :=
  { maxDepth := 9,
    env := { globals := [("struct", .checked 0 "struct" [.rest] .struct), ("x", .int 5)] } }

theorem Interpreter.coherent_building : Interpreter.building.Coherent :=
  ⟨⟨nofun, nofun⟩, .cons "struct" (.checked ..) (.cons "x" (.int 5) .nil), .nil⟩

-- In `a: 1 b: 2 a: x` the first key is written again, with a form that is evaluated first.
theorem struct_literals_agree_with_calls_repeated :
    read "\x7ba: 1 b: 2 a: x\x7d" = .ok [.struct [("a", .symbol "x"), ("b", .int 2)]] ∧
    ∃ i j, evaluate 4 (.struct 0)
        { Interpreter.building with heap := ⟨#[.struct [("a", .symbol "x"), ("b", .int 2)]]⟩ } =
          .ok (.struct 1) i ∧
      evaluate 4 (.expr [.symbol "struct", .str "a", .symbol "x", .str "b", .int 2]) .building =
        .ok (.struct 0) j ∧
      i.Inserts 0 (.struct [("a", .symbol "x"), ("b", .int 2)]) j := by
  have hnumber : ∀ {room : Nat} {rest : List Char} {d : Char} {n : Int64},
      CharClass.ofChar d = .digit → n.toInt = Nat.ofDigitChars 10 [d] 0 →
      (Grammar.ahead rest).endsNumber = true →
      Grammar.Derives room ([d] ++ rest) rest (.form false (.int n)) := by
    intro room rest d n hd hn hrest
    have hdigits : Grammar.Digits [d] := by simpa [Grammar.Digits] using hd
    exact .number false (.int false (List.cons_ne_nil d []) hdigits hn) hrest
  have hx : Grammar.NameText ['x'] (.symbol "x") :=
    .path ⟨⟨'x', [], rfl, by decide, nofun⟩, nofun⟩ (by decide) (by decide) (by decide)
  have hfield : ∀ {room : Nat} {key : Char} {cs ds rest : List Char} {f : Form}
      {entries : List (String × Form)}, CharClass.ofChar key = .letter →
      Grammar.Derives room cs ds (.form false f) → Grammar.Derives room ds rest (.fields entries) →
      Grammar.Derives room ([key] ++ ([] ++ ':' :: ([' '] ++ cs))) rest
        (.fields ((String.ofList [key], f) :: entries)) := by
    intro room key cs ds rest f entries hkey hf hfs
    have hblank : Grammar.Blanks [' '] := by simp [Grammar.Blanks]; decide
    exact .field ⟨key, [], rfl, hkey, nofun⟩ nofun hblank hf hfs
  have hcs : Grammar.Derives (Reader.maxNesting - 1) "a: 1 b: 2 a: x\x7d".toList ['\x7d']
      (.fields [("a", .int 1), ("b", .int 2), ("a", .symbol "x")]) := by
    refine hfield (by decide) (hnumber (by decide) (by decide) (by decide)) ?_
    refine .fieldsBlank (by decide) ?_
    refine hfield (by decide) (hnumber (by decide) (by decide) (by decide)) ?_
    refine .fieldsBlank (by decide) ?_
    exact hfield (by decide) (.name hx (by decide)) .noFields
  obtain ⟨hread, -, -, hagree⟩ := struct_literals_agree_with_calls hcs Interpreter.coherent_building
    rfl rfl 2
  have hmerged : Record.merged [("a", Form.int 1), ("b", .int 2), ("a", .symbol "x")] =
      [("a", .symbol "x"), ("b", .int 2)] := by simp [Record.merged, Record.lastOf]
  rw [hmerged] at hread hagree
  refine ⟨hread, ?_⟩
  let i : Interpreter := { Interpreter.building with heap := ⟨#[
    .struct [("a", .symbol "x"), ("b", .int 2)], .struct [("a", .int 5), ("b", .int 2)]]⟩ }
  let j : Interpreter :=
    { Interpreter.building with heap := ⟨#[.struct [("a", .int 5), ("b", .int 2)]]⟩ }
  have hliteral : evaluate 4 (.struct 0)
      { Interpreter.building with heap := ⟨#[.struct [("a", .symbol "x"), ("b", .int 2)]]⟩ } =
        .ok (.struct 1) i := by
    cbv
  have hcalled : evaluate 4 (.expr [.symbol "struct", .str "a", .symbol "x", .str "b", .int 2])
      .building = .ok (.struct 0) j := by
    cbv
  refine ⟨i, j, hliteral, hcalled, ?_⟩
  change Agree 0 _ _
    (evaluate 4 (.struct 0)
      { Interpreter.building with heap := ⟨#[.struct [("a", .symbol "x"), ("b", .int 2)]]⟩ })
    (evaluate 4 (.expr [.symbol "struct", .str "a", .symbol "x", .str "b", .int 2])
      .building) at hagree
  rw [hliteral, hcalled] at hagree
  cases hagree with
  | ok _ _ hinserts => exact hinserts

end Lisplet
