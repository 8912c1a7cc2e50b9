import Lisplet.Proofs.Feeding
import Lisplet.Proofs.Loading

/-!
# Canonical text reads back

The canonical text of a form that was read is read again as one form. It is the same form, unless a
quoted list has `Nil` for an item: there is no way to write this constant in a quoted list but as
the empty list it was read from, and `Nil` is read as a word. Doubles are left out of account.

The induction is on the form. Where a form is expected and where an item of a quoted list is, the
machine reads differently, so there is one statement for each, and each gives the room for brackets
that is left.
-/

namespace Lisplet

/-! ## Parts of a form -/

namespace Form

inductive Within (g : Form) : Form → Prop
  | self : Within g g
  | item {f : Form} {items : List Form} : f ∈ items → Within g f → Within g (.list items)
  | part {f : Form} {items : List Form} : f ∈ items → Within g f → Within g (.expr items)
  | field {key : String} {f : Form} {fields : List (String × Form)} : (key, f) ∈ fields →
      Within g f → Within g (.struct fields)

def HasNoDouble (f : Form) : Prop :=
  ∀ d, ¬ (Form.double d).Within f

/-- No quoted list in the form has `Nil` for an item. -/
def HasNoNilItem (f : Form) : Prop :=
  ∀ items, (Form.list items).Within f → Form.nil ∉ items

/-! ## What is read back -/

mutual

/-- The form that the canonical text of a form is read as. -/
def reread : Form → Form
  | .list items => .list (rereadItems items)
  | .expr items => .expr (rereadAll items)
  | .struct fields => .struct (rereadFields fields)
  | f => f

def rereadAll : List Form → List Form
  | [] => []
  | f :: fs => f.reread :: rereadAll fs

/-- The items of a quoted list: the constant becomes a word. -/
def rereadItems : List Form → List Form
  | [] => []
  | .nil :: fs => .str "Nil" :: rereadItems fs
  | f :: fs => f.reread :: rereadItems fs

def rereadFields : List (String × Form) → List (String × Form)
  | [] => []
  | (key, f) :: fs => (key, f.reread) :: rereadFields fs

end

def rereadItem : Form → Form
  | .nil => .str "Nil"
  | f => f.reread

theorem rereadItems_cons (f : Form) (fs : List Form) :
    rereadItems (f :: fs) = f.rereadItem :: rereadItems fs := by
  cases f <;> rfl

theorem rereadItems_ne_nil {fs : List Form} (h : fs ≠ []) : rereadItems fs ≠ [] := by
  cases fs with
  | nil => exact absurd rfl h
  | cons f fs => simp [rereadItems_cons]

theorem rereadAll_ne_nil {fs : List Form} (h : fs ≠ []) : rereadAll fs ≠ [] := by
  cases fs with
  | nil => exact absurd rfl h
  | cons f fs => simp [rereadAll]

/-! ## Where nothing changes -/

theorem hasNoNilItem_list {items : List Form} :
    (Form.list items).HasNoNilItem ↔ .nil ∉ items ∧ ∀ f ∈ items, f.HasNoNilItem := by
  constructor
  · intro h
    exact ⟨h items .self, fun f hf inner hinner => h inner (.item hf hinner)⟩
  · rintro ⟨hnil, hitems⟩ inner hinner
    cases hinner with
    | self => exact hnil
    | item hf hinner => exact hitems _ hf inner hinner

theorem hasNoNilItem_expr {items : List Form} :
    (Form.expr items).HasNoNilItem ↔ ∀ f ∈ items, f.HasNoNilItem := by
  constructor
  · exact fun h f hf inner hinner => h inner (.part hf hinner)
  · intro h inner hinner
    cases hinner with
    | part hf hinner => exact h _ hf inner hinner

theorem hasNoNilItem_struct {fields : List (String × Form)} :
    (Form.struct fields).HasNoNilItem ↔ ∀ e ∈ fields, e.2.HasNoNilItem := by
  constructor
  · exact fun h e he inner hinner => h inner (.field he hinner)
  · intro h inner hinner
    cases hinner with
    | field he hinner => exact h _ he inner hinner

theorem rereadItem_of_ne {f : Form} (h : f ≠ .nil) : f.rereadItem = f.reread := by
  cases f with
  | nil => exact absurd rfl h
  | _ => rfl

mutual

theorem reread_eq : (f : Form) → f.HasNoNilItem → f.reread = f
  | .nil, _ | .true, _ | .int _, _ | .double _, _ | .str _, _ | .symbol _, _ => rfl
  | .list items, h => by
    obtain ⟨hnil, hitems⟩ := hasNoNilItem_list.mp h
    rw [reread, rereadItems_eq items hnil hitems]
  | .expr items, h => by rw [reread, rereadAll_eq items (hasNoNilItem_expr.mp h)]
  | .struct fields, h => by rw [reread, rereadFields_eq fields (hasNoNilItem_struct.mp h)]

theorem rereadAll_eq : (fs : List Form) → (∀ f ∈ fs, f.HasNoNilItem) → rereadAll fs = fs
  | [], _ => rfl
  | f :: fs, h => by
    rw [rereadAll, reread_eq f (h f List.mem_cons_self),
      rereadAll_eq fs fun g hg => h g (List.mem_cons_of_mem _ hg)]

theorem rereadItems_eq : (fs : List Form) → .nil ∉ fs → (∀ f ∈ fs, f.HasNoNilItem) →
    rereadItems fs = fs
  | [], _, _ => rfl
  | f :: fs, hnil, h => by
    have hne : f ≠ .nil := fun heq => hnil (heq ▸ List.mem_cons_self)
    rw [rereadItems_cons, rereadItem_of_ne hne, reread_eq f (h f List.mem_cons_self),
      rereadItems_eq fs (fun hmem => hnil (List.mem_cons_of_mem _ hmem))
        fun g hg => h g (List.mem_cons_of_mem _ hg)]

theorem rereadFields_eq : (fs : List (String × Form)) → (∀ e ∈ fs, e.2.HasNoNilItem) →
    rereadFields fs = fs
  | [], _ => rfl
  | (key, f) :: fs, h => by
    rw [rereadFields, reread_eq f (h _ List.mem_cons_self),
      rereadFields_eq fs fun e he => h e (List.mem_cons_of_mem _ he)]

end

/-! ## What changes shows in the listing -/

theorem length_nodes_rereadItem {f : Form} (h : f.reread.nodes.length = f.nodes.length) :
    f.rereadItem.nodes.length = f.nodes.length := by
  cases f with
  | nil => rfl
  | _ => exact h

theorem ne_nil_of_nodes {f : Form} (h : f.rereadItem.nodes = f.nodes) : f ≠ .nil := by
  rintro rfl
  revert h
  decide

-- The listings have the same length part by part, so a difference in one part is not made up for
-- by another.
mutual

theorem length_nodes_reread : (f : Form) → f.reread.nodes.length = f.nodes.length
  | .nil | .true | .int _ | .double _ | .str _ | .symbol _ => rfl
  | .list items => congrArg (· + 1) (length_nodes_rereadItems items)
  | .expr items => congrArg (· + 1) (length_nodes_rereadAll items)
  | .struct fields => congrArg (· + 1) (length_nodes_rereadFields fields)

theorem length_nodes_rereadAll : (fs : List Form) →
    (allNodes (rereadAll fs)).length = (allNodes fs).length
  | [] => rfl
  | f :: fs => by
    simp only [rereadAll, allNodes, List.length_append, length_nodes_reread f,
      length_nodes_rereadAll fs]

theorem length_nodes_rereadItems : (fs : List Form) →
    (allNodes (rereadItems fs)).length = (allNodes fs).length
  | [] => rfl
  | f :: fs => by
    simp only [rereadItems_cons, allNodes, List.length_append,
      length_nodes_rereadItem (length_nodes_reread f), length_nodes_rereadItems fs]

theorem length_nodes_rereadFields : (fs : List (String × Form)) →
    (fieldNodes (rereadFields fs)).length = (fieldNodes fs).length
  | [] => rfl
  | (key, f) :: fs => by
    simp only [rereadFields, fieldNodes, List.length_append, List.length_cons,
      length_nodes_reread f, length_nodes_rereadFields fs]

end

mutual

theorem hasNoNilItem_of_nodes : (f : Form) → f.reread.nodes = f.nodes → f.HasNoNilItem
  | .nil, _ | .true, _ | .int _, _ | .double _, _ | .str _, _ | .symbol _, _ => nofun
  | .list items, h =>
    hasNoNilItem_list.mpr (hasNoNilItem_of_items items (List.tail_eq_of_cons_eq h))
  | .expr items, h =>
    hasNoNilItem_expr.mpr (hasNoNilItem_of_parts items (List.tail_eq_of_cons_eq h))
  | .struct fields, h =>
    hasNoNilItem_struct.mpr (hasNoNilItem_of_fields fields (List.tail_eq_of_cons_eq h))

theorem hasNoNilItem_of_parts : (fs : List Form) → allNodes (rereadAll fs) = allNodes fs →
    ∀ f ∈ fs, f.HasNoNilItem
  | [], _ => nofun
  | f :: fs, h => by
    obtain ⟨hf, hfs⟩ := List.append_inj h (length_nodes_reread f)
    exact List.forall_mem_cons.mpr ⟨hasNoNilItem_of_nodes f hf, hasNoNilItem_of_parts fs hfs⟩

theorem hasNoNilItem_of_items : (fs : List Form) → allNodes (rereadItems fs) = allNodes fs →
    .nil ∉ fs ∧ ∀ f ∈ fs, f.HasNoNilItem
  | [], _ => ⟨nofun, nofun⟩
  | f :: fs, h => by
    rw [rereadItems_cons] at h
    obtain ⟨hf, hfs⟩ := List.append_inj h (length_nodes_rereadItem (length_nodes_reread f))
    have hne := ne_nil_of_nodes hf
    rw [rereadItem_of_ne hne] at hf
    obtain ⟨hnil, hrest⟩ := hasNoNilItem_of_items fs hfs
    refine ⟨?_, List.forall_mem_cons.mpr ⟨hasNoNilItem_of_nodes f hf, hrest⟩⟩
    rw [List.mem_cons, not_or]
    exact ⟨hne.symm, hnil⟩

theorem hasNoNilItem_of_fields : (fs : List (String × Form)) →
    fieldNodes (rereadFields fs) = fieldNodes fs → ∀ e ∈ fs, e.2.HasNoNilItem
  | [], _ => nofun
  | (key, f) :: fs, h => by
    obtain ⟨hf, hfs⟩ := List.append_inj (List.tail_eq_of_cons_eq h) (length_nodes_reread f)
    exact List.forall_mem_cons.mpr ⟨hasNoNilItem_of_nodes f hf, hasNoNilItem_of_fields fs hfs⟩

end

end Form

namespace Reader

open CharClass State

/-! ## Texts side by side -/

def spaced (texts : List String) : List Char :=
  texts.flatMap fun text => ' ' :: text.toList

theorem toList_intercalate_spaced (text : String) (texts : List String) :
    (" ".intercalate (text :: texts)).toList = text.toList ++ spaced texts := by
  induction texts generalizing text with
  | nil => simp [spaced]
  | cons other texts ih =>
    rw [String.intercalate_cons_cons, String.toList_append, String.toList_append, ih,
      List.append_assoc]
    rfl

theorem breaks_spaced (texts : List String) : Breaks (spaced texts) := by
  cases texts with
  | nil => exact nofun
  | cons text texts =>
    rintro c hc
    cases hc
    decide

theorem breaks_singleton {c : Char} (h : (ofChar c).endsNumber = true) : Breaks [c] := by
  rintro d hd
  cases hd
  exact h

/-- Texts with spaces between them, given what is read as the first and what as the others. -/
theorem reads_intercalate {s t u : State} {text : String} {texts : List String}
    (hfirst : s.Reads text.toList t) (hmore : t.Reads (spaced texts) u) :
    s.Reads (" ".intercalate (text :: texts)).toList u := by
  rw [toList_intercalate_spaced]
  exact hfirst.append (breaks_spaced texts) hmore

section

variable {forms : List Form} {stack : List Open} {p : Nat} {cs : List Char}
  {items : List Form} {fields : Record Form} {t : State}

/-! ## Brackets -/

theorem reads_space_form (h : AtForm stack)
    (hrest : (⟨forms, stack, .blank⟩ : State).Reads cs t) :
    (⟨forms, stack, .blank⟩ : State).Reads (' ' :: cs) t := by
  refine reads_cons (settle_form (by decide)) fun pos => ⟨_, ?_, hrest⟩
  rw [take_form h]
  rfl

theorem reads_space_item
    (hrest : (⟨forms, .list p items :: stack, .blank⟩ : State).Reads cs t) :
    (⟨forms, .list p items :: stack, .blank⟩ : State).Reads (' ' :: cs) t :=
  reads_cons (settle_form (by decide)) fun _ => ⟨_, rfl, hrest⟩

theorem reads_space_fields
    (hrest : (⟨forms, stack, .fields p fields⟩ : State).Reads cs t) :
    (⟨forms, stack, .fields p fields⟩ : State).Reads (' ' :: cs) t :=
  reads_cons rfl fun _ => ⟨_, rfl, hrest⟩

/-- An expression, given what is read between its brackets. -/
theorem reads_expr (h : AtForm stack) (hlen : stack.length < maxNesting) (hne : items ≠ [])
    (hbody : ∀ p, (⟨forms, .expr p [] :: stack, .blank⟩ : State).Reads cs
      ⟨forms, .expr p items.reverse :: stack, .blank⟩) :
    (⟨forms, stack, .blank⟩ : State).Reads ('(' :: (cs ++ [')']))
      ((⟨forms, stack, .blank⟩ : State).deliver (.expr items)) := by
  refine reads_cons (settle_form (by decide)) fun pos =>
    ⟨⟨forms, .expr pos [] :: stack, .blank⟩, ?_, ?_⟩
  · rw [take_form h]
    exact if_pos hlen
  · refine (hbody pos).append (breaks_singleton (by decide)) ?_
    refine reads_cons (settle_form (by decide)) fun _ => ⟨_, ?_, reads_nil _⟩
    show Except.ok (State.deliver ⟨forms, stack, .blank⟩ (exprForm items.reverse.reverse)) = _
    rw [List.reverse_reverse, exprForm, if_neg (by simpa using hne)]

/-- The rest of a quoted list, after its opening bracket. -/
theorem reads_list (hne : items ≠ [])
    (hbody : (⟨forms, .list p [] :: stack, .blank⟩ : State).Reads cs
      ⟨forms, .list p items.reverse :: stack, .blank⟩) :
    (⟨forms, .list p [] :: stack, .blank⟩ : State).Reads (cs ++ [')'])
      ((⟨forms, stack, .blank⟩ : State).deliver (.list items)) := by
  refine hbody.append (breaks_singleton (by decide)) ?_
  refine reads_cons (settle_form (by decide)) fun _ => ⟨_, ?_, reads_nil _⟩
  show Except.ok (State.deliver ⟨forms, stack, .blank⟩ (listForm items.reverse.reverse)) = _
  rw [List.reverse_reverse, listForm, if_neg (by simpa using hne)]

theorem reads_list_form (h : AtForm stack) (hlen : stack.length < maxNesting) (hne : items ≠ [])
    (hbody : ∀ p, (⟨forms, .list p [] :: stack, .blank⟩ : State).Reads cs
      ⟨forms, .list p items.reverse :: stack, .blank⟩) :
    (⟨forms, stack, .blank⟩ : State).Reads ('\x27' :: '(' :: (cs ++ [')']))
      ((⟨forms, stack, .blank⟩ : State).deliver (.list items)) := by
  refine reads_cons (settle_form (by decide)) fun start => ⟨⟨forms, stack, .tick start⟩, ?_, ?_⟩
  · rw [take_form h]
    rfl
  · refine reads_cons rfl fun pos =>
      ⟨⟨forms, .list pos [] :: stack, .blank⟩, ?_, reads_list hne (hbody pos)⟩
    exact if_pos hlen

theorem reads_list_item {outer : List Form} (hlen : stack.length + 1 < maxNesting)
    (hne : items ≠ [])
    (hbody : ∀ q, (⟨forms, .list q [] :: .list p outer :: stack, .blank⟩ : State).Reads cs
      ⟨forms, .list q items.reverse :: .list p outer :: stack, .blank⟩) :
    (⟨forms, .list p outer :: stack, .blank⟩ : State).Reads ('(' :: (cs ++ [')']))
      ((⟨forms, .list p outer :: stack, .blank⟩ : State).deliver (.list items)) := by
  refine reads_cons (settle_form (by decide)) fun pos =>
    ⟨⟨forms, .list pos [] :: .list p outer :: stack, .blank⟩, ?_, reads_list hne (hbody pos)⟩
  exact if_pos hlen

/-- A struct, given what is read between its braces. -/
theorem reads_struct (h : AtForm stack) (hlen : stack.length < maxNesting)
    (hbody : ∀ p, (⟨forms, stack, .fields p []⟩ : State).Reads cs
      ⟨forms, stack, .fields p fields⟩) :
    (⟨forms, stack, .blank⟩ : State).Reads ('\x7b' :: (cs ++ ['\x7d']))
      ((⟨forms, stack, .blank⟩ : State).deliver (.struct fields)) := by
  refine reads_cons (settle_form (by decide)) fun pos =>
    ⟨⟨forms, stack, .fields pos []⟩, ?_, ?_⟩
  · rw [take_form h]
    exact if_pos hlen
  · refine (hbody pos).append (breaks_singleton (by decide)) ?_
    refine reads_cons rfl fun _ => ⟨_, ?_, reads_nil _⟩
    show Except.ok (State.deliver ⟨forms, stack, .fields pos fields⟩ (.struct fields)) = _
    rw [deliver_mode]

/-! ## Keys -/

theorem feed_key {text : List Char} {pos : Nat} (hcs : ∀ c ∈ cs, (ofChar c).continuesKey = true) :
    (⟨forms, stack, .key p fields text⟩ : State).feed pos cs =
      .ok ⟨forms, stack, .key p fields (cs.reverse ++ text)⟩ := by
  induction cs generalizing pos text with
  | nil => rfl
  | cons c cs ih =>
    have hc := hcs c List.mem_cons_self
    have hsettle : (⟨forms, stack, .key p fields text⟩ : State).settle (some c) =
        .ok ⟨forms, stack, .key p fields text⟩ := by
      simp only [settle, Option.elim_some, decideMinus, endLexeme, hc, if_true]
      rfl
    rw [feed_cons hsettle rfl, ih fun d hd => hcs d (List.mem_cons_of_mem _ hd)]
    simp

/-- A key with its colon, and then what is read as its value. -/
theorem reads_key {key : String} (hkey : KeyText key.toList)
    (hrest : (⟨forms, .field p fields key :: stack, .blank⟩ : State).Reads cs t) :
    (⟨forms, stack, .fields p fields⟩ : State).Reads (key.toList ++ ':' :: cs) t := by
  obtain ⟨c, rest, hchars, hc, hcontinues⟩ := hkey
  have htake : ∀ pos, (⟨forms, stack, .fields p fields⟩ : State).take pos c =
      .ok ⟨forms, stack, .key p fields [c]⟩ := by
    intro pos
    show State.beginKey _ p fields c = _
    simp only [beginKey, hc]
  have hname : String.ofList (rest.reverse ++ [c]).reverse = key := by
    rw [List.reverse_append, List.reverse_reverse, List.reverse_singleton, List.singleton_append,
      ← hchars, String.ofList_toList]
  have hcolon : (⟨forms, stack, .key p fields (rest.reverse ++ [c])⟩ : State).settle (some ':') =
      .ok ⟨forms, stack, .colon p fields key⟩ := by
    show State.refuse ⟨forms, stack, .colon p fields _⟩ (some ':') = _
    rw [hname]
    rfl
  intro pos
  obtain ⟨u, hu, hmeets⟩ := hrest (pos + 1 + rest.length + 1)
  refine ⟨u, ?_, hmeets⟩
  rw [hchars, List.cons_append, feed_cons rfl (htake pos), feed_append (feed_key hcontinues),
    feed_cons hcolon rfl, ← hu]

end

/-! ## Literals -/

theorem toList_bracketed (left text right : String) :
    (left ++ text ++ right).toList = left.toList ++ (text.toList ++ right.toList) := by
  rw [String.toList_append, String.toList_append, List.append_assoc]

-- By induction on the literal. The brackets that are open and the room that the literal needs are
-- together never more than can be nested.
mutual

theorem reads_item {forms : List Form} {p room : Nat} : (f : Form) → f.Literal room →
    f.HasNoDouble → ∀ {stack : List Open} {items : List Form},
    stack.length + 1 + room ≤ maxNesting →
    (⟨forms, .list p items :: stack, .blank⟩ : State).Reads f.itemText.toList
      ((⟨forms, .list p items :: stack, .blank⟩ : State).deliver f.rereadItem)
  | .nil, _, _, _, _, _ => reads_nil_item
  | .int n, _, _, _, _, _ => reads_int_item n
  | .str text, _, _, _, _, _ => reads_str_item text
  | .double d, _, hexact, _, _, _ => absurd .self (hexact d)
  | .list fs, hf, hexact, stack, _, hroom => by
    obtain ⟨hpos, hne, hfs⟩ := hf
    have hparts : ∀ f ∈ fs, f.HasNoDouble := fun f hmem d hd => hexact d (.item hmem hd)
    have htext : (Form.list fs).itemText.toList =
        '(' :: ((" ".intercalate (Form.itemTexts fs)).toList ++ [')']) := toList_bracketed "(" _ ")"
    rw [htext]
    refine reads_list_item (by omega) (Form.rereadItems_ne_nil hne) fun q => ?_
    exact reads_items fs hfs hparts (by simp only [List.length_cons]; omega)

theorem reads_items {forms : List Form} {p room : Nat} : (fs : List Form) →
    Form.LiteralAll room fs → (∀ f ∈ fs, f.HasNoDouble) → ∀ {stack : List Open},
    stack.length + 1 + room ≤ maxNesting →
    (⟨forms, .list p [] :: stack, .blank⟩ : State).Reads
      (" ".intercalate (Form.itemTexts fs)).toList
      ⟨forms, .list p (Form.rereadItems fs).reverse :: stack, .blank⟩
  | [], _, _, _, _ => reads_nil _
  | f :: fs, hfs, hexact, _, hroom => by
    rw [Form.itemTexts_cons, Form.rereadItems_cons, List.reverse_cons]
    refine reads_intercalate (reads_item f hfs.1 (hexact f List.mem_cons_self) hroom) ?_
    exact reads_moreItems fs hfs.2 (fun g hg => hexact g (List.mem_cons_of_mem _ hg)) hroom

theorem reads_moreItems {forms : List Form} {p room : Nat} : (fs : List Form) →
    Form.LiteralAll room fs → (∀ f ∈ fs, f.HasNoDouble) →
    ∀ {stack : List Open} {items : List Form}, stack.length + 1 + room ≤ maxNesting →
    (⟨forms, .list p items :: stack, .blank⟩ : State).Reads (spaced (Form.itemTexts fs))
      ⟨forms, .list p ((Form.rereadItems fs).reverse ++ items) :: stack, .blank⟩
  | [], _, _, _, _, _ => reads_nil _
  | f :: fs, hfs, hexact, _, items, hroom => by
    rw [Form.itemTexts_cons, Form.rereadItems_cons, List.reverse_cons, List.append_assoc]
    refine reads_space_item ?_
    refine (reads_item f hfs.1 (hexact f List.mem_cons_self) hroom).append (breaks_spaced _) ?_
    exact reads_moreItems fs hfs.2 (fun g hg => hexact g (List.mem_cons_of_mem _ hg)) hroom

end

/-! ## Forms -/

theorem atForm_expr {stack : List Open} {p : Nat} {items : List Form} :
    AtForm (.expr p items :: stack) :=
  nofun

theorem atForm_field {stack : List Open} {p : Nat} {fields : Record Form} {key : String} :
    AtForm (.field p fields key :: stack) :=
  nofun

theorem symbolText_nil : SymbolText "Nil".toList :=
  ⟨⟨'N', ['i', 'l'], rfl, by decide +kernel, List.all_eq_true.mp (by decide +kernel)⟩, nofun⟩

theorem symbolText_true : SymbolText "True".toList :=
  ⟨⟨'T', ['r', 'u', 'e'], rfl, by decide +kernel, List.all_eq_true.mp (by decide +kernel)⟩, nofun⟩

/-- A field, given what is read as its value. -/
theorem reads_field {forms : List Form} {stack : List Open} {p : Nat} {fields : Record Form}
    {key text : String} {f : Form} (hkey : KeyText key.toList) (hnew : key ∉ Record.keys fields)
    (hvalue : (⟨forms, .field p fields key :: stack, .blank⟩ : State).Reads text.toList
      ((⟨forms, .field p fields key :: stack, .blank⟩ : State).deliver f)) :
    (⟨forms, stack, .fields p fields⟩ : State).Reads (key ++ ": " ++ text).toList
      ⟨forms, stack, .fields p (fields ++ [(key, f)])⟩ := by
  rw [toList_bracketed, ← Record.insert_of_not_mem hnew]
  exact reads_key hkey (reads_space_form atForm_field hvalue)

-- By induction on the form, in the same way; a quoted list leaves its items to `reads_items`.
mutual

theorem reads_form {forms : List Form} {room : Nat} : (f : Form) → f.Readable room →
    f.HasNoDouble → ∀ {stack : List Open}, AtForm stack → stack.length + room ≤ maxNesting →
    (⟨forms, stack, .blank⟩ : State).Reads f.text.toList
      ((⟨forms, stack, .blank⟩ : State).deliver f.reread)
  | .nil, _, _, _, h, _ => reads_name h symbolText_nil rfl
  | .true, _, _, _, h, _ => reads_name h symbolText_true rfl
  | .int n, _, _, _, h, _ => reads_int_form h n
  | .str text, _, _, _, h, _ => reads_str_form h text
  | .double d, _, hexact, _, _, _ => absurd .self (hexact d)
  | .symbol path, hpath, _, _, h, _ => by
    have hform := hpath.form
    rw [String.ofList_toList] at hform
    exact reads_name h hpath.toSymbolText hform
  | .list fs, hf, hexact, stack, h, hroom => by
    obtain ⟨hpos, hne, hfs⟩ := hf
    have hparts : ∀ f ∈ fs, f.HasNoDouble := fun f hmem d hd => hexact d (.item hmem hd)
    have htext : (Form.list fs).text.toList =
        '\x27' :: '(' :: ((" ".intercalate (Form.itemTexts fs)).toList ++ [')']) :=
      toList_bracketed "'(" _ ")"
    rw [htext]
    refine reads_list_form h (by omega) (Form.rereadItems_ne_nil hne) fun q => ?_
    exact reads_items fs hfs hparts (by omega)
  | .expr fs, hf, hexact, stack, h, hroom => by
    obtain ⟨hpos, hne, hfs⟩ := hf
    have hparts : ∀ f ∈ fs, f.HasNoDouble := fun f hmem d hd => hexact d (.part hmem hd)
    have htext : (Form.expr fs).text.toList =
        '(' :: ((" ".intercalate (Form.texts fs)).toList ++ [')']) :=
      toList_bracketed "(" _ ")"
    rw [htext]
    refine reads_expr h (by omega) (Form.rereadAll_ne_nil hne) fun q => ?_
    exact reads_parts fs hfs hparts (by omega)
  | .struct fs, hf, hexact, stack, h, hroom => by
    obtain ⟨hpos, hkeys, hfs⟩ := hf
    have hparts : ∀ e ∈ fs, e.2.HasNoDouble := fun e hmem d hd => hexact d (.field hmem hd)
    have htext : (Form.struct fs).text.toList =
        '\x7b' :: ((" ".intercalate (Form.fieldTexts fs)).toList ++ ['\x7d']) :=
      toList_bracketed "\x7b" _ "\x7d"
    rw [htext]
    refine reads_struct h (by omega) fun q => ?_
    exact reads_fields fs hfs hparts hkeys (by omega)

theorem reads_parts {forms : List Form} {p room : Nat} : (fs : List Form) →
    Form.ReadableAll room fs → (∀ f ∈ fs, f.HasNoDouble) → ∀ {stack : List Open},
    stack.length + 1 + room ≤ maxNesting →
    (⟨forms, .expr p [] :: stack, .blank⟩ : State).Reads
      (" ".intercalate (Form.texts fs)).toList
      ⟨forms, .expr p (Form.rereadAll fs).reverse :: stack, .blank⟩
  | [], _, _, _, _ => reads_nil _
  | f :: fs, hfs, hexact, _, hroom => by
    rw [Form.texts, Form.rereadAll, List.reverse_cons]
    refine reads_intercalate
      (reads_form f hfs.1 (hexact f List.mem_cons_self) atForm_expr hroom) ?_
    exact reads_moreParts fs hfs.2 (fun g hg => hexact g (List.mem_cons_of_mem _ hg)) hroom

theorem reads_moreParts {forms : List Form} {p room : Nat} : (fs : List Form) →
    Form.ReadableAll room fs → (∀ f ∈ fs, f.HasNoDouble) →
    ∀ {stack : List Open} {items : List Form}, stack.length + 1 + room ≤ maxNesting →
    (⟨forms, .expr p items :: stack, .blank⟩ : State).Reads (spaced (Form.texts fs))
      ⟨forms, .expr p ((Form.rereadAll fs).reverse ++ items) :: stack, .blank⟩
  | [], _, _, _, _, _ => reads_nil _
  | f :: fs, hfs, hexact, _, items, hroom => by
    rw [Form.texts, Form.rereadAll, List.reverse_cons, List.append_assoc]
    refine reads_space_form atForm_expr ?_
    refine (reads_form f hfs.1 (hexact f List.mem_cons_self) atForm_expr hroom).append
      (breaks_spaced _) ?_
    exact reads_moreParts fs hfs.2 (fun g hg => hexact g (List.mem_cons_of_mem _ hg)) hroom

theorem reads_fields {forms : List Form} {p room : Nat} : (fs : List (String × Form)) →
    Form.ReadableFields room fs → (∀ e ∈ fs, e.2.HasNoDouble) → (Record.keys fs).Nodup →
    ∀ {stack : List Open}, stack.length + 1 + room ≤ maxNesting →
    (⟨forms, stack, .fields p []⟩ : State).Reads
      (" ".intercalate (Form.fieldTexts fs)).toList
      ⟨forms, stack, .fields p (Form.rereadFields fs)⟩
  | [], _, _, _, _, _ => reads_nil _
  | (key, f) :: fs, hfs, hexact, hkeys, _, hroom => by
    rw [Form.fieldTexts, Form.rereadFields]
    refine reads_intercalate (reads_field hfs.1.1 List.not_mem_nil
      (reads_form f hfs.1.2 (hexact _ List.mem_cons_self) atForm_field hroom)) ?_
    exact reads_moreFields fs hfs.2 (fun e he => hexact e (List.mem_cons_of_mem _ he)) hkeys hroom

/-- The fields after the first ones, whose keys have not been read yet. -/
theorem reads_moreFields {forms : List Form} {p room : Nat} : (fs : List (String × Form)) →
    Form.ReadableFields room fs → (∀ e ∈ fs, e.2.HasNoDouble) →
    ∀ {stack : List Open} {fields : Record Form},
    (Record.keys fields ++ Record.keys fs).Nodup → stack.length + 1 + room ≤ maxNesting →
    (⟨forms, stack, .fields p fields⟩ : State).Reads (spaced (Form.fieldTexts fs))
      ⟨forms, stack, .fields p (fields ++ Form.rereadFields fs)⟩
  | [], _, _, _, fields, _, _ => by
    rw [Form.rereadFields, List.append_nil]
    exact reads_nil _
  | (key, f) :: fs, hfs, hexact, _, fields, hkeys, hroom => by
    have hnew : key ∉ Record.keys fields := fun hmem =>
      (List.nodup_append.mp hkeys).2.2 key hmem key List.mem_cons_self rfl
    have hrest : (Record.keys (fields ++ [(key, f.reread)]) ++ Record.keys fs).Nodup := by
      simpa [Record.keys] using hkeys
    rw [Form.fieldTexts, Form.rereadFields, List.append_cons fields]
    refine reads_space_fields ?_
    refine (reads_field hfs.1.1 hnew
      (reads_form f hfs.1.2 (hexact _ List.mem_cons_self) atForm_field hroom)).append
      (breaks_spaced _) ?_
    exact reads_moreFields fs hfs.2 (fun e he => hexact e (List.mem_cons_of_mem _ he)) hrest hroom

end

end Reader

/-! ## Whole texts -/

open Reader

/-- A text that leads to a state between forms is read as the forms completed there. No answer is
asked for. -/
theorem all_of_reads {source : String} {forms : List Form}
    (h : ({} : State).Reads source.toList ⟨forms, [], .blank⟩) (answers : List (Option String)) :
    (ofSource source answers).all.1 = .ok forms.reverse := by
  obtain ⟨u, hu, hmeets⟩ := h 0
  have hrun : (run false {} [] 0 source.toList).outcome = .ok ⟨forms, [], .blank⟩ :=
    (outcome_run_of_feed hu).trans (hmeets none rfl)
  show (resume false {} (ofSource source answers) answers).1 = _
  cases answers with
  | nil =>
    simp only [resume, leg, ofSource, hrun]
    rfl
  | cons answer rest =>
    simp only [resume, leg, ofSource, hrun]
    rfl

theorem all_text {f : Form} (hf : f.Readable maxNesting) (hexact : f.HasNoDouble)
    (answers : List (Option String)) : (ofSource f.text answers).all.1 = .ok [f.reread] :=
  all_of_reads (reads_form f hf hexact nofun (by simp)) answers

/-- The reader returns the form for some source, together with others or alone. -/
def Form.Returned (f : Form) : Prop :=
  (∃ (r : Reader) (fs : List Form), r.all.1 = .ok fs ∧ f ∈ fs) ∨ ∃ r : Reader, r.next.1 = .ok f

theorem Form.Returned.readable {f : Form} (h : f.Returned) : f.Readable maxNesting := by
  rcases h with ⟨r, fs, hfs, hf⟩ | ⟨r, hf⟩
  · exact readable_start hfs f hf
  · unfold next at hf
    split at hf
    next fs r' hstart =>
      cases hf
      cases fs with
      | nil => trivial
      | cons f fs => exact readable_start (congrArg Prod.fst hstart) f List.mem_cons_self
    next => cases hf

/-- The canonical text of a form without doubles, which is also the text of the value made of the
form, is read as one form. This form has the same nodes as the first one, and is the same, exactly
if no quoted list has `Nil` for an item. The forms in question are of every kind: integers, strings
and names of any spelling, nested as deep as brackets may be. -/
theorem canonical_text_reads_back :
    (∀ f : Form, f.Returned → f.HasNoDouble →
      (∀ h : Heap, (h.load f).2.text (h.load f).1 = f.text) ∧
      (∀ answers, (ofSource f.text answers).all.1 = .ok [f.reread]) ∧
      (f.reread.nodes = f.nodes ↔ f.HasNoNilItem) ∧
      (f.reread = f ↔ f.HasNoNilItem)) ∧
    ∀ f : Form, f.Readable maxNesting → f.HasNoDouble → f.HasNoNilItem → f.Returned := by
  constructor
  · intro f hf hexact
    have hnodes : f.reread.nodes = f.nodes → f.HasNoNilItem := Form.hasNoNilItem_of_nodes f
    have hsame : f.HasNoNilItem → f.reread = f := Form.reread_eq f
    refine ⟨Heap.text_load hf.readable, all_text hf.readable hexact, ⟨hnodes, ?_⟩, ?_, hsame⟩
    · exact fun h => congrArg Form.nodes (hsame h)
    · exact fun h => hnodes (congrArg Form.nodes h)
  · intro f hf hexact hnil
    have hread := all_text hf hexact []
    rw [Form.reread_eq f hnil] at hread
    exact .inl ⟨_, _, hread, List.mem_singleton_self f⟩

theorem canonical_text_reads_back_quoted :
    let f : Form := .expr [.symbol "a", .list [.nil, .int Int64.minValue]]
    let g : Form := .expr [.symbol "a", .list [.str "Nil", .int Int64.minValue]]
    f.Returned ∧ f.HasNoDouble ∧ ¬ f.HasNoNilItem ∧ f.text = "(a '(Nil -9223372036854775808))" ∧
      read f.text = .ok [g] ∧
      g.Returned ∧ g.HasNoDouble ∧ g.HasNoNilItem ∧ read g.text = .ok [g] := by
  intro f g
  have hexact : ∀ x : Form, x.HasNoDouble →
      (Form.expr [.symbol "a", .list [x, .int Int64.minValue]]).HasNoDouble := by
    rintro x hx d (_ | _ | ⟨hpart, h⟩ | _)
    rcases List.mem_pair.mp hpart with rfl | rfl
    · cases h
    · obtain _ | ⟨hitem, h⟩ := h
      rcases List.mem_pair.mp hitem with rfl | rfl
      · exact hx d h
      · cases h
  have hf : f.HasNoDouble := hexact .nil nofun
  have hg : g.HasNoDouble := hexact (.str "Nil") nofun
  have hread : read "(a '(() -9223372036854775808))" = .ok [f] := by cbv
  have hfirst : f.Returned := .inl ⟨_, _, hread, List.mem_singleton_self f⟩
  obtain ⟨-, hall, hnodes, -⟩ := canonical_text_reads_back.1 f hfirst hf
  have hagain : read f.text = .ok [g] := hall []
  have hsecond : g.Returned := .inl ⟨_, _, hagain, List.mem_singleton_self g⟩
  obtain ⟨-, hall', -, hsame⟩ := canonical_text_reads_back.1 g hsecond hg
  refine ⟨hfirst, hf, fun h => ?_, by decide +kernel, hagain, hsecond, hg, hsame.mp rfl, hall' []⟩
  have := hnodes.mpr h
  revert this
  decide +kernel

end Lisplet
