import Lisplet.Proofs.Readable
import Lisplet.Proofs.Reachable

/-!
# Data and program text

Values serve two ends. Some are data, to be had and kept by programs; others are forms, to be
evaluated. Both are of one type, and a struct that stands in a source is a cell of the same heap as
one that a program has made. A layout tells the cells that hold data from those that hold program
text. Under a layout every value fits a role or does not: signals fit neither, symbols and
expressions are no data, and the functions that are around take their arguments in roles in which
they are given.

The layout of a state grows with its heap. What fits keeps fitting.
-/

namespace Lisplet

/-- What a value is there for. -/
inductive Role where
  /-- To be used as it is. -/
  | datum
  /-- To be evaluated. -/
  | form
  deriving DecidableEq

/-! ## The roles of arguments -/

/-- The role in which arguments of a kind arrive. A string that stands for a symbol is none that a
program could have. -/
def Kind.role : Kind → Role
  | .unevaluated | .restUnevaluated | .symbol | .expression => .form
  | _ => .datum

/-- The roles of the arguments that a contract binds: those of the fixed ones, and that of all
others. -/
def givenRoles : Option (List Kind) → List Role × Role
  | none => ([], .form)
  | some contract => ((fixedKinds contract).map Kind.role, ((restKind? contract).getD .any).role)

/-- The roles in which an operation takes its arguments. -/
def Operation.takenRoles : Operation → List Role × Role
  | .block => ([.datum], .form)
  | .assign => ([.form, .datum], .form)
  | .list | .append | .struct | .fetch | .store | .native _ => ([], .datum)
  | _ => ([], .form)

/-- Data can be taken as forms, but not the other way. -/
def Role.serves (given taken : Role) : Bool :=
  taken = .form || given = .datum

/-- Whether arguments of the given roles can be taken in others, position by position. -/
def serveAll (given taken : Role) (gs : List Role) : List Role → Bool
  | [] => gs.all (·.serves taken) && given.serves taken
  | t :: ts => (gs.headD given).serves t && serveAll given taken gs.tail ts

def Operation.Suits (contract : Option (List Kind)) (op : Operation) : Prop :=
  serveAll (givenRoles contract).2 op.takenRoles.2 (givenRoles contract).1 op.takenRoles.1 = true

instance (contract : Option (List Kind)) (op : Operation) : Decidable (op.Suits contract) :=
  inferInstanceAs (Decidable (_ = _))

/-- Every primitive of the prelude gets its arguments as it takes them. -/
theorem prelude_suits : ∀ d ∈ Prelude.definitions, d.op.Suits d.contract := by
  decide

theorem serves_of_serveAll {given taken : Role} {gs ts : List Role}
    (h : serveAll given taken gs ts = true) :
    (gs.headD given).serves (ts.headD taken) = true ∧
      serveAll given taken gs.tail ts.tail = true := by
  cases gs <;> cases ts <;> simp_all [serveAll]

/-! ## Entries of frames -/

-- An assignment changes one entry of one frame.
theorem Environment.mem_setInFrames {α : Type} {name : String} {v : α} {fs gs : List (Record α)}
    (h : setInFrames name v fs = some gs) {g : Record α} (hg : g ∈ gs) {e : String × α}
    (he : e ∈ g) : e = (name, v) ∨ ∃ f ∈ fs, e ∈ f := by
  induction fs generalizing gs with
  | nil => simp [setInFrames] at h
  | cons f fs ih =>
    by_cases hf : f.has name = true
    · simp only [setInFrames, hf, if_true, Option.some.injEq] at h
      subst h
      rcases List.mem_cons.mp hg with rfl | hg
      · exact (Record.mem_insert he).imp id fun he => ⟨f, List.mem_cons_self, he⟩
      · exact .inr ⟨g, List.mem_cons_of_mem _ hg, he⟩
    · simp only [setInFrames, hf, Bool.false_eq_true, if_false, Option.map_eq_some_iff] at h
      obtain ⟨gs, hgs, rfl⟩ := h
      rcases List.mem_cons.mp hg with rfl | hg
      · exact .inr ⟨g, List.mem_cons_self, he⟩
      · obtain heq | ⟨f', hf', he⟩ := ih hgs hg
        · exact .inl heq
        · exact .inr ⟨f', List.mem_cons_of_mem _ hf', he⟩

/-! ## Layouts -/

structure Layout where
  data : Nat → Prop

namespace Layout

variable (L : Layout)

mutual

/-- The values that fit a role. Structs are the only cells that may hold forms. -/
def Fits : Role → Value → Prop
  | _, .list a => L.data a
  | role, .struct a => role = .datum → L.data a
  | role, .symbol _ => role = .form
  | role, .expr items => role = .form ∧ FitsAll .form items
  | _, .primitive _ _ op => op.Suits none
  | _, .checked _ _ contract op => op.Suits (some contract)
  | _, .closure _ captured _ body => FitsFields .datum captured ∧ Fits .form body
  | _, .leaving _ | _, .breaking _ | _, .goto _ | _, .label _ => False
  | _, .nil | _, .true | _, .int _ | _, .double _ | _, .str _ | _, .error _ => True

def FitsAll : Role → List Value → Prop
  | _, [] => True
  | role, v :: vs => Fits role v ∧ FitsAll role vs

def FitsFields : Role → List (String × Value) → Prop
  | _, [] => True
  | role, (_, v) :: r => Fits role v ∧ FitsFields role r

end

/-- Arguments that fit the given roles, those after them the role `further`. -/
def FitsArgs (further : Role) : List Role → List Value → Prop
  | _, [] => True
  | roles, v :: vs => L.Fits (roles.headD further) v ∧ FitsArgs further roles.tail vs

def FitsCell (role : Role) : Cell → Prop
  | .list items => L.FitsAll role items
  | .struct fields => L.FitsFields role fields

/-- What evaluation may come to: data, or a signal that carries data. -/
def FitsResult : Value → Prop
  | .leaving v => L.Fits .datum v
  | .breaking v => L.Fits .datum v
  | .goto _ | .label _ => True
  | v => L.Fits .datum v

structure HoldsHeap (h : Heap) : Prop where
  data : ∀ {a : Nat} {c : Cell}, L.data a → h.cells[a]? = some c → L.FitsCell .datum c
  forms : ∀ {a : Nat} {c : Cell}, h.cells[a]? = some c → L.FitsCell .form c
  bounded : ∀ {a : Nat}, L.data a → a < h.size

/-- A state with this layout: all variables are data. -/
structure Holds (i : Interpreter) : Prop where
  globals : L.FitsFields .datum i.env.globals
  frames : ∀ f ∈ i.env.frames, L.FitsFields .datum f
  heap : L.HoldsHeap i.heap

/-- The layout after more cells have come to hold data. -/
def Grows (L M : Layout) : Prop :=
  ∀ a, L.data a → M.data a

def add (a : Nat) : Layout :=
  ⟨fun b => L.data b ∨ b = a⟩

variable {L} {M N : Layout} {role : Role}

theorem Grows.refl (L : Layout) : L.Grows L :=
  fun _ => id

theorem Grows.trans (h : L.Grows M) (h' : M.Grows N) : L.Grows N :=
  fun a ha => h' a (h a ha)

theorem grows_add (L : Layout) (a : Nat) : L.Grows (L.add a) :=
  fun _ => .inl

/-! ## Sequences and records -/

theorem fitsAll_iff {vs : List Value} : L.FitsAll role vs ↔ ∀ v ∈ vs, L.Fits role v := by
  induction vs with
  | nil => simp [FitsAll]
  | cons v vs ih => simp [FitsAll, ih]

theorem fitsFields_iff {r : Record Value} : L.FitsFields role r ↔ ∀ e ∈ r, L.Fits role e.2 := by
  induction r with
  | nil => simp [FitsFields]
  | cons e r ih => simp [FitsFields, ih]

theorem fitsCell_iff {c : Cell} : L.FitsCell role c ↔ ∀ v ∈ c.values, L.Fits role v := by
  cases c with
  | list items => exact fitsAll_iff
  | struct fields =>
    refine fitsFields_iff.trans ⟨?_, ?_⟩
    · intro h v hv
      obtain ⟨e, he, rfl⟩ := List.mem_map.mp hv
      exact h e he
    · intro h e he
      exact h e.2 (List.mem_map_of_mem he)

theorem FitsAll.append {vs ws : List Value} (hv : L.FitsAll role vs) (hw : L.FitsAll role ws) :
    L.FitsAll role (vs ++ ws) := by
  rw [fitsAll_iff] at *
  intro v h
  exact (List.mem_append.mp h).elim (hv v) (hw v)

theorem FitsAll.reverse {vs : List Value} (h : L.FitsAll role vs) :
    L.FitsAll role vs.reverse := by
  rw [fitsAll_iff] at *
  exact fun v hv => h v (List.mem_reverse.mp hv)

theorem FitsAll.drop {vs : List Value} (h : L.FitsAll role vs) (n : Nat) :
    L.FitsAll role (vs.drop n) := by
  rw [fitsAll_iff] at *
  exact fun v hv => h v (List.mem_of_mem_drop hv)

theorem FitsAll.set {vs : List Value} {v : Value} (h : L.FitsAll role vs) (hv : L.Fits role v)
    (n : Nat) : L.FitsAll role (vs.set n v) := by
  rw [fitsAll_iff] at *
  intro w hw
  rcases List.mem_or_eq_of_mem_set hw with hw | rfl
  · exact h w hw
  · exact hv

theorem FitsAll.getD {vs : List Value} (h : L.FitsAll role vs) (n : Nat) :
    L.Fits role (vs[n]?.getD .nil) := by
  cases hn : vs[n]? with
  | none => exact trivial
  | some v => exact fitsAll_iff.mp h v (List.mem_of_getElem? hn)

theorem FitsFields.get? {r : Record Value} {key : String} {v : Value} (h : L.FitsFields role r)
    (hv : r.get? key = some v) : L.Fits role v := by
  induction r with
  | nil => simp [Record.get?] at hv
  | cons e r ih =>
    obtain ⟨k, w⟩ := e
    by_cases hk : k = key
    · simp only [Record.get?, hk, if_true, Option.some.injEq] at hv
      exact hv ▸ h.1
    · simp only [Record.get?, hk, if_false] at hv
      exact ih h.2 hv

theorem FitsFields.insert {r : Record Value} {v : Value} (h : L.FitsFields role r) (key : String)
    (hv : L.Fits role v) : L.FitsFields role (r.insert key v) := by
  rw [fitsFields_iff] at *
  intro e he
  rcases Record.mem_insert he with rfl | he
  · exact hv
  · exact h e he

/-! ## Data are forms, and what fits keeps fitting -/

theorem Fits.asForm {v : Value} (h : L.Fits .datum v) : L.Fits .form v := by
  cases v with
  | struct => exact nofun
  | symbol => exact rfl
  | expr items => exact absurd h.1 nofun
  | _ => exact h

theorem Fits.serves {given taken : Role} (hs : given.serves taken = true) {v : Value}
    (h : L.Fits given v) : L.Fits taken v := by
  cases taken with
  | form =>
    cases given with
    | datum => exact h.asForm
    | form => exact h
  | datum =>
    cases given with
    | datum => exact h
    | form => exact absurd hs nofun

theorem FitsAll.asForms {vs : List Value} (h : L.FitsAll .datum vs) : L.FitsAll .form vs := by
  rw [fitsAll_iff] at *
  exact fun v hv => (h v hv).asForm

theorem FitsCell.asForms {c : Cell} (h : L.FitsCell .datum c) : L.FitsCell .form c := by
  rw [fitsCell_iff] at *
  exact fun v hv => (h v hv).asForm

theorem FitsArgs.serves {given taken : Role} {gs ts : List Role}
    (hs : serveAll given taken gs ts = true) {vs : List Value} (h : L.FitsArgs given gs vs) :
    L.FitsArgs taken ts vs := by
  induction vs generalizing gs ts with
  | nil => exact trivial
  | cons v vs ih =>
    obtain ⟨hhead, htail⟩ := serves_of_serveAll hs
    exact ⟨h.1.serves hhead, ih htail h.2⟩

theorem fitsArgs_nil {vs : List Value} : L.FitsArgs role [] vs ↔ L.FitsAll role vs := by
  induction vs with
  | nil => exact Iff.rfl
  | cons v vs ih => exact and_congr Iff.rfl ih

mutual

theorem Fits.mono (hg : L.Grows M) : ∀ {role : Role} {v : Value}, L.Fits role v → M.Fits role v
  | _, .list a, h => hg a h
  | _, .struct a, h => fun hrole => hg a (h hrole)
  | _, .symbol _, h => h
  | _, .expr items, h => ⟨h.1, FitsAll.mono hg (w := items) h.2⟩
  | _, .primitive _ _ _, h | _, .checked _ _ _ _, h => h
  | _, .closure _ captured _ body, h =>
    ⟨FitsFields.mono hg (r := captured) h.1, Fits.mono hg (v := body) h.2⟩
  | _, .leaving _, h | _, .breaking _, h | _, .goto _, h | _, .label _, h => h
  | _, .nil, h | _, .true, h | _, .int _, h | _, .double _, h | _, .str _, h | _, .error _, h => h

theorem FitsAll.mono (hg : L.Grows M) :
    ∀ {role : Role} {w : List Value}, L.FitsAll role w → M.FitsAll role w
  | _, [], h => h
  | _, v :: vs, h => ⟨Fits.mono hg (v := v) h.1, FitsAll.mono hg (w := vs) h.2⟩

theorem FitsFields.mono (hg : L.Grows M) :
    ∀ {role : Role} {r : List (String × Value)}, L.FitsFields role r → M.FitsFields role r
  | _, [], h => h
  | _, (_, v) :: r, h => ⟨Fits.mono hg (v := v) h.1, FitsFields.mono hg (r := r) h.2⟩

end

theorem FitsCell.mono (hg : L.Grows M) {c : Cell} (h : L.FitsCell role c) : M.FitsCell role c := by
  rw [fitsCell_iff] at *
  exact fun v hv => (h v hv).mono hg

theorem Fits.result {v : Value} (h : L.Fits .datum v) : L.FitsResult v := by
  cases v with
  | leaving | breaking | goto | label => exact h.elim
  | _ => exact h

theorem FitsResult.datum {v : Value} (h : L.FitsResult v) (hv : v.isSignal = false) :
    L.Fits .datum v := by
  cases v with
  | leaving | breaking | goto | label => cases hv
  | _ => exact h

/-! ## Cells -/

namespace HoldsHeap

variable {h : Heap}

theorem items (hh : L.HoldsHeap h) {a : Nat} (ha : L.data a) : L.FitsAll .datum (h.items a) := by
  unfold Heap.items
  split
  next items hc => exact hh.data ha hc
  next => exact trivial

theorem fields (hh : L.HoldsHeap h) {a : Nat} (ha : role = .datum → L.data a) :
    L.FitsFields role (h.fields a) := by
  unfold Heap.fields
  split
  next fields hc =>
    cases role with
    | datum => exact hh.data (ha rfl) hc
    | form => exact hh.forms hc
  next => exact trivial

/-- A new cell of program text. -/
theorem allocForms (hh : L.HoldsHeap h) {c : Cell} (hc : L.FitsCell .form c) :
    L.HoldsHeap (h.alloc c).2 := by
  have hcells : ∀ {a : Nat} {d : Cell}, (h.alloc c).2.cells[a]? = some d →
      a = h.size ∧ d = c ∨ h.cells[a]? = some d := by
    intro a d hd
    simp only [Heap.alloc, Array.getElem?_push] at hd
    split at hd
    next ha =>
      cases hd
      exact .inl ⟨ha, rfl⟩
    next => exact .inr hd
  refine ⟨?_, ?_, ?_⟩
  · intro a d ha hd
    rcases hcells hd with ⟨rfl, rfl⟩ | hd
    · exact absurd (hh.bounded ha) (Nat.lt_irrefl _)
    · exact hh.data ha hd
  · intro a d hd
    rcases hcells hd with ⟨rfl, rfl⟩ | hd
    · exact hc
    · exact hh.forms hd
  · intro a ha
    simp only [Heap.alloc, Heap.size, Array.size_push]
    exact Nat.lt_succ_of_lt (hh.bounded ha)

/-- A cell of data may be overwritten with data. -/
theorem write (hh : L.HoldsHeap h) (a : Nat) {c : Cell} (hc : L.FitsCell .datum c) :
    L.HoldsHeap (h.write a c) := by
  have hcells : ∀ {b : Nat} {d : Cell}, (h.write a c).cells[b]? = some d →
      d = c ∨ h.cells[b]? = some d := by
    intro b d hd
    simp only [Heap.write, Array.getElem?_setIfInBounds] at hd
    split at hd
    · split at hd
      · cases hd
        exact .inl rfl
      · cases hd
    · exact .inr hd
  refine ⟨?_, ?_, ?_⟩
  · intro b d hb hd
    rcases hcells hd with rfl | hd
    · exact hc
    · exact hh.data hb hd
  · intro b d hd
    rcases hcells hd with rfl | hd
    · exact hc.asForms
    · exact hh.forms hd
  · intro b hb
    simp only [Heap.write, Heap.size, Array.size_setIfInBounds]
    exact hh.bounded hb

/-- A cell of program text that holds nothing but data can be turned into one of data. -/
theorem add (hh : L.HoldsHeap h) {a : Nat} {c : Cell} (ha : h.cells[a]? = some c)
    (hc : L.FitsCell .datum c) : (L.add a).HoldsHeap h := by
  refine ⟨?_, ?_, ?_⟩
  · intro b d hb hd
    rcases hb with hb | rfl
    · exact (hh.data hb hd).mono (L.grows_add a)
    · rw [ha] at hd
      cases hd
      exact hc.mono (L.grows_add b)
  · intro b d hd
    exact (hh.forms hd).mono (L.grows_add a)
  · intro b hb
    rcases hb with hb | rfl
    · exact hh.bounded hb
    · exact (Array.getElem?_eq_some_iff.mp ha).1

/-- A new cell of data. -/
theorem alloc (hh : L.HoldsHeap h) {c : Cell} (hc : L.FitsCell .datum c) :
    (L.add h.size).HoldsHeap (h.alloc c).2 := by
  have hcell : (h.alloc c).2.cells[h.size]? = some c := by simp [Heap.alloc, Heap.size]
  exact (hh.allocForms hc.asForms).add hcell hc

theorem newList (hh : L.HoldsHeap h) {items : List Value} (hi : L.FitsAll .datum items) :
    ∃ M : Layout, L.Grows M ∧ M.HoldsHeap (h.newList items).2 ∧
      M.Fits .datum (h.newList items).1 := by
  unfold Heap.newList
  split
  · exact ⟨L, .refl L, hh, trivial⟩
  · exact ⟨L.add h.size, L.grows_add _, hh.alloc (c := .list items) hi, .inr rfl⟩

/-! ## Program text -/

-- Literals are data wherever they stand.
mutual

theorem loadLiteral {room : Nat} {L : Layout} {h : Heap} (hh : L.HoldsHeap h) :
    (f : Form) → f.Literal room → ∃ M : Layout, L.Grows M ∧ M.HoldsHeap (h.load f).2 ∧
      M.Fits .datum (h.load f).1
  | .nil, _ | .int _, _ | .double _, _ | .str _, _ => ⟨L, .refl L, hh, trivial⟩
  | .list items, hf => by
    obtain ⟨M, hLM, hh, hvs⟩ := hh.loadLiterals items hf.2.2
    obtain ⟨N, hMN, hh, hv⟩ := hh.newList hvs
    exact ⟨N, hLM.trans hMN, hh, hv⟩

theorem loadLiterals {room : Nat} {L : Layout} {h : Heap} (hh : L.HoldsHeap h) :
    (fs : List Form) → Form.LiteralAll room fs → ∃ M : Layout, L.Grows M ∧
      M.HoldsHeap (h.loadAll fs).2 ∧ M.FitsAll .datum (h.loadAll fs).1
  | [], _ => ⟨L, .refl L, hh, trivial⟩
  | f :: fs, hfs => by
    obtain ⟨M, hLM, hh, hv⟩ := hh.loadLiteral f hfs.1
    obtain ⟨N, hMN, hh, hvs⟩ := hh.loadLiterals fs hfs.2
    exact ⟨N, hLM.trans hMN, hh, hv.mono hMN, hvs⟩

end

mutual

/-- What has been read fits as a form. -/
theorem load {room : Nat} {L : Layout} {h : Heap} (hh : L.HoldsHeap h) :
    (f : Form) → f.Readable room → ∃ M : Layout, L.Grows M ∧ M.HoldsHeap (h.load f).2 ∧
      M.Fits .form (h.load f).1
  | .nil, _ | .true, _ | .int _, _ | .double _, _ | .str _, _ => ⟨L, .refl L, hh, trivial⟩
  | .symbol _, _ => ⟨L, .refl L, hh, rfl⟩
  | .list items, hf => by
    obtain ⟨M, hLM, hh, hvs⟩ := hh.loadLiterals items hf.2.2
    obtain ⟨N, hMN, hh, hv⟩ := hh.newList hvs
    exact ⟨N, hLM.trans hMN, hh, hv.asForm⟩
  | .expr items, hf => by
    obtain ⟨M, hLM, hh, hvs⟩ := hh.loadAll items hf.2.2
    exact ⟨M, hLM, hh, rfl, hvs⟩
  | .struct fields, hf => by
    obtain ⟨M, hLM, hh, hvs⟩ := hh.loadFields fields hf.2.2
    exact ⟨M, hLM, hh.allocForms (c := .struct _) hvs, nofun⟩

theorem loadAll {room : Nat} {L : Layout} {h : Heap} (hh : L.HoldsHeap h) :
    (fs : List Form) → Form.ReadableAll room fs → ∃ M : Layout, L.Grows M ∧
      M.HoldsHeap (h.loadAll fs).2 ∧ M.FitsAll .form (h.loadAll fs).1
  | [], _ => ⟨L, .refl L, hh, trivial⟩
  | f :: fs, hfs => by
    obtain ⟨M, hLM, hh, hv⟩ := hh.load f hfs.1
    obtain ⟨N, hMN, hh, hvs⟩ := hh.loadAll fs hfs.2
    exact ⟨N, hLM.trans hMN, hh, hv.mono hMN, hvs⟩

theorem loadFields {room : Nat} {L : Layout} {h : Heap} (hh : L.HoldsHeap h) :
    (fs : List (String × Form)) → Form.ReadableFields room fs → ∃ M : Layout, L.Grows M ∧
      M.HoldsHeap (h.loadFields fs).2 ∧ M.FitsFields .form (h.loadFields fs).1
  | [], _ => ⟨L, .refl L, hh, trivial⟩
  | (_, f) :: fs, hfs => by
    obtain ⟨M, hLM, hh, hv⟩ := hh.load f hfs.1.2
    obtain ⟨N, hMN, hh, hvs⟩ := hh.loadFields fs hfs.2
    exact ⟨N, hLM.trans hMN, hh, hv.mono hMN, hvs⟩

end

end HoldsHeap

/-! ## States -/

namespace Holds

variable {i : Interpreter}

theorem get? (hi : L.Holds i) {name : String} {v : Value} (h : i.env.get? name = some v) :
    L.Fits .datum v := by
  unfold Environment.get? at h
  split at h
  next w hframe =>
    obtain ⟨f, hf, hw⟩ := List.exists_of_findSome?_eq_some hframe
    cases h
    exact (hi.frames f hf).get? hw
  next => exact hi.globals.get? h

theorem set (hi : L.Holds i) (name : String) {v : Value} (hv : L.Fits .datum v) :
    L.Holds { i with env := i.env.set name v } := by
  unfold Environment.set
  split
  next frames h =>
    refine ⟨hi.globals, fun g hg => fitsFields_iff.mpr fun e he => ?_, hi.heap⟩
    rcases Environment.mem_setInFrames h hg he with rfl | ⟨f, hf, he⟩
    · exact hv
    · exact fitsFields_iff.mp (hi.frames f hf) e he
  next => exact ⟨hi.globals.insert name hv, hi.frames, hi.heap⟩

theorem scope (hi : L.Holds i) {f : Record Value} (hf : L.FitsFields .datum f) :
    L.Holds { i with env := (i.env.scope f).1 } := by
  refine ⟨hi.globals, ?_, hi.heap⟩
  intro g hg
  rcases List.mem_cons.mp hg with rfl | hg
  · exact hf
  · exact hi.frames g hg

theorem release (hi : L.Holds i) (g : Guard) : L.Holds { i with env := i.env.release g } :=
  ⟨hi.globals, fun f hf => hi.frames f (List.mem_of_mem_drop hf), hi.heap⟩

theorem withHeap (hi : L.Holds i) (hg : L.Grows M) {h : Heap} (hh : M.HoldsHeap h) :
    M.Holds { i with heap := h } :=
  ⟨hi.globals.mono hg, fun f hf => (hi.frames f hf).mono hg, hh⟩

end Holds

end Layout

end Lisplet
