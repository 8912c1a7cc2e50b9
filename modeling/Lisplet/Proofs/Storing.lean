import Lisplet.Proofs.Showing
import Lisplet.Proofs.Uses

/-!
# Writing to a list

`set@` has taken hold of its list for writing when it finds fault with the index, and the message of
that fault shows the index. So it crashes if there is a way from the index to that very list, and
only then; the list is left as it is in any case.
-/

namespace Lisplet

open Eval Builtin

variable {i : Interpreter}

-- The list is in use here, so the message about the index cannot be written if it shows the list.
theorem whileWriting_listIndex_eq (hidle : i.uses = []) (a length : Nat) {index : Value}
    (hindex : ∀ n, index ≠ .int n) :
    whileWriting a (listIndex length index) i =
      .error (if i.heap.shows a index then .crash .cellInUse
        else .error { cause := .typeMismatch .integer (i.heap.text index) }) i := by
  have hlist : listIndex length index = failWith (.typeMismatch .integer) index := by
    unfold listIndex
    split
    next n => exact absurd rfl (hindex n)
    next => rfl
  let j : Interpreter := { i with uses := ⟨a, true⟩ :: i.uses }
  have hbarred : j.barred (fun cell => j.heap.shows cell index) = i.heap.shows a index := by
    simp [Interpreter.barred, j, hidle]
  rw [hlist, whileWriting_of_idle hidle, during]
  by_cases hshows : i.heap.shows a index = true
  · have htext : text index j = .error (.crash .cellInUse) j := if_pos (hbarred.trans hshows)
    have hfail : (failWith (.typeMismatch .integer) index : Eval Nat) j =
        .error (.crash .cellInUse) j := bind_of_error htext
    rw [hfail, if_pos hshows]
  · have htext : text index j = .ok (i.heap.text index) j := if_neg (by rwa [hbarred])
    have hfail : (failWith (.typeMismatch .integer) index : Eval Nat) j =
        .error (.error { cause := .typeMismatch .integer (i.heap.text index) }) j :=
      bind_of_ok htext
    rw [hfail, if_neg hshows]

/-- The arguments ask for a list to be written at an index that is no integer and leads to that very
list. -/
def Heap.OwnIndex (h : Heap) (args : List Value) : Prop :=
  ∃ a index v rest, args = .list a :: index :: v :: rest ∧ (∀ n, index ≠ .int n) ∧
    ∃ b ∈ index.cells, h.Leads b a

theorem store_of_few {args : List Value} (h : args.length < 3) : store args = missingArgument := by
  unfold store
  split <;> first | rfl | (simp only [List.length_cons] at h; omega)

section Idle

variable (hidle : i.uses = [])
include hidle

/-- An index that is not an integer: an error about it, or the crash. The state stays as it is. -/
theorem store_of_ne_int (a : Nat) {index : Value} (hindex : ∀ n, index ≠ .int n) (v : Value)
    (rest : List Value) :
    store (.list a :: index :: v :: rest) i =
      .error (if i.heap.shows a index then .crash .cellInUse
        else .error { cause := .typeMismatch .integer (i.heap.text index) }) i := by
  have hitems : items a i = .ok (i.heap.items a) i := looking_of_idle hidle _ _
  simp only [store, bind, EStateM.bind, hitems]
  rw [whileWriting_listIndex_eq hidle a _ hindex]

theorem store_int_ne_crash (a : Nat) (n : Int64) (v : Value) (rest : List Value) (c : Crash)
    (j : Interpreter) : store (.list a :: .int n :: v :: rest) i ≠ .error (.crash c) j := by
  have hitems : items a i = .ok (i.heap.items a) i := looking_of_idle hidle _ _
  have hwrite : ∀ cell, write a cell i = .ok () { i with heap := i.heap.write a cell } :=
    write_of_idle hidle a
  simp only [store, bind, EStateM.bind, hitems]
  intro h
  by_cases hn : 0 ≤ n.toInt ∧ n.toInt < (i.heap.items a).length
  · have hindex : listIndex (i.heap.items a).length (.int n) = pure n.toInt.toNat := if_pos hn
    have hwhile : whileWriting a (pure n.toInt.toNat) i = .ok n.toInt.toNat i :=
      whileWriting_of_idle hidle a _
    rw [hindex, hwhile] at h
    dsimp only at h
    rw [hwrite] at h
    cases h
  · have hindex : listIndex (i.heap.items a).length (.int n) = fail (.indexOutOfRange n) :=
      if_neg hn
    rw [hindex, whileWriting_of_idle hidle] at h
    cases h

theorem store_struct_ne_crash (a : Nat) (key v : Value) (rest : List Value) (c : Crash)
    (j : Interpreter) : store (.struct a :: key :: v :: rest) i ≠ .error (.crash c) j := by
  have hfields : fields a i = .ok (i.heap.fields a) i := looking_of_idle hidle _ _
  have hwrite : ∀ cell, write a cell i = .ok () { i with heap := i.heap.write a cell } :=
    write_of_idle hidle a
  have hkey : (∃ name, structKey key i = .ok name i) ∨
      ∃ e, structKey key i = .error (.error e) i := by
    unfold structKey
    split
    · exact .inl ⟨_, rfl⟩
    · exact .inl ⟨_, rfl⟩
    · exact .inl ⟨_, rfl⟩
    · exact .inr ⟨_, failWith_of_idle hidle _ _⟩
  intro h
  simp only [store, bind, EStateM.bind] at h
  rcases hkey with ⟨name, hkey⟩ | ⟨e, hkey⟩
  · rw [hkey] at h
    dsimp only at h
    rw [hfields] at h
    dsimp only at h
    rw [hwrite] at h
    cases h
  · rw [hkey] at h
    cases h

/-- The one way in which `set@` crashes over a cell in use. -/
theorem store_crash_iff {args : List Value} :
    (∃ j, store args i = .error (.crash .cellInUse) j) ↔ i.heap.OwnIndex args := by
  constructor
  · rintro ⟨j, hj⟩
    match args with
    | [] | [_] | [_, _] =>
      rw [store_of_few (by simp)] at hj
      cases hj
    | u :: index :: v :: rest =>
      cases u with
      | list a =>
        by_cases hindex : ∀ n, index ≠ .int n
        · rw [store_of_ne_int hidle a hindex] at hj
          by_cases hshows : i.heap.shows a index = true
          · exact ⟨a, index, v, rest, rfl, hindex, Heap.shows_iff.mp hshows⟩
          · rw [if_neg hshows] at hj
            cases hj
        · obtain ⟨n, hn⟩ := not_forall_not.mp hindex
          subst hn
          exact absurd hj (store_int_ne_crash hidle a n v rest _ j)
      | struct a => exact absurd hj (store_struct_ne_crash hidle a index v rest _ j)
      | _ =>
        have hfail := hj.symm.trans (failWith_of_idle hidle .containerExpected _)
        cases hfail
  · rintro ⟨a, index, v, rest, rfl, hindex, hleads⟩
    refine ⟨i, ?_⟩
    rw [store_of_ne_int hidle a hindex, if_pos (Heap.shows_iff.mpr hleads)]

end Idle

end Lisplet
