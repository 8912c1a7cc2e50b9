/-!
# Records

A record is a finite map from names to values that remembers the order in which its names first
appeared. Writing to a name that is already there keeps its place, so the names of a record only
ever grow at the end. Structs, frames of local variables, captured variables and the table of
help texts are all records.
-/

namespace Lisplet

/-- Named values, in the order in which the names were first written. -/
abbrev Record (α : Type) := List (String × α)

namespace Record

variable {α β : Type}

def get? (key : String) : Record α → Option α
  | [] => none
  | (k, v) :: r => if k = key then some v else get? key r

def has (key : String) (r : Record α) : Bool :=
  (r.get? key).isSome

/-- Binds `key` to `value`, in the place the key already has or else at the end. -/
def insert (key : String) (value : α) : Record α → Record α
  | [] => [(key, value)]
  | (k, v) :: r => if k = key then (k, value) :: r else (k, v) :: insert key value r

def keys (r : Record α) : List String :=
  r.map Prod.fst

/-- The record that results from writing `entries` one after the other. -/
def ofEntries (entries : List (String × α)) : Record α :=
  entries.foldl (fun r (k, v) => insert k v r) []

/-! ## How writing shows in reading -/

theorem get?_insert_self (key : String) (value : α) (r : Record α) :
    (r.insert key value).get? key = some value := by
  induction r with
  | nil => simp [insert, get?]
  | cons e r ih =>
    obtain ⟨k, v⟩ := e
    by_cases h : k = key <;> simp [insert, get?, h, ih]

theorem get?_insert_of_ne {key other : String} (h : other ≠ key) (value : α) (r : Record α) :
    (r.insert key value).get? other = r.get? other := by
  induction r with
  | nil => simp [insert, get?, Ne.symm h]
  | cons e r ih =>
    obtain ⟨k, v⟩ := e
    by_cases hk : k = key
    · subst hk
      simp [insert, get?, Ne.symm h]
    · simp [insert, get?, hk, ih]

/-- Writing adds the key at the end, or leaves the sequence of keys alone. -/
theorem keys_insert (key : String) (value : α) (r : Record α) :
    (r.insert key value).keys = if key ∈ r.keys then r.keys else r.keys ++ [key] := by
  induction r with
  | nil => simp [insert, keys]
  | cons e r ih =>
    obtain ⟨k, v⟩ := e
    by_cases h : k = key
    · subst h
      simp [insert, keys]
    · simp only [keys] at ih
      simp only [insert, h, if_false, keys, List.map_cons, List.mem_cons, ih, Ne.symm h, false_or]
      by_cases hm : key ∈ List.map Prod.fst r <;> simp [hm]

/-- A key that is not there yet is written at the end. -/
theorem insert_of_not_mem {key : String} {r : Record α} (h : key ∉ keys r) (value : α) :
    insert key value r = r ++ [(key, value)] := by
  induction r with
  | nil => rfl
  | cons e r ih =>
    obtain ⟨k, v⟩ := e
    have hne : k ≠ key := fun heq => h (heq ▸ List.mem_cons_self)
    have hrest : key ∉ keys r := fun hmem => h (List.mem_cons_of_mem _ hmem)
    simp only [insert, hne, if_false, ih hrest, List.cons_append]

/-- Writing changes no entry but that of the key. -/
theorem mem_insert {key : String} {value : α} {r : Record α} {e : String × α}
    (h : e ∈ r.insert key value) : e = (key, value) ∨ e ∈ r := by
  induction r with
  | nil => exact .inl (List.mem_singleton.mp h)
  | cons entry r ih =>
    obtain ⟨k, v⟩ := entry
    by_cases hk : k = key
    · simp only [insert, hk, if_true, List.mem_cons] at h
      exact h.imp id (List.mem_cons_of_mem _)
    · simp only [insert, hk, if_false, List.mem_cons] at h
      rcases h with h | h
      · exact .inr (h ▸ List.mem_cons_self)
      · exact (ih h).imp id (List.mem_cons_of_mem _)

/-- With distinct keys, every entry is found under its key. -/
theorem get?_of_mem {key : String} {value : α} {r : Record α} (hr : r.keys.Nodup)
    (h : (key, value) ∈ r) : r.get? key = some value := by
  induction r with
  | nil => cases h
  | cons e r ih =>
    obtain ⟨k, v⟩ := e
    obtain ⟨hk, hrest⟩ := List.nodup_cons.mp hr
    rcases List.mem_cons.mp h with heq | hmem
    · cases heq
      simp [get?]
    · have hne : k ≠ key := by
        rintro rfl
        exact hk (List.mem_map.mpr ⟨(k, value), hmem, rfl⟩)
      rw [get?, if_neg hne, ih hrest hmem]

/-- Distinct keys stay distinct. -/
theorem nodup_keys_insert {r : Record α} (h : r.keys.Nodup) (key : String) (v : α) :
    (r.insert key v).keys.Nodup := by
  rw [keys_insert]
  split
  next => exact h
  next hmem =>
    refine List.nodup_append.mpr ⟨h, by simp, ?_⟩
    intro a ha b hb
    rw [List.mem_singleton] at hb
    subst hb
    intro hab
    exact hmem (hab ▸ ha)

end Record

end Lisplet
