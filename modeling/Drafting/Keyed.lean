namespace Drafting

/-!
# Keyed lists

A keyed list assigns values to names and keeps the order in which the names first came.  Giving a
name a new value leaves it in its place.  Assignments of values to variables are keyed lists of
scalars: the order of the names is the order of the variables.
-/

/-- A list of entries with pairwise different names. -/
structure Keyed (α : Type) where
  entries : List (String × α)
  nodup : (entries.map Prod.fst).Nodup

namespace Keyed

variable {α : Type}

/-- No names at all. -/
def empty : Keyed α := ⟨[], List.nodup_nil⟩

/-- The names, in order. -/
def keys (m : Keyed α) : List String := m.entries.map Prod.fst

/-- The values, in the order of their names. -/
def values (m : Keyed α) : List α := m.entries.map Prod.snd

/-- Is there no name? -/
def isEmpty (m : Keyed α) : Bool := m.entries.isEmpty

/-- The number of names. -/
def size (m : Keyed α) : Nat := m.entries.length

/-- The first entry whose name passes the test. -/
def find? (m : Keyed α) (test : String → Bool) : Option (String × α) :=
  m.entries.find? fun e => test e.1

/-- The value of a name. -/
def get? (m : Keyed α) (name : String) : Option α := (m.find? (· == name)).map Prod.snd

/-- Puts `value` in the entries with the name `name`; the names stay. -/
def setEntries (name : String) (value : α) (entries : List (String × α)) : List (String × α) :=
  entries.map fun e => if e.1 = name then (e.1, value) else e

/-- To set the value of a name changes no name. -/
theorem map_fst_setEntries (name : String) (value : α) (entries : List (String × α)) :
    (setEntries name value entries).map Prod.fst = entries.map Prod.fst := by
  rw [setEntries, List.map_map]
  refine List.map_congr_left fun e _ => ?_
  simp only [Function.comp_apply]
  split <;> rfl

/-- Gives `name` the value `value`: in its place if it is there, else at the end. -/
def insert (m : Keyed α) (name : String) (value : α) : Keyed α :=
  if h : name ∈ m.keys then
    ⟨setEntries name value m.entries, by rw [map_fst_setEntries]; exact m.nodup⟩
  else
    ⟨m.entries ++ [(name, value)], by
      rw [List.map_append, List.nodup_append]
      refine ⟨m.nodup, by simp, fun a ha b hb => ?_⟩
      rintro rfl
      simp only [List.map_cons, List.map_nil, List.mem_singleton] at hb
      exact h (hb ▸ ha)⟩

/-- The entries one after the other; a repeated name keeps its first place and takes its last
    value. -/
def ofList (entries : List (String × α)) : Keyed α :=
  entries.foldl (fun m e => m.insert e.1 e.2) empty

/-! ### The names after an insertion -/

theorem keys_insert_of_mem {m : Keyed α} {name : String} (h : name ∈ m.keys) (value : α) :
    (m.insert name value).keys = m.keys := by
  rw [insert, dif_pos h]
  exact map_fst_setEntries name value m.entries

theorem keys_insert_of_not_mem {m : Keyed α} {name : String} (h : name ∉ m.keys) (value : α) :
    (m.insert name value).keys = m.keys ++ [name] := by
  rw [insert, dif_neg h]
  simp [keys]

theorem length_keys (m : Keyed α) : m.keys.length = m.size := by simp [keys, size]

theorem length_values (m : Keyed α) : m.values.length = m.size := by simp [values, size]

end Keyed

end Drafting
