import Mathlib.Data.List.Induction
import Mathlib.Data.List.Nodup
import Drafting.Keyed

namespace Drafting

/-!
# What a keyed list holds

Entries that are inserted one after the other leave each name at the place where it first came, with
the value that came for it last.

* `Keyed.keys_ofList`, `Keyed.get?_ofList` — names and values after insertions;
* `Keyed.entries_ofList` — a list without repeated names stays what it is;
* `Keyed.values_eq_map` — the values, read name by name.
-/

/-- An element that is there already is not counted again. -/
theorem eraseDups_concat {α : Type} [DecidableEq α] (l : List α) (x : α) :
    (l ++ [x]).eraseDups = if x ∈ l then l.eraseDups else l.eraseDups ++ [x] := by
  rw [List.eraseDups_append]
  split
  · next h => simp [List.removeAll, h]
  · next h => simp [List.removeAll, h, List.eraseDups_cons]

/-- Looked for from the end, the last element comes first. -/
theorem find?_reverse_concat {α : Type} (p : α → Bool) (l : List α) (x : α) :
    (l ++ [x]).reverse.find? p = if p x then some x else l.reverse.find? p := by
  rw [List.reverse_append, List.reverse_singleton, List.singleton_append, List.find?_cons]
  cases p x <;> rfl

namespace Keyed

variable {α : Type} {m : Keyed α} {name : String}

/-! ### One insertion -/

/-- The names after an insertion: a new one comes last. -/
theorem keys_insert (m : Keyed α) (name : String) (value : α) :
    (m.insert name value).keys = if name ∈ m.keys then m.keys else m.keys ++ [name] := by
  split
  · next h => exact keys_insert_of_mem h value
  · next h => exact keys_insert_of_not_mem h value

/-- The names after an insertion are those there were and the one inserted. -/
theorem mem_keys_insert {key name : String} {x : α} :
    key ∈ (m.insert name x).keys ↔ key ∈ m.keys ∨ key = name := by
  by_cases h : name ∈ m.keys
  · rw [keys_insert_of_mem h]
    constructor
    · exact .inl
    · rintro (hkey | rfl)
      · exact hkey
      · exact h
  · simp [keys_insert_of_not_mem h]

/-- A name has the value that it was given last. -/
theorem get?_insert (m : Keyed α) (key : String) (x : α) (name : String) :
    (m.insert key x).get? name = if key = name then some x else m.get? name := by
  unfold insert
  split
  · next hkey =>
    -- a value that changes in its place is found where the old one was
    have test : (fun e : String × α => e.1 == name) ∘
        (fun e => if e.1 = key then (e.1, x) else e) = fun e => e.1 == name := by
      funext e
      rw [Function.comp_apply]
      split <;> rfl
    show ((setEntries key x m.entries).find? fun e => e.1 == name).map Prod.snd = _
    rw [setEntries, List.find?_map, test, get?, find?]
    cases hfound : m.entries.find? fun e => e.1 == name with
    | none =>
      obtain ⟨e, he, rfl⟩ := List.mem_map.mp hkey
      have apart : e.1 ≠ name := by simpa using List.find?_eq_none.mp hfound e he
      rw [if_neg apart]
      rfl
    | some e =>
      obtain rfl : e.1 = name := by simpa using List.find?_some hfound
      by_cases same : e.1 = key
      · simp [same]
      · simp [same, Ne.symm same]
  · next hkey =>
    show ((m.entries ++ [(key, x)]).find? fun e => e.1 == name).map Prod.snd = _
    -- a new entry at the end is found if no other has the name
    rw [List.find?_append, get?, find?]
    by_cases same : key = name
    · subst same
      have apart : m.entries.find? (fun e => e.1 == key) = none := by
        refine List.find?_eq_none.mpr fun e he heq => hkey ?_
        exact beq_iff_eq.mp heq ▸ List.mem_map_of_mem he
      simp [apart]
    · simp [same]

/-! ### All insertions -/

theorem ofList_concat (es : List (String × α)) (e : String × α) :
    ofList (es ++ [e]) = (ofList es).insert e.1 e.2 := by
  rw [ofList, List.foldl_append]
  rfl

/-- **The names of a list of entries,** each at its first place. -/
theorem keys_ofList (es : List (String × α)) :
    (ofList es).keys = (es.map Prod.fst).eraseDups := by
  induction es using List.reverseRecOn with
  | nil => rfl
  | append_singleton es e ih =>
    rw [ofList_concat, keys_insert, ih, List.map_append, List.map_singleton, eraseDups_concat]
    simp only [List.mem_eraseDups]

theorem mem_keys_ofList {es : List (String × α)} {key : String} :
    key ∈ (ofList es).keys ↔ key ∈ es.map Prod.fst := by
  rw [keys_ofList, List.mem_eraseDups]

/-- The last value that a list of entries has for a name. -/
def last? (es : List (String × α)) (name : String) : Option α :=
  (es.reverse.find? (·.1 == name)).map Prod.snd

/-- The last value for a name is the one added last, if it is for this name. -/
theorem last?_concat (es : List (String × α)) (e : String × α) (name : String) :
    last? (es ++ [e]) name = if e.1 = name then some e.2 else last? es name := by
  rw [last?, find?_reverse_concat, apply_ite (Option.map Prod.snd)]
  simp only [beq_iff_eq]
  rfl

/-- **The values of a list of entries,** the last one for each name. -/
theorem get?_ofList (es : List (String × α)) (name : String) :
    (ofList es).get? name = last? es name := by
  induction es using List.reverseRecOn with
  | nil => rfl
  | append_singleton es e ih => rw [ofList_concat, get?_insert, ih, last?_concat]

/-- Entries with different names are inserted one after the other. -/
theorem entries_foldl_insert (es : List (String × α)) (m : Keyed α)
    (h : (m.keys ++ es.map Prod.fst).Nodup) :
    (es.foldl (fun m e => m.insert e.1 e.2) m).entries = m.entries ++ es := by
  induction es generalizing m with
  | nil => simp
  | cons e rest ih =>
    have fresh : e.1 ∉ m.keys := fun hmem =>
      (List.nodup_append.mp h).2.2 e.1 hmem e.1 (by simp) rfl
    have inserted : (m.insert e.1 e.2).entries = m.entries ++ [e] := by
      rw [insert, dif_neg fresh]
    rw [List.foldl_cons, ih, inserted, List.append_assoc, List.singleton_append]
    rw [keys_insert_of_not_mem fresh]
    simpa using h

/-- A list without repeated names stays what it is. -/
theorem entries_ofList {es : List (String × α)} (h : (es.map Prod.fst).Nodup) :
    (ofList es).entries = es :=
  entries_foldl_insert es empty (by simpa [empty, keys] using h)

/-- New values for the names of a keyed list. -/
theorem entries_ofList_zip (m : Keyed α) {values : List α} (h : values.length = m.keys.length) :
    (ofList (m.keys.zip values)).entries = m.keys.zip values := by
  refine entries_ofList ?_
  rw [List.map_fst_zip (Nat.le_of_eq h.symm)]
  exact m.nodup

theorem keys_ofList_zip (m : Keyed α) {values : List α} (h : values.length = m.keys.length) :
    (ofList (m.keys.zip values)).keys = m.keys := by
  rw [keys, entries_ofList_zip m h, List.map_fst_zip (Nat.le_of_eq h.symm)]

theorem values_ofList_zip (m : Keyed α) {values : List α} (h : values.length = m.keys.length) :
    (ofList (m.keys.zip values)).values = values := by
  rw [Keyed.values, entries_ofList_zip m h, List.map_snd_zip (Nat.le_of_eq h)]

/-! ### Entries -/

/-- No name is listed twice, and so the last entry for a name is the first. -/
theorem last?_entries (m : Keyed α) (name : String) : last? m.entries name = m.get? name := by
  rw [← get?_ofList, get?, get?, find?, find?, entries_ofList m.nodup]

/-- An entry of a keyed list is the value of its name. -/
theorem get?_of_mem {e : String × α} (h : e ∈ m.entries) : m.get? e.1 = some e.2 := by
  obtain ⟨e', he'⟩ : ∃ e', m.entries.find? (fun e' => e'.1 == e.1) = some e' := by
    rw [← Option.isSome_iff_exists, List.find?_isSome]
    exact ⟨e, h, beq_self_eq_true e.1⟩
  have same : e'.1 = e.1 := by simpa using List.find?_some he'
  obtain rfl := List.inj_on_of_nodup_map m.nodup (List.mem_of_find?_eq_some he') h same
  rw [get?, find?, he']
  rfl

/-- The values are those of the names in order, whatever a missing name is taken to have. -/
theorem values_eq_map (m : Keyed α) (default : String → α) :
    m.values = m.keys.map fun name => (m.get? name).getD (default name) := by
  rw [values, keys, List.map_map]
  refine List.map_congr_left fun e he => ?_
  rw [Function.comp_apply, get?_of_mem he, Option.getD_some]

end Keyed

end Drafting
