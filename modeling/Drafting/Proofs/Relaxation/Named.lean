import Drafting.Proofs.Keyed
import Drafting.Relaxation.Substitution

namespace Drafting

/-!
# Looking up names without regard to case

Names that fold to the same text find the same entry, the first of them in the list.  Giving a name
a value changes what such names find, and nothing else.

* `Keyed.named?` — the value of a name;
* `Substitutions.named?_assign` — values after a name has been given one.
-/

namespace Text

theorem sameName_iff {a b : String} : sameName a b = true ↔ asciiFold a = asciiFold b := by
  rw [sameName, beq_iff_eq]

@[simp] theorem sameName_refl (a : String) : sameName a a = true := sameName_iff.mpr rfl

theorem sameName_comm {a b : String} : sameName a b = sameName b a := by
  rw [sameName, sameName, BEq.comm]

/-- Names that fold alike are the same as the same names. -/
theorem sameName_congr {a b : String} (h : sameName a b = true) (c : String) :
    sameName c a = sameName c b := by
  rw [sameName, sameName, sameName_iff.mp h]

end Text

open Text

namespace Keyed

variable {α : Type} {m : Keyed α} {name name' : String}

/-- The value of the first entry whose name is `name` up to the case of ASCII letters. -/
def named? (m : Keyed α) (name : String) : Option α := (m.findNamed? name).map Prod.snd

/-- The case of a name that is looked up makes no difference. -/
theorem findNamed?_congr (h : sameName name name' = true) (m : Keyed α) :
    m.findNamed? name = m.findNamed? name' := by
  unfold findNamed?
  congr 1
  funext key
  exact sameName_congr h key

theorem named?_congr (h : sameName name name' = true) (m : Keyed α) :
    m.named? name = m.named? name' := by
  rw [named?, named?, findNamed?_congr h]

theorem findNamed?_eq_none :
    m.findNamed? name = none ↔ ∀ key ∈ m.keys, sameName key name = false := by
  simp [findNamed?, find?, keys]

/-- What is found is an entry. -/
theorem mem_of_findNamed?_eq_some {e : String × α} (h : m.findNamed? name = some e) :
    e ∈ m.entries :=
  List.mem_of_find?_eq_some h

/-- The entry that is found has the name. -/
theorem of_findNamed?_eq_some {e : String × α} (h : m.findNamed? name = some e) :
    sameName e.1 name = true ∧ e.1 ∈ m.keys :=
  have found : m.entries.find? (fun e => sameName e.1 name) = some e := h
  ⟨by simpa using List.find?_some found, List.mem_map_of_mem (mem_of_findNamed?_eq_some h)⟩

theorem named?_eq_none : m.named? name = none ↔ ∀ key ∈ m.keys, sameName key name = false := by
  rw [named?, Option.map_eq_none_iff, findNamed?_eq_none]

/-- Among names that differ by more than case, an entry is found under its own name. -/
theorem named?_of_mem (h : (m.keys.map asciiFold).Nodup) {x : α} (hmem : (name, x) ∈ m.entries) :
    m.named? name = some x := by
  have found : ∃ e, m.findNamed? name = some e := by
    rw [← Option.isSome_iff_exists, Option.isSome_iff_ne_none, ne_eq, findNamed?_eq_none]
    exact fun none => absurd (none name (List.mem_map_of_mem hmem)) (by simp)
  obtain ⟨e, he⟩ := found
  have folded := sameName_iff.mp (of_findNamed?_eq_some he).1
  rw [keys, List.map_map] at h
  have same : e = (name, x) := List.inj_on_of_nodup_map h (mem_of_findNamed?_eq_some he) hmem folded
  rw [named?, he, same]
  rfl

/-! ### Insertion -/

/-- A name that is there finds its entries with the new value in them. -/
theorem findNamed?_insert_of_mem {key : String} (h : key ∈ m.keys) (x : α) (name : String) :
    (m.insert key x).findNamed? name =
      (m.findNamed? name).map fun e => if e.1 = key then (e.1, x) else e := by
  have test : (fun e : String × α => sameName e.1 name) ∘
      (fun e => if e.1 = key then (e.1, x) else e) = fun e => sameName e.1 name := by
    funext e
    rw [Function.comp_apply]
    split <;> rfl
  rw [insert, dif_pos h]
  show (setEntries key x m.entries).find? (fun e => sameName e.1 name) = _
  rw [setEntries, List.find?_map, test]
  rfl

/-- A name that is not there comes last. -/
theorem findNamed?_insert_of_not_mem {key : String} (h : key ∉ m.keys) (x : α) (name : String) :
    (m.insert key x).findNamed? name =
      (m.findNamed? name).or (if sameName key name then some (key, x) else none) := by
  rw [insert, dif_neg h, findNamed?, find?, List.find?_append, List.find?_singleton]
  rfl

end Keyed

namespace Substitutions

variable {F : Type} {a : Keyed F} {name : String} {x : F}

/-- **Values after a name has been given one.** -/
theorem named?_assign (a : Keyed F) (name : String) (x : F) (name' : String) :
    (assign a name x).named? name' = if sameName name name' then some x else a.named? name' := by
  unfold assign
  cases h : a.findNamed? name with
  | some e =>
    obtain ⟨hsame, hmem⟩ := Keyed.of_findNamed?_eq_some h
    rw [Option.map_some, Option.getD_some, Keyed.named?, Keyed.findNamed?_insert_of_mem hmem]
    split
    · next same =>
      rw [← Keyed.findNamed?_congr same, h]
      simp
    · next other =>
      -- the entry that is found is another one
      rw [Keyed.named?, Option.map_map]
      cases h' : a.findNamed? name' with
      | none => rfl
      | some e' =>
        have apart : e'.1 ≠ e.1 := by
          intro heq
          have same := (Keyed.of_findNamed?_eq_some h').1
          rw [heq, sameName_iff, sameName_iff.mp hsame, ← sameName_iff] at same
          exact other same
        simp [apart]
  | none =>
    have fresh : name ∉ a.keys := fun hmem => by
      simpa using Keyed.findNamed?_eq_none.mp h name hmem
    rw [Option.map_none, Option.getD_none, Keyed.named?, Keyed.findNamed?_insert_of_not_mem fresh]
    split
    · next same =>
      rw [← Keyed.findNamed?_congr same, h]
      rfl
    · rw [Option.or_none, Keyed.named?]

/-- No name is new but the one that was given a value. -/
theorem mem_keys_assign {key : String} (h : key ∈ (assign a name x).keys) :
    key ∈ a.keys ∨ key = name := by
  unfold assign at h
  rcases Keyed.mem_keys_insert.mp h with h | rfl
  · exact .inl h
  cases hfound : a.findNamed? name with
  | some e => exact .inl (Keyed.of_findNamed?_eq_some hfound).2
  | none => exact .inr rfl

end Substitutions

end Drafting
