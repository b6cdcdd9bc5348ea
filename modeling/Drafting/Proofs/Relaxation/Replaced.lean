import Drafting.Proofs.Formula.Names
import Drafting.Proofs.Program.Replacement
import Drafting.Proofs.Relaxation.WriteBack

namespace Drafting

open Text

/-!
# Values of names that were replaced

The variables of a program have the values of an assignment.  Where all names are ASCII, the
variable that a folded name stands for is the one that has the name without regard to case; so
after everything is written back a name stands for a variable with the value of its replacement.

* `Keyed.interpret_symbol` — what names stand for in an assignment;
* `Substitutions.stands_symbol` — after writing back, names have the values of their replacements.
-/

/-- The text has ASCII characters only. -/
def Text.IsAscii (s : String) : Prop := ∀ c ∈ s.toList, c.toNat < 128

instance (s : String) : Decidable (IsAscii s) :=
  decidable_of_iff (s.toList.all fun c => c.toNat < 128) (by simp [IsAscii])

theorem Text.asciiFold_asciiFold (s : String) : asciiFold (asciiFold s) = asciiFold s := by
  have twice : Char.toLower ∘ Char.toLower = Char.toLower :=
    funext Char.toLower_toLower_eq_toLower
  rw [asciiFold, asciiFold, String.toList_ofList, List.map_map, twice]

/-! ### Names in an assignment -/

namespace Keyed

variable {F : Type} {a : Keyed F} {name : String}

/-- Among ASCII names, a folded name is looked for without regard to case. -/
theorem findIdx?_lowercase {keys : List String} (hkeys : ∀ key ∈ keys, IsAscii key)
    (hname : asciiFold name = name) :
    keys.findIdx? (lowercase · == name) = keys.findIdx? (sameName · name) := by
  have folded : keys.map lowercase = keys.map asciiFold :=
    List.map_congr_left fun key hkey => lowercase_eq_asciiFold (hkeys key hkey)
  calc keys.findIdx? (lowercase · == name) = (keys.map lowercase).findIdx? (· == name) := by
        rw [List.findIdx?_map]; rfl
    _ = (keys.map asciiFold).findIdx? (· == name) := by rw [folded]
    _ = keys.findIdx? (sameName · name) := by
        rw [List.findIdx?_map]
        congr 1
        funext key
        rw [Function.comp_apply, sameName, hname]

/-- An entry is found at its place. -/
theorem findNamed?_eq_bind (a : Keyed F) (name : String) :
    a.findNamed? name = (a.keys.findIdx? (sameName · name)).bind (a.entries[·]?) := by
  rw [findNamed?, find?, List.find?_eq_bind_findIdx?_getElem?, keys, List.findIdx?_map]
  rfl

/-- The value of a name is found at the place of the name. -/
theorem named?_eq_bind (a : Keyed F) (name : String) :
    a.named? name = (a.keys.findIdx? (sameName · name)).bind (a.values[·]?) := by
  have value : (a.values[·]?) = fun i => a.entries[i]?.map Prod.snd :=
    funext fun i => List.getElem?_map
  rw [named?, findNamed?_eq_bind, Option.map_bind, value]
  rfl

variable [Scalar F]

/-- What a folded name stands for in an assignment of ASCII names. -/
theorem interpret_symbol (hkeys : ∀ key ∈ a.keys, IsAscii key) (hname : asciiFold name = name)
    {v : Value F} :
    (Formula.symbol name).interpret a.keys a.values = .ok v ↔
      ∃ i, a.keys.findIdx? (sameName · name) = some i ∧
        ∃ x, a.values[i]? = some x ∧ v = .dual (.seed x i a.values.length) := by
  rw [Formula.interpret, findIdx?_lowercase hkeys hname]
  cases a.keys.findIdx? (sameName · name) with
  | none => simp
  | some i => cases hx : a.values[i]? <;> simp [hx, eq_comm]

/-- The value of a name that stands for something. -/
theorem named?_of_interpret (hkeys : ∀ key ∈ a.keys, IsAscii key) (hname : asciiFold name = name)
    {v : Value F} (h : (Formula.symbol name).interpret a.keys a.values = .ok v) :
    a.named? name = some v.real ∧ v.isNumber = false := by
  obtain ⟨i, hi, x, hx, rfl⟩ := (interpret_symbol hkeys hname).mp h
  rw [named?_eq_bind, hi]
  exact ⟨hx, rfl⟩

/-- A name with a value stands for it. -/
theorem interpret_of_named? (hkeys : ∀ key ∈ a.keys, IsAscii key) (hname : asciiFold name = name)
    {x : F} (h : a.named? name = some x) :
    ∃ v, (Formula.symbol name).interpret a.keys a.values = .ok v ∧ v.real = x ∧
      v.isNumber = false := by
  rw [named?_eq_bind] at h
  obtain ⟨i, hi, hx⟩ := Option.bind_eq_some_iff.mp h
  exact ⟨_, (interpret_symbol hkeys hname).mpr ⟨i, hi, x, hx, rfl⟩, rfl, rfl⟩

end Keyed

/-! ### Names that were replaced -/

namespace Substitutions

variable {F : Type} {subs : Substitutions F} {a : Keyed F} {name : String}

/-- All names are ASCII, those that are replaced and those they are replaced by. -/
structure IsAscii (subs : Substitutions F) : Prop where
  keys : ∀ key ∈ subs.keys, Text.IsAscii key
  targets : ∀ target, .variable target ∈ subs.values → Text.IsAscii target

/-- A chain ends at one of the replacements. -/
theorem follow_mem {steps : Nat} {s : Substitution F} (h : s ∈ subs.values) :
    subs.follow steps s ∈ subs.values := by
  induction steps generalizing s with
  | zero => rcases s with x | name <;> exact h
  | succ steps ih =>
    rcases s with x | name
    · exact h
    rw [follow]
    cases hlookup : subs.lookup? name with
    | none => exact h
    | some s' =>
      obtain ⟨e, hfound, rfl⟩ := Option.map_eq_some_iff.mp hlookup
      exact ih (List.mem_map_of_mem (Keyed.mem_of_findNamed?_eq_some hfound))

theorem resolve?_mem {s : Substitution F} (h : subs.resolve? name = some s) : s ∈ subs.values := by
  obtain ⟨s', hlookup, rfl⟩ := Option.map_eq_some_iff.mp h
  obtain ⟨e, hfound, rfl⟩ := Option.map_eq_some_iff.mp hlookup
  exact follow_mem (List.mem_map_of_mem (Keyed.mem_of_findNamed?_eq_some hfound))

/-- What a name becomes in a formula, if it is replaced. -/
def replacement (subs : Substitutions F) (name : String) : Option (Formula F) :=
  (subs.resolve? name).map formula

variable [Scalar F]

/-- **One name.**  After everything is written back, a name has the value that its replacement had
    before. -/
theorem stands_symbol (hacyclic : subs.Acyclic) (hsubs : subs.IsAscii)
    (hkeys : ∀ key ∈ a.keys, Text.IsAscii key) (hname : asciiFold name = name) {v : Value F}
    (hv : ((Formula.symbol name).replace subs.replacement).interpret a.keys a.values = .ok v) :
    ∃ w, (Formula.symbol name).interpret (subs.writeBack a).keys (subs.writeBack a).values = .ok w ∧
      Formula.Stands subs.replacement (.symbol name) v w := by
  have hkeys' : ∀ key ∈ (subs.writeBack a).keys, Text.IsAscii key := fun key hkey =>
    (mem_keys_writeBack hkey).elim (hkeys key) (hsubs.keys key)
  -- it is enough that the name has the value of `v`
  suffices value : (subs.writeBack a).named? name = some v.real ∧
      ((Formula.symbol name).SparesNames subs.replacement → v.isNumber = false) by
    obtain ⟨w, hw, hreal, hnumber⟩ := Keyed.interpret_of_named? hkeys' hname value.1
    exact ⟨w, hw, hreal.symm, fun hspares => (value.2 hspares).trans hnumber.symm⟩
  rw [named?_writeBack hacyclic, solvedValue?]
  rw [Formula.replace, replacement] at hv
  rcases hresolve : subs.resolve? name with _ | x | target
  · rw [hresolve] at hv
    obtain ⟨hvalue, hnumber⟩ := Keyed.named?_of_interpret hkeys hname hv
    exact ⟨hvalue, fun _ => hnumber⟩
  · rw [hresolve] at hv
    obtain rfl := Except.ok.inj hv
    refine ⟨rfl, fun hspares => absurd ?_ (hspares name .refl x)⟩
    rw [replacement, hresolve]
    rfl
  · rw [hresolve] at hv
    have hfold := lowercase_eq_asciiFold (hsubs.targets target (resolve?_mem hresolve))
    have hsame : sameName (lowercase target) target = true := by
      rw [sameName_iff, hfold, asciiFold_asciiFold]
    obtain ⟨hvalue, hnumber⟩ := Keyed.named?_of_interpret hkeys
      (by rw [hfold, asciiFold_asciiFold]) hv
    rw [Keyed.named?_congr hsame] at hvalue
    refine ⟨?_, fun _ => hnumber⟩
    show (a.named? target).or (a.named? name) = some v.real
    rw [hvalue, Option.some_or]

end Substitutions

end Drafting
