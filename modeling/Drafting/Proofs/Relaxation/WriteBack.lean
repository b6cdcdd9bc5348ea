import Mathlib.Data.Finset.Card
import Mathlib.Data.Finset.Dedup
import Mathlib.Logic.Relation
import Drafting.Proofs.Relaxation.Named

namespace Drafting.Substitutions

open Relation Text

/-!
# Values that are written back

If no chain of replacements comes back to where it started, each chain ends: at a number, or at a
name that is not replaced.  What is written back then never touches a name that other names get
their values from, and the order of the replacements does not matter.

* `Acyclic` — no chain comes back;
* `EndsIn` — what a chain ends in, and `resolve?_eq_some_iff` — that it is followed to there;
* `named?_writeBack` — the values of all names afterwards.
-/

variable {F : Type} {subs : Substitutions F} {a : Keyed F} {name name' target : String}

/-! ### Chains -/

/-- A name is replaced by another one, up to case. -/
def LeadsTo (subs : Substitutions F) (name name' : String) : Prop :=
  ∃ target, subs.lookup? name = some (.variable target) ∧ sameName target name' = true

/-- No chain of replacements comes back to the name it started at. -/
def Acyclic (subs : Substitutions F) : Prop := ∀ name, ¬ TransGen subs.LeadsTo name name

/-- If names are replaced by names of lower rank, no chain comes back. -/
theorem acyclic_of_rank (rank : String → Nat)
    (h : ∀ name name', subs.LeadsTo name name' → rank name' < rank name) : subs.Acyclic := by
  have decreases : ∀ name name', TransGen subs.LeadsTo name name' → rank name' < rank name := by
    intro name name' hchain
    induction hchain with
    | single hstep => exact h _ _ hstep
    | tail _ hstep ih => exact Nat.lt_trans (h _ _ hstep) ih
  exact fun name hcycle => Nat.lt_irrefl _ (decreases name name hcycle)

/-- The name is the same, or a chain leads to it. -/
def Reaches (subs : Substitutions F) (name name' : String) : Prop :=
  sameName name name' = true ∨ TransGen subs.LeadsTo name name'

theorem LeadsTo.trans_sameName {c : String} (h : subs.LeadsTo name name')
    (hc : sameName name' c = true) : subs.LeadsTo name c := by
  obtain ⟨target, hlookup, hsame⟩ := h
  exact ⟨target, hlookup, (sameName_congr hc target).symm.trans hsame⟩

/-- A chain leads to a name in whatever case it is written. -/
theorem trans_sameName {c : String} (h : TransGen subs.LeadsTo name name')
    (hc : sameName name' c = true) : TransGen subs.LeadsTo name c := by
  cases h with
  | single hstep => exact .single (hstep.trans_sameName hc)
  | tail hchain hstep => exact .tail hchain (hstep.trans_sameName hc)

/-- What is reached from the name that a name is replaced by is reached from the name. -/
theorem Reaches.head (hlookup : subs.lookup? name = some (.variable target))
    (h : subs.Reaches target name') : TransGen subs.LeadsTo name name' := by
  rcases h with hsame | hchain
  · exact .single ⟨target, hlookup, hsame⟩
  · exact .head ⟨target, hlookup, sameName_refl target⟩ hchain

open Classical in
/-- The entries that are reached from a name. -/
noncomputable def reachable (subs : Substitutions F) (name : String) : Finset String :=
  subs.keys.toFinset.filter (subs.Reaches name)

open Classical in
theorem mem_reachable {key : String} :
    key ∈ subs.reachable name ↔ key ∈ subs.keys ∧ subs.Reaches name key := by
  rw [reachable, Finset.mem_filter, List.mem_toFinset]

open Classical in
/-- No more names can be reached than there are replacements. -/
theorem card_reachable_le (subs : Substitutions F) (name : String) :
    (subs.reachable name).card ≤ subs.size := by
  calc (subs.reachable name).card ≤ subs.keys.toFinset.card := Finset.card_filter_le _ _
    _ ≤ subs.keys.length := List.toFinset_card_le _
    _ = subs.size := subs.length_keys

/-- **One step.**  Without cycles the name that a name is replaced by reaches fewer entries. -/
theorem card_reachable_lt (hacyclic : subs.Acyclic)
    (hlookup : subs.lookup? name = some (.variable target)) :
    (subs.reachable target).card < (subs.reachable name).card := by
  obtain ⟨e, hfound, -⟩ := Option.map_eq_some_iff.mp hlookup
  obtain ⟨hsame, hmem⟩ := Keyed.of_findNamed?_eq_some hfound
  have own : e.1 ∈ subs.reachable name :=
    mem_reachable.mpr ⟨hmem, .inl (sameName_comm.trans hsame)⟩
  have lost : e.1 ∉ subs.reachable target := fun h =>
    hacyclic name (trans_sameName ((mem_reachable.mp h).2.head hlookup) hsame)
  have subset : subs.reachable target ⊆ subs.reachable name := fun key h =>
    mem_reachable.mpr ⟨(mem_reachable.mp h).1, .inr ((mem_reachable.mp h).2.head hlookup)⟩
  exact Finset.card_lt_card ((Finset.ssubset_iff_of_subset subset).mpr ⟨e.1, own, lost⟩)

/-- A name that is replaced reaches its own entry. -/
theorem card_reachable_pos {s : Substitution F} (hlookup : subs.lookup? name = some s) :
    0 < (subs.reachable name).card := by
  obtain ⟨e, hfound, -⟩ := Option.map_eq_some_iff.mp hlookup
  obtain ⟨hsame, hmem⟩ := Keyed.of_findNamed?_eq_some hfound
  exact Finset.card_pos.mpr ⟨e.1, mem_reachable.mpr ⟨hmem, .inl (sameName_comm.trans hsame)⟩⟩

/-- The chain of replacements that starts at a name ends: in a number, or in a name that is not
    replaced. -/
inductive EndsIn (subs : Substitutions F) : String → Substitution F → Prop
  | number {name : String} {x : F} (h : subs.lookup? name = some (.value x)) :
    EndsIn subs name (.value x)
  | name {name target : String} (h : subs.lookup? name = some (.variable target))
    (free : subs.lookup? target = none) : EndsIn subs name (.variable target)
  | step {name next : String} {s : Substitution F} (h : subs.lookup? name = some (.variable next))
    (rest : EndsIn subs next s) : EndsIn subs name s

/-- **Chains end.**  Each name on a chain reaches fewer entries than the one before. -/
theorem exists_endsIn (hacyclic : subs.Acyclic) {s : Substitution F}
    (hlookup : subs.lookup? name = some s) : ∃ s, subs.EndsIn name s := by
  induction hcard : (subs.reachable name).card using Nat.strongRecOn generalizing name s with
  | ind card ih =>
    subst hcard
    rcases s with x | next
    · exact ⟨_, .number hlookup⟩
    cases hnext : subs.lookup? next with
    | none => exact ⟨_, .name hlookup hnext⟩
    | some s =>
      obtain ⟨s', hs'⟩ := ih _ (card_reachable_lt hacyclic hlookup) hnext rfl
      exact ⟨s', .step hlookup hs'⟩

/-- With a step for each entry that is reached, a chain is followed to its end. -/
theorem EndsIn.follow (hacyclic : subs.Acyclic) {s : Substitution F} (h : subs.EndsIn name s)
    {steps : Nat} (hsteps : (subs.reachable name).card ≤ steps) :
    subs.follow steps (.variable name) = s := by
  induction h generalizing steps with
  | number h =>
    obtain ⟨steps, rfl⟩ := Nat.exists_eq_add_of_le' ((card_reachable_pos h).trans_le hsteps)
    cases steps <;> simp [Substitutions.follow, h]
  | name h free =>
    obtain ⟨steps, rfl⟩ := Nat.exists_eq_add_of_le' ((card_reachable_pos h).trans_le hsteps)
    cases steps <;> simp [Substitutions.follow, h, free]
  | step h rest ih =>
    have fewer := card_reachable_lt hacyclic h
    obtain ⟨steps, rfl⟩ := Nat.exists_eq_add_of_le' ((card_reachable_pos h).trans_le hsteps)
    simp only [Substitutions.follow, h]
    exact ih (by omega)

/-- Where no chain comes back to its start, a name is resolved to the end of its chain. -/
theorem EndsIn.resolve?_eq (hacyclic : subs.Acyclic) {s : Substitution F}
    (h : subs.EndsIn name s) : subs.resolve? name = some s := by
  unfold resolve?
  cases h with
  | number h => cases hsize : subs.size <;> simp [h, Substitutions.follow]
  | name h free => cases hsize : subs.size <;> simp [h, Substitutions.follow, free]
  | step h rest =>
    rw [h, Option.map_some, rest.follow hacyclic (card_reachable_le subs _)]

/-- What a name is resolved to is the end of its chain. -/
theorem resolve?_eq_some_iff (hacyclic : subs.Acyclic) {s : Substitution F} :
    subs.resolve? name = some s ↔ subs.EndsIn name s := by
  refine ⟨fun h => ?_, EndsIn.resolve?_eq hacyclic⟩
  obtain ⟨s', hlookup, -⟩ := Option.map_eq_some_iff.mp h
  obtain ⟨s', hs'⟩ := exists_endsIn hacyclic hlookup
  rw [hs'.resolve?_eq hacyclic] at h
  exact Option.some.inj h ▸ hs'

/-- A name at the end of a chain is not itself replaced. -/
theorem EndsIn.free {s : Substitution F} (h : subs.EndsIn name s) (hs : s = .variable target) :
    subs.lookup? target = none := by
  induction h with
  | number => cases hs
  | name _ free =>
    cases hs
    exact free
  | step _ _ ih => exact ih hs

/-- **Chains end at names that are not replaced.** -/
theorem lookup?_of_resolve? (hacyclic : subs.Acyclic)
    (h : subs.resolve? name = some (.variable target)) : subs.lookup? target = none :=
  ((resolve?_eq_some_iff hacyclic).mp h).free rfl

/-! ### Writing back -/

theorem resolve?_congr (h : sameName name name' = true) (subs : Substitutions F) :
    subs.resolve? name = subs.resolve? name' := by
  rw [resolve?, resolve?, lookup?, lookup?, Keyed.findNamed?_congr h]

theorem solvedValue?_congr (h : sameName name name' = true) (subs : Substitutions F)
    (a : Keyed F) : subs.solvedValue? a name = subs.solvedValue? a name' := by
  rw [solvedValue?, solvedValue?, resolve?_congr h]

/-- A name that is not replaced gets nothing back. -/
theorem solvedValue?_of_lookup? (h : subs.lookup? name = none) (a : Keyed F) :
    subs.solvedValue? a name = none := by
  rw [solvedValue?, resolve?, h]
  rfl

/-- Writing back one name gives it a value, in whatever case it is written, and no other name. -/
theorem named?_writeBackOne (subs : Substitutions F) (a : Keyed F) (name name' : String) :
    (subs.writeBackOne a name).named? name' =
      if sameName name name' then (subs.solvedValue? a name').or (a.named? name')
      else a.named? name' := by
  unfold writeBackOne
  by_cases same : sameName name name' = true
  · rw [if_pos same, ← solvedValue?_congr same]
    cases subs.solvedValue? a name with
    | none => rfl
    | some x => exact (named?_assign a name x name').trans (if_pos same)
  · rw [if_neg same]
    cases subs.solvedValue? a name with
    | none => rfl
    | some x => exact (named?_assign a name x name').trans (if_neg same)

/-- **One name.**  Writing a value back changes no value that is still to be written back. -/
theorem solvedValue?_writeBackOne (hacyclic : subs.Acyclic) (hname : name ∈ subs.keys)
    (a : Keyed F) (name' : String) :
    subs.solvedValue? (subs.writeBackOne a name) name' = subs.solvedValue? a name' := by
  unfold solvedValue?
  rcases hresolve : subs.resolve? name' with _ | x | target
  · rfl
  · rfl
  · have free := Keyed.named?_eq_none.mp (lookup?_of_resolve? hacyclic hresolve) name hname
    show (subs.writeBackOne a name).named? target = a.named? target
    rw [named?_writeBackOne, free]
    rfl

/-- **All names.** -/
theorem named?_foldl_writeBackOne (hacyclic : subs.Acyclic) {names : List String}
    (hnames : ∀ name ∈ names, name ∈ subs.keys) (a : Keyed F) (name' : String) :
    (names.foldl subs.writeBackOne a).named? name' =
      if names.any (sameName · name') then (subs.solvedValue? a name').or (a.named? name')
      else a.named? name' := by
  induction names generalizing a with
  | nil => rfl
  | cons name rest ih =>
    have head := hnames name List.mem_cons_self
    rw [List.foldl_cons, ih (fun n hn => hnames n (List.mem_cons_of_mem name hn)),
      solvedValue?_writeBackOne hacyclic head, named?_writeBackOne, List.any_cons]
    cases sameName name name' with
    | false => rfl
    | true =>
      -- what has come back once is not changed by a second time
      cases subs.solvedValue? a name' <;> simp

/-- **Values after everything is written back.**  A name that is replaced has the value that its
    replacement has, all other names have the values they had. -/
theorem named?_writeBack (hacyclic : subs.Acyclic) (a : Keyed F) (name : String) :
    (subs.writeBack a).named? name = (subs.solvedValue? a name).or (a.named? name) := by
  rw [writeBack, named?_foldl_writeBackOne hacyclic fun _ h => h]
  split
  · rfl
  · next unreplaced =>
    have hlookup : subs.lookup? name = none := by
      refine Keyed.named?_eq_none.mpr fun key hkey => ?_
      have apart := List.any_eq_false.mp (Bool.eq_false_iff.mpr unreplaced) key hkey
      exact Bool.eq_false_iff.mpr apart
    rw [solvedValue?_of_lookup? hlookup, Option.none_or]

/-- Names that are new afterwards are names that were replaced. -/
theorem mem_keys_writeBack {key : String} (h : key ∈ (subs.writeBack a).keys) :
    key ∈ a.keys ∨ key ∈ subs.keys := by
  have step : ∀ (names : List String) (a : Keyed F),
      key ∈ (names.foldl subs.writeBackOne a).keys → key ∈ a.keys ∨ key ∈ names := by
    intro names
    induction names with
    | nil => exact fun a h => .inl h
    | cons name rest ih =>
      intro a h
      rcases ih _ h with h | h
      · unfold writeBackOne at h
        split at h
        · rcases mem_keys_assign h with h | rfl
          · exact .inl h
          · exact .inr List.mem_cons_self
        · exact .inl h
      · exact .inr (List.mem_cons_of_mem name h)
  exact step subs.keys a h

end Drafting.Substitutions
