import Drafting.Proofs.Relaxation.Unmoved

namespace Drafting

open Text

/-!
# Replacements listed in another order

The chain of a name is followed through the whole list of replacements, entry by entry, wherever in
the list they stand.  As long as no two names that are replaced differ in case only, the list may be
put in any order: the same formulas come out, and the same values are written back, although each is
read from the assignment that the ones before it have been written to.

* `Formula.part_symbol_replace`, `Formula.replace_of_unreplaced` — names after a replacement;
* `Substitutions.lookup?_of_substitute` — no name is left that is replaced;
* `Keyed.findNamed?_perm` — names are found in lists in any order;
* `Substitutions.get?_writeBack` — what each entry holds when everything is written back;
* `Substitutions.chains_end` — chains, formulas and values.
-/

/-! ### Names after a replacement -/

namespace Formula

variable {F : Type} {f : String → Option (Formula F)} {e : Formula F} {name : String}

/-- A name in a formula with names replaced is there because of a name of the formula. -/
theorem part_symbol_replace (h : Part (.symbol name) (e.replace f)) :
    ∃ name', Part (.symbol name') e ∧ Part (.symbol name) ((symbol name').replace f) := by
  induction e using induction with
  | number x =>
    rw [replace, part_number] at h
    cases h
  | symbol name' => exact ⟨name', .refl, h⟩
  | binary op l r ihl ihr =>
    rw [replace, part_binary] at h
    rcases h with h | h | h
    · cases h
    · obtain ⟨name', hpart, hname⟩ := ihl h
      exact ⟨name', .left hpart, hname⟩
    · obtain ⟨name', hpart, hname⟩ := ihr h
      exact ⟨name', .right hpart, hname⟩
  | call g args ih =>
    rw [replace, replaceAll_eq_map, part_call] at h
    rcases h with h | ⟨_, hmem, h⟩
    · cases h
    · obtain ⟨a, ha, rfl⟩ := List.mem_map.mp hmem
      obtain ⟨name', hpart, hname⟩ := ih a ha h
      exact ⟨name', .argument ha hpart, hname⟩

/-- A formula whose names are not replaced stays what it is. -/
theorem replace_of_unreplaced (h : ∀ name, Part (.symbol name) e → f name = none) :
    e.replace f = e := by
  induction e using induction with
  | number x => rfl
  | symbol name =>
    rw [replace, h name .refl]
    rfl
  | binary op l r ihl ihr =>
    rw [replace, ihl fun n hn => h n (.left hn), ihr fun n hn => h n (.right hn)]
  | call g args ih =>
    have each : ∀ a ∈ args, a.replace f = id a := fun a ha =>
      ih a ha fun n hn => h n (.argument ha hn)
    rw [replace, replaceAll_eq_map, List.map_congr_left each, List.map_id]

end Formula

namespace Substitutions

variable {F : Type} {subs subs' : Substitutions F} {a : Keyed F} {e : Formula F} {name : String}

theorem resolve?_eq_none : subs.resolve? name = none ↔ subs.lookup? name = none := by
  rw [resolve?, Option.map_eq_none_iff]

/-- **No name is left that is replaced.** -/
theorem lookup?_of_substitute (hacyclic : subs.Acyclic) (hsubs : subs.IsAscii)
    (h : Formula.Part (.symbol name) (subs.substitute e)) : subs.lookup? name = none := by
  obtain ⟨name', -, h⟩ := Formula.part_symbol_replace h
  rw [Formula.replace] at h
  rcases hresolve : subs.resolve? name' with _ | x | target
  · rw [hresolve] at h
    obtain rfl : name = name' := by simpa using h
    exact resolve?_eq_none.mp hresolve
  · rw [hresolve] at h
    simp [formula] at h
  · rw [hresolve] at h
    obtain rfl : name = lowercase target := by simpa [formula] using h
    -- the name is the one at the end of the chain, up to case
    have same : sameName (lowercase target) target = true := by
      rw [sameName_iff, lowercase_eq_asciiFold (hsubs.targets target (resolve?_mem hresolve)),
        asciiFold_asciiFold]
    rw [lookup?, Keyed.findNamed?_congr same]
    exact lookup?_of_resolve? hacyclic hresolve

/-- Replacing names once is enough. -/
theorem substitute_substitute (hacyclic : subs.Acyclic) (hsubs : subs.IsAscii) (e : Formula F) :
    subs.substitute (subs.substitute e) = subs.substitute e := by
  refine Formula.replace_of_unreplaced fun name hname => ?_
  rw [resolve?_eq_none.mpr (lookup?_of_substitute hacyclic hsubs hname)]
  rfl

end Substitutions

/-! ### Lists in another order -/

namespace Keyed

variable {α : Type} {m m' : Keyed α} {name : String}

/-- Among names that differ by more than case there is one entry for a name at most. -/
theorem findNamed?_eq_some_iff (h : (m.keys.map asciiFold).Nodup) {e : String × α} :
    m.findNamed? name = some e ↔ e ∈ m.entries ∧ sameName e.1 name = true := by
  constructor
  · exact fun hfound => ⟨mem_of_findNamed?_eq_some hfound, (of_findNamed?_eq_some hfound).1⟩
  · rintro ⟨hmem, hsame⟩
    cases hfound : m.findNamed? name with
    | none =>
      have apart := findNamed?_eq_none.mp hfound e.1 (List.mem_map_of_mem hmem)
      rw [hsame] at apart
      cases apart
    | some e' =>
      have folded := (sameName_iff.mp (of_findNamed?_eq_some hfound).1).trans
        (sameName_iff.mp hsame).symm
      rw [keys, List.map_map] at h
      rw [List.inj_on_of_nodup_map h (mem_of_findNamed?_eq_some hfound) hmem folded]

/-- **Names are found in lists in any order.** -/
theorem findNamed?_perm (hperm : m'.entries.Perm m.entries) (h : (m.keys.map asciiFold).Nodup)
    (name : String) : m'.findNamed? name = m.findNamed? name := by
  have h' : (m'.keys.map asciiFold).Nodup :=
    ((hperm.map Prod.fst).map asciiFold).nodup_iff.mpr h
  refine Option.ext fun e => ?_
  rw [findNamed?_eq_some_iff h', findNamed?_eq_some_iff h, hperm.mem_iff]

/-- The name of the entry that a value for `name` goes to. -/
def slot (m : Keyed α) (name : String) : String := ((m.findNamed? name).map Prod.fst).getD name

theorem sameName_slot (m : Keyed α) (name : String) : sameName (m.slot name) name = true :=
  Substitutions.sameName_assigned m name

/-- Other names keep their entries. -/
theorem slot_insert {key : String} (apart : sameName key name = false) (x : α) :
    (m.insert key x).slot name = m.slot name := by
  unfold slot
  by_cases hkey : key ∈ m.keys
  · rw [findNamed?_insert_of_mem hkey, Option.map_map]
    congr 2
    funext e
    rw [Function.comp_apply]
    split <;> rfl
  · rw [findNamed?_insert_of_not_mem hkey, apart, if_neg Bool.false_ne_true, Option.or_none]

end Keyed

namespace Substitutions

variable {F : Type} {subs subs' : Substitutions F} {a : Keyed F} {name name' : String}

theorem lookup?_perm (hperm : subs'.entries.Perm subs.entries)
    (h : (subs.keys.map asciiFold).Nodup) (name : String) :
    subs'.lookup? name = subs.lookup? name := by
  rw [lookup?, lookup?, Keyed.findNamed?_perm hperm h]

/-- Chains are followed alike in any order of the replacements. -/
theorem follow_perm (hperm : subs'.entries.Perm subs.entries)
    (h : (subs.keys.map asciiFold).Nodup) (steps : Nat) (s : Substitution F) :
    subs'.follow steps s = subs.follow steps s := by
  induction steps generalizing s with
  | zero => cases s <;> rfl
  | succ steps ih =>
    rcases s with x | name
    · rfl
    · rw [follow, follow, lookup?_perm hperm h]
      cases subs.lookup? name with
      | none => rfl
      | some s => exact ih s

/-- **Chains are followed in lists in any order.** -/
theorem resolve?_perm (hperm : subs'.entries.Perm subs.entries)
    (h : (subs.keys.map asciiFold).Nodup) (name : String) :
    subs'.resolve? name = subs.resolve? name := by
  have size : subs'.size = subs.size := hperm.length_eq
  rw [resolve?, resolve?, lookup?_perm hperm h, size]
  exact congrArg (Option.map · _) (funext (follow_perm hperm h _))

theorem LeadsTo.perm (hperm : subs'.entries.Perm subs.entries)
    (h : (subs.keys.map asciiFold).Nodup) : subs'.LeadsTo = subs.LeadsTo := by
  funext name name'
  rw [LeadsTo, LeadsTo, lookup?_perm hperm h]

theorem Acyclic.perm (hacyclic : subs.Acyclic) (hperm : subs'.entries.Perm subs.entries)
    (h : (subs.keys.map asciiFold).Nodup) : subs'.Acyclic := by
  rwa [Acyclic, LeadsTo.perm hperm h]

/-! ### Writing back in another order -/

/-- Writing back one name gives a value to one entry, the first one with this name. -/
theorem get?_writeBackOne (subs : Substitutions F) (a : Keyed F) (name name' : String) :
    (subs.writeBackOne a name).get? name' =
      if a.slot name = name' then (subs.solvedValue? a name').or (a.get? name')
      else a.get? name' := by
  unfold writeBackOne
  by_cases same : a.slot name = name'
  · have folded : sameName name name' = true := same ▸ sameName_comm.trans (a.sameName_slot name)
    rw [if_pos same, ← solvedValue?_congr folded]
    cases subs.solvedValue? a name with
    | none => rfl
    | some x => exact (Keyed.get?_insert a _ x name').trans (if_pos same)
  · rw [if_neg same]
    cases subs.solvedValue? a name with
    | none => rfl
    | some x => exact (Keyed.get?_insert a _ x name').trans (if_neg same)

/-- The other names keep their entries. -/
theorem slot_writeBackOne (apart : sameName name name' = false) :
    (subs.writeBackOne a name).slot name' = a.slot name' := by
  have written : sameName (a.slot name) name' = false := by
    rw [sameName_comm, sameName_congr (a.sameName_slot name), sameName_comm, apart]
  unfold writeBackOne
  cases subs.solvedValue? a name with
  | none => rfl
  | some x => exact Keyed.slot_insert written x

/-- **All names**, whatever their order: each writes to the entry that it had before. -/
theorem get?_foldl_writeBackOne (hacyclic : subs.Acyclic) {names : List String}
    (hnames : ∀ name ∈ names, name ∈ subs.keys) (h : (names.map asciiFold).Nodup) (a : Keyed F)
    (name' : String) :
    (names.foldl subs.writeBackOne a).get? name' =
      if ∃ name ∈ names, a.slot name = name' then (subs.solvedValue? a name').or (a.get? name')
      else a.get? name' := by
  induction names generalizing a with
  | nil => simp
  | cons name rest ih =>
    obtain ⟨head, tail⟩ := List.forall_mem_cons.mp hnames
    obtain ⟨fresh, distinct⟩ := List.nodup_cons.mp h
    -- writing one name back leaves the entries that the others write to as they are
    have slots : ∀ n ∈ rest, (subs.writeBackOne a name).slot n = a.slot n := by
      refine fun n hn => slot_writeBackOne (Bool.eq_false_iff.mpr fun same => fresh ?_)
      exact sameName_iff.mp same ▸ List.mem_map_of_mem hn
    have later : (∃ n ∈ rest, (subs.writeBackOne a name).slot n = name') ↔
        ∃ n ∈ rest, a.slot n = name' :=
      exists_congr fun n => and_congr_right fun hn => by rw [slots n hn]
    rw [List.foldl_cons, ih tail distinct, solvedValue?_writeBackOne hacyclic head,
      get?_writeBackOne]
    simp only [later, List.exists_mem_cons_iff]
    by_cases here : a.slot name = name'
    · -- what has come back once is not changed by a second time
      cases subs.solvedValue? a name' <;> simp [here]
    · simp [here]

/-- **What an entry holds when everything is written back.** -/
theorem get?_writeBack (hacyclic : subs.Acyclic) (h : (subs.keys.map asciiFold).Nodup)
    (a : Keyed F) (name' : String) :
    (subs.writeBack a).get? name' =
      if ∃ name ∈ subs.keys, a.slot name = name' then
        (subs.solvedValue? a name').or (a.get? name')
      else a.get? name' :=
  get?_foldl_writeBackOne hacyclic (fun _ hname => hname) h a name'

/-- The values that are written back do not depend on the order either. -/
theorem solvedValue?_perm (hperm : subs'.entries.Perm subs.entries)
    (h : (subs.keys.map asciiFold).Nodup) (a : Keyed F) (name : String) :
    subs'.solvedValue? a name = subs.solvedValue? a name := by
  rw [solvedValue?, solvedValue?, resolve?_perm hperm h]

/-- **Any order.**  Each name gets the same value, in whatever order the replacements are listed. -/
theorem get?_writeBack_perm (hacyclic : subs.Acyclic) (hperm : subs'.entries.Perm subs.entries)
    (h : (subs.keys.map asciiFold).Nodup) (a : Keyed F) (name : String) :
    (subs'.writeBack a).get? name = (subs.writeBack a).get? name := by
  have names : subs'.keys.Perm subs.keys := hperm.map Prod.fst
  have distinct : (subs'.keys.map asciiFold).Nodup := (names.map asciiFold).nodup_iff.mpr h
  rw [get?_writeBack hacyclic h, get?_writeBack (hacyclic.perm hperm h) distinct,
    solvedValue?_perm hperm h]
  simp only [names.mem_iff]

/-- The same for values that are looked up in whatever case. -/
theorem named?_writeBack_perm (hacyclic : subs.Acyclic) (hperm : subs'.entries.Perm subs.entries)
    (h : (subs.keys.map asciiFold).Nodup) (a : Keyed F) (name : String) :
    (subs'.writeBack a).named? name = (subs.writeBack a).named? name := by
  rw [named?_writeBack hacyclic, named?_writeBack (hacyclic.perm hperm h),
    solvedValue?_perm hperm h]

/-- **Chains end, in lists in any order.**  Let all names be ASCII, and let no chain of replacements
    come back to its start.  Then

    * a name that is replaced is resolved to the end of its chain: a number, or a name that is not
      replaced;
    * in a formula whose names have been replaced no such name is left, and replacing names once
      more changes nothing;
    * the replacements may be listed in any other order, as long as no two of the names differ in
      case only: chains end alike, formulas are the same, and each entry of an assignment has the
      same value when everything is written back, be it looked up by its own name or without regard
      to case. -/
theorem chains_end (subs : Substitutions F) (hsubs : subs.IsAscii) (hacyclic : subs.Acyclic) :
    (∀ name s, subs.lookup? name = some s → ∃ last, subs.resolve? name = some last ∧
      (∀ s', subs.EndsIn name s' ↔ s' = last) ∧
      ∀ target, last = .variable target → subs.lookup? target = none) ∧
    (∀ e name, Formula.Part (.symbol name) (subs.substitute e) → subs.lookup? name = none) ∧
    (∀ e, subs.substitute (subs.substitute e) = subs.substitute e) ∧
    ∀ subs' : Substitutions F, subs'.entries.Perm subs.entries →
      (subs.keys.map asciiFold).Nodup →
      (∀ name, subs'.resolve? name = subs.resolve? name) ∧
      (∀ e, subs'.substitute e = subs.substitute e) ∧
      ∀ a name, (subs'.writeBack a).get? name = (subs.writeBack a).get? name ∧
        (subs'.writeBack a).named? name = (subs.writeBack a).named? name := by
  refine ⟨fun name s hlookup => ?_, fun e name => lookup?_of_substitute hacyclic hsubs,
    substitute_substitute hacyclic hsubs, fun subs' hperm h =>
      ⟨resolve?_perm hperm h, fun e => ?_, fun a name =>
        ⟨get?_writeBack_perm hacyclic hperm h a name,
          named?_writeBack_perm hacyclic hperm h a name⟩⟩⟩
  · obtain ⟨last, hends⟩ := exists_endsIn hacyclic hlookup
    have resolved := hends.resolve?_eq hacyclic
    refine ⟨last, resolved, fun s' => ?_, fun target htarget => hends.free htarget⟩
    rw [← resolve?_eq_some_iff hacyclic, resolved, Option.some.injEq, eq_comm]
  · -- what names are replaced by does not depend on the order
    have same : (fun name => (subs'.resolve? name).map formula) =
        fun name => (subs.resolve? name).map formula :=
      funext fun name => by rw [resolve?_perm hperm h]
    rw [substitute, substitute, same]

end Substitutions

/-- The chain of `chained`, listed from its end. -/
def chainedBackwards : Substitutions Float :=
  ⟨[("c", .value 4), ("A", .variable "X"), ("b", .variable "A")], by decide⟩

/-- Two orders of the same replacements, with a chain of two names. -/
theorem chains_end_chained :
    chained.forwardSubs.resolve? "B" = some (.variable "X") ∧
      chained.forwardSubs.lookup? "X" = none ∧
      chainedBackwards.resolve? "B" = some (.variable "X") ∧
      (∀ e, chained.forwardSubs.substitute (chained.forwardSubs.substitute e) =
        chained.forwardSubs.substitute e) ∧
      ∀ a, (chainedBackwards.writeBack a).get? "b" =
        (chained.forwardSubs.writeBack a).get? "b" := by
  obtain ⟨ends, -, once, order⟩ :=
    Substitutions.chains_end chained.forwardSubs isAscii_chained acyclic_chained
  obtain ⟨last, resolved, -, free⟩ := ends "B" (.variable "A") rfl
  have found : chained.forwardSubs.resolve? "B" = some (.variable "X") := rfl
  obtain rfl := Option.some.inj (found.symm.trans resolved)
  have backwards : chainedBackwards.entries.Perm chained.forwardSubs.entries :=
    List.reverse_perm chained.forwardSubs.entries
  obtain ⟨same, -, values⟩ := order chainedBackwards backwards (by decide)
  exact ⟨found, free "X" rfl, (same "B").trans found, once, fun a => (values a "b").1⟩

end Drafting
