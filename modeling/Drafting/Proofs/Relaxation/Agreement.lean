import Drafting.Proofs.Relaxation.Unmoved
import Drafting.Proofs.Text.Folding

namespace Drafting

open Text

/-!
# Names in formulas and names of entries

The names in a formula are looked up in two ways.  Where it is compiled, a name stands for the first
variable that has it as its lower case.  Where names are replaced and written back, it is compared
without regard to the case of ASCII letters.  On names without a Kelvin sign both come to the same;
beyond that they do not.

* `Keyed.StandsFor` — what the compiler takes a name for;
* `Substitutions.isSome_resolve?_iff_lowercase` — which names are replaced;
* `Keyed.StandsFor.findNamed?_iff` — when a name finds the entry that it stands for;
* `Substitutions.names_agree` — both ways, side by side.
-/

/-- Names in formulas are ASCII. -/
theorem Lexer.IsPlainName.isAscii {name : String} (h : IsPlainName name.toList) :
    Text.IsAscii name := by
  intro c hc
  rcases h.of_mem hc with hlower | hdigit | rfl
  · have := (isLower_iff.mp hlower).2
    omega
  · have := (isDigit_iff.mp hdigit).2
    omega
  · decide

variable {F : Type} {a b : Keyed F} {subs : Substitutions F} {name target key : String} {i : Nat}
  {x y : F}

/-! ### The entry that a name stands for -/

namespace Keyed

/-- The compiler takes `name` for entry number `i` of an assignment, and its own name is `key`. -/
structure StandsFor (a : Keyed F) (name : String) (i : Nat) (key : String) : Prop where
  index : (Scope.ofNames a.keys).index? name = some i
  key : a.keys[i]? = some key

/-- The names of a keyed list are those of its entries, in their places. -/
theorem getElem?_keys : a.keys[i]? = some key ↔ ∃ x, a.entries[i]? = some (key, x) := by
  rw [keys, List.getElem?_map, Option.map_eq_some_iff]
  constructor
  · rintro ⟨⟨_, x⟩, hentry, rfl⟩
    exact ⟨x, hentry⟩
  · rintro ⟨x, hentry⟩
    exact ⟨_, hentry, rfl⟩

/-- A name stands for the first entry that has it as its lower case. -/
theorem StandsFor.first (h : a.StandsFor name i key) :
    ∃ hlt : i < a.keys.length, a.keys[i] = key ∧ lowercase key = name ∧
      ∀ j (hj : j < i), lowercase (a.keys.get ⟨j, hj.trans hlt⟩) ≠ name := by
  have hindex := h.index
  rw [Scope.index?_ofNames, List.findIdx?_eq_some_iff_getElem] at hindex
  obtain ⟨hlt, hname, hbefore⟩ := hindex
  have here : a.keys[i] = key := (List.getElem?_eq_some_iff.mp h.key).2
  rw [here] at hname
  exact ⟨hlt, here, beq_iff_eq.mp hname, fun j hj heq => hbefore j hj (beq_iff_eq.mpr heq)⟩

/-- Further entries do not change what a name stands for. -/
theorem StandsFor.mono (h : a.StandsFor name i key) (hfront : a.keys <+: b.keys) :
    b.StandsFor name i key := by
  obtain ⟨added, hkeys⟩ := hfront
  have hindex := h.index
  rw [Scope.index?_ofNames] at hindex
  refine ⟨?_, ?_⟩
  · rw [Scope.index?_ofNames, ← hkeys, List.findIdx?_append, hindex, Option.some_or]
  · rw [← hkeys, List.getElem?_append_left (List.getElem?_eq_some_iff.mp h.key).1]
    exact h.key

/-- **Two ways to look a name up.**  A name finds the entry that its lower case stands for iff the
    two differ at most in the case of ASCII letters. -/
theorem StandsFor.findNamed?_iff (h : a.StandsFor (lowercase target) i key) :
    a.findNamed? target = a.entries[i]? ↔ sameName key target = true := by
  obtain ⟨x, hentry⟩ := getElem?_keys.mp h.key
  constructor
  · intro hfound
    exact (of_findNamed?_eq_some (hfound.trans hentry)).1
  · intro hsame
    obtain ⟨hlt, here, -, hbefore⟩ := h.first
    -- no entry before it has the name, for it would have the lower case, too
    have first : a.keys.findIdx? (sameName · target) = some i := by
      rw [List.findIdx?_eq_some_iff_getElem]
      refine ⟨hlt, here ▸ hsame, fun j hj hfound => hbefore j hj ?_⟩
      exact lowercase_eq_of_sameName hfound
    rw [findNamed?_eq_bind, first, Option.bind_some]

/-- A new value for an entry that is there. -/
theorem entries_insert_of_getElem? (h : a.entries[i]? = some (key, y)) (x : F) :
    (a.insert key x).entries = a.entries.set i (key, x) := by
  have hkey : a.keys[i]? = some key := getElem?_keys.mpr ⟨y, h⟩
  have hlt := (List.getElem?_eq_some_iff.mp hkey).1
  rw [insert, dif_pos (List.mem_of_getElem? hkey)]
  refine List.ext_getElem? fun j => ?_
  show (setEntries key x a.entries)[j]? = _
  rw [setEntries, List.getElem?_map, List.getElem?_set]
  by_cases hij : i = j
  · subst hij
    rw [if_pos rfl, if_pos (List.getElem?_eq_some_iff.mp h).1, h, Option.map_some, if_pos rfl]
  · rw [if_neg hij]
    cases hj : a.entries[j]? with
    | none => rfl
    | some e =>
      -- the key is that of entry `i` alone
      have hne : e.1 ≠ key := by
        rintro rfl
        have hkey' : a.keys[j]? = some e.1 := getElem?_keys.mpr ⟨e.2, hj⟩
        exact hij ((List.getElem?_inj hlt a.nodup).mp (hkey.trans hkey'.symm))
      rw [Option.map_some, if_neg hne]

end Keyed

/-! ### Names that are replaced and written back -/

namespace Substitutions

/-- A name is replaced iff one of the replacements has it, in whatever case. -/
theorem isSome_resolve?_iff :
    (subs.resolve? name).isSome = true ↔ ∃ key ∈ subs.keys, sameName key name = true := by
  rw [resolve?, Option.isSome_map, lookup?, Option.isSome_map, Option.isSome_iff_ne_none, Ne,
    Keyed.findNamed?_eq_none]
  simp

/-- **Which names are replaced.** -/
theorem isSome_resolve?_iff_lowercase (hascii : Text.IsAscii name) (hfold : asciiFold name = name) :
    (subs.resolve? name).isSome = true ↔
      ∃ key ∈ subs.keys, lowercase key = name ∧ kelvin ∉ key.toList := by
  rw [isSome_resolve?_iff]
  exact exists_congr fun key => and_congr_right fun _ => sameName_iff_lowercase hascii hfold

/-- The names in `rest` are still to be written back, and the others have led from `a` to `b`. -/
def Underway (subs : Substitutions F) (a : Keyed F) (rest : List String) (b : Keyed F) : Prop :=
  ∃ done, subs.keys = done ++ rest ∧ done.foldl subs.writeBackOne a = b

theorem underway_start (subs : Substitutions F) (a : Keyed F) : subs.Underway a subs.keys a :=
  ⟨[], rfl, rfl⟩

theorem underway_writeBack (subs : Substitutions F) (a : Keyed F) :
    subs.Underway a [] (subs.writeBack a) :=
  ⟨subs.keys, (List.append_nil _).symm, rfl⟩

/-- All entries stay in their places. -/
theorem Underway.front {rest : List String} (h : subs.Underway a rest b) :
    a.keys <+: b.keys := by
  obtain ⟨done, -, rfl⟩ := h
  induction done generalizing a with
  | nil => exact List.prefix_rfl
  | cons name done ih =>
    refine List.IsPrefix.trans ?_ ih
    rcases subs.keys_writeBackOne a name with same | ⟨more, -⟩
    · rw [same]
    · rw [more]
      exact List.prefix_append _ _

/-- **One name.**  Its value goes to the entry that it finds. -/
theorem entries_writeBackOne (hentry : a.entries[i]? = some (key, y))
    (hfound : a.findNamed? name = a.entries[i]?) (hx : subs.solvedValue? a name = some x) :
    (subs.writeBackOne a name).entries = a.entries.set i (key, x) := by
  unfold writeBackOne
  rw [hx]
  show (assign a name x).entries = _
  rw [assign, hfound, hentry]
  exact Keyed.entries_insert_of_getElem? hentry x

end Substitutions

/-! ### Names of formulas -/

/-- A name that formulas can have is looked up in both ways alike, unless there is a Kelvin sign. -/
theorem Keyed.StandsFor.sameName_iff (h : a.StandsFor name i key) (hascii : Text.IsAscii name)
    (hfold : asciiFold name = name) : sameName key name = true ↔ kelvin ∉ key.toList := by
  obtain ⟨-, -, hlower, -⟩ := h.first
  rw [sameName_iff_lowercase hascii hfold, and_iff_right hlower]

/-- Then it finds the entry that it stands for. -/
theorem Keyed.StandsFor.findNamed?_eq (h : a.StandsFor name i key) (hascii : Text.IsAscii name)
    (hfold : asciiFold name = name) (hk : kelvin ∉ key.toList) :
    a.findNamed? name = a.entries[i]? := by
  have hlower : lowercase name = name := (lowercase_eq_asciiFold hascii).trans hfold
  have h' : a.StandsFor (lowercase name) i key := hlower.symm ▸ h
  exact h'.findNamed?_iff.mpr ((h.sameName_iff hascii hfold).mpr hk)

namespace Substitutions

variable [Scalar F]

/-- **Compiler and substitution.**  Let `name` be a name in a formula that is read.

    * It is replaced iff a name with this lower case is to be replaced and has no Kelvin sign.
    * Let the compiler take it for entry `i` of the assignment.  What is written back to the name,
      or to one that is the same, is written to this entry and no other, unless the entry's name has a
      Kelvin sign; then the entry is left as it is.  So it has the value of the replacement in the
      end, if no chain of replacements comes back to its start.

    A name that others are replaced by, whatever its characters are, becomes its lower case in a
    formula.  What is read back for it is the entry that the compiler takes this for iff their names
    differ at most in the case of ASCII letters. -/
theorem names_agree (subs : Substitutions F) (a : Keyed F) :
    (∀ text (e : Formula F) name, Formula.ofText text = .ok e → Formula.Part (.symbol name) e →
      ((subs.resolve? name).isSome = true ↔
        ∃ key ∈ subs.keys, lowercase key = name ∧ kelvin ∉ key.toList) ∧
      ∀ i key, a.StandsFor name i key →
        (∀ k rest b x, subs.Underway a (k :: rest) b → sameName k name = true →
          subs.solvedValue? b k = some x →
          if kelvin ∈ key.toList then (subs.writeBackOne b k).entries[i]? = b.entries[i]?
          else (subs.writeBackOne b k).entries = b.entries.set i (key, x)) ∧
        (subs.Acyclic → kelvin ∉ key.toList → ∀ x, subs.solvedValue? a name = some x →
          (subs.writeBack a).entries[i]? = some (key, x))) ∧
    ∀ target i key, a.StandsFor (lowercase target) i key → ∀ rest b, subs.Underway a rest b →
      (b.findNamed? target = b.entries[i]? ↔ sameName key target = true) := by
  refine ⟨fun text e name hread hpart => ?_, fun target i key h rest b hb => ?_⟩
  · have hascii : Text.IsAscii name := (Formula.isPlain_of_ofText hread hpart).isAscii
    have hfold : asciiFold name = name := Formula.asciiFold_of_ofText hread hpart
    refine ⟨isSome_resolve?_iff_lowercase hascii hfold, fun i key h => ⟨?_, ?_⟩⟩
    · intro k rest b x hb hk hx
      have hstands := h.mono hb.front
      obtain ⟨y, hentry⟩ := Keyed.getElem?_keys.mp hstands.key
      split
      · next hkelvin =>
        -- the name does not find the entry, and so it does not write to it
        refine getElem?_writeBackOne hentry ?_ |>.trans hentry.symm
        rw [sameName_comm, sameName_congr hk, ← Bool.not_eq_true, h.sameName_iff hascii hfold]
        exact not_not_intro hkelvin
      · next hkelvin =>
        refine entries_writeBackOne hentry ?_ hx
        rw [Keyed.findNamed?_congr hk]
        exact hstands.findNamed?_eq hascii hfold hkelvin
    · intro hacyclic hkelvin x hx
      have hstands := h.mono (subs.underway_writeBack a).front
      obtain ⟨y, hentry⟩ := Keyed.getElem?_keys.mp hstands.key
      have hvalue := named?_writeBack hacyclic a name
      rw [Keyed.named?, hstands.findNamed?_eq hascii hfold hkelvin, hentry, hx] at hvalue
      rw [hentry, ← Option.some.inj hvalue]
  · exact (h.mono hb.front).findNamed?_iff

end Substitutions

/-! ### Names that agree, and names that do not -/

/-- One name alone. -/
def Keyed.single {α : Type} (name : String) (x : α) : Keyed α :=
  ⟨[(name, x)], List.nodup_singleton _⟩

/-- Values for `a` and `b`. -/
def pairOfNames : Keyed Float := ⟨[("a", 1), ("b", 2)], by decide⟩

/-- `A` is replaced by `B`. -/
def renamed : Substitutions Float := .single "A" (.variable "B")

/-- The only chain has one step. -/
theorem acyclic_renamed : renamed.Acyclic := by
  refine Substitutions.acyclic_of_rank (fun name => if asciiFold name = "a" then 1 else 0) ?_
  rintro name name' ⟨target, hlookup, hsame⟩
  obtain ⟨e, hfound, he⟩ := Option.map_eq_some_iff.mp hlookup
  have hname := (Keyed.of_findNamed?_eq_some hfound).1
  obtain rfl : e = ("A", .variable "B") :=
    List.mem_singleton.mp (Keyed.mem_of_findNamed?_eq_some hfound)
  cases he
  rw [← sameName_iff.mp hname, ← sameName_iff.mp hsame]
  decide

/-- The value of `B` is that of `b`, and it is written back to `a`. -/
theorem names_agree_renamed :
    (renamed.resolve? "a").isSome = true ∧ pairOfNames.StandsFor "a" 0 "a" ∧
      (renamed.writeBackOne pairOfNames "A").entries = [("a", 2), ("b", 2)] ∧
      (renamed.writeBack pairOfNames).entries[0]? = some ("a", 2) ∧
      pairOfNames.StandsFor (lowercase "B") 1 "b" ∧ pairOfNames.findNamed? "B" = some ("b", 2) := by
  obtain ⟨formulas, targets⟩ := renamed.names_agree pairOfNames
  have read : Formula.ofText "a - 1" = .ok (.binary .sub (.symbol "a")
      (.number (Scalar.ofDecimal 1 0 : Float))) := rfl
  obtain ⟨replaced, written⟩ := formulas "a - 1" _ "a" read (by simp)
  have stands : pairOfNames.StandsFor "a" 0 "a" := ⟨by decide, by decide⟩
  have stands_target : pairOfNames.StandsFor (lowercase "B") 1 "b" := ⟨by decide, by decide⟩
  obtain ⟨step, result⟩ := written 0 "a" stands
  have start := renamed.underway_start pairOfNames
  have one := step "A" [] pairOfNames 2 start (by decide) rfl
  rw [if_neg (by decide)] at one
  exact ⟨replaced.mpr ⟨"A", by decide, by decide, by decide⟩, stands, one,
    result acyclic_renamed (by decide) 2 rfl, stands_target,
    (targets "B" 1 "b" stands_target _ _ start).mpr (by decide)⟩

/-- The Kelvin sign has the lower case `k`, but it neither replaces `k` nor gets its value.  And a
    name that is replaced by `É` gets no value from `é`, which formulas take `É` for. -/
theorem not_names_agree :
    (∃ e : Formula Float, Formula.ofText "x - k" = .ok e ∧ Formula.Part (.symbol "k") e) ∧
      ((∃ key ∈ (Keyed.single "\u212A" (Substitution.value (3 : Float))).keys,
          lowercase key = "k") ∧
        Substitutions.resolve? (.single "\u212A" (.value (3 : Float))) "k" = none) ∧
      ((Keyed.single "\u212A" (1 : Float)).StandsFor "k" 0 "\u212A" ∧
        (Substitutions.writeBack (.single "k" (.value (3 : Float))) (.single "\u212A" 1)).entries
          = [("\u212A", 1), ("k", 3)]) ∧
      ((Keyed.single "é" (3 : Float)).StandsFor (lowercase "É") 0 "é" ∧
        (Keyed.single "é" (3 : Float)).findNamed? "É" = none ∧
        (Substitutions.writeBack (.single "y" (.variable "É")) (.single "é" (3 : Float))).entries
          = [("é", 3)]) := by
  have read : Formula.ofText "x - k"
      = .ok (.binary .sub (.symbol "x") (.symbol "k" : Formula Float)) := rfl
  have sign : lowercase "\u212A" = "k" := by decide +kernel
  have letter : lowercase "É" = "é" := by decide +kernel
  have small : lowercase "é" = "é" := by decide +kernel
  refine ⟨⟨_, read, by simp⟩, ⟨⟨"\u212A", by decide, sign⟩, rfl⟩, ⟨⟨?_, rfl⟩, rfl⟩, ⟨?_, rfl⟩,
    rfl, rfl⟩
  · rw [Scope.index?_ofNames]
    simp [Keyed.single, Keyed.keys, sign]
  · rw [letter, Scope.index?_ofNames]
    simp [Keyed.single, Keyed.keys, small]

end Drafting
