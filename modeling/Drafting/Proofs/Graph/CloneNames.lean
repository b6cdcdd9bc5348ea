import Drafting.Graph.Split
import Drafting.Proofs.Graph.Connectivity

namespace Drafting

/-!
# The names of clones

A clone is named after its original: an underscore and a number are appended.  The number has no
underscore in it, so that the original and the number can be read off the name.

* `Graph.Descends u v` — `v` is `u`, or `u` followed by groups of an underscore and digits;
* `Graph.cloneId_inj` — clones of different originals, or with different numbers, have different
  names;
* `Graph.NamesApart` — no node is named like a clone of another node.
-/

/-- One or more decimal digits. -/
def IsNumeral (s : String) : Prop := s ≠ "" ∧ ∀ c ∈ s.toList, c.isDigit = true

/-- Numbers are written with digits only, and with at least one. -/
theorem isNumeral_toString (i : Nat) : IsNumeral (toString i) := by
  have digits : (toString i).toList = Nat.toDigits 10 i := by
    rw [Nat.toString_eq_repr, Nat.toList_repr]
  constructor
  · intro hempty
    rw [hempty] at digits
    exact Nat.toDigits_ne_nil digits.symm
  · intro c hc
    rw [digits] at hc
    exact Nat.isDigit_of_mem_toDigits (by decide) (by decide) hc

theorem IsNumeral.underscore_not_mem {s : String} (h : IsNumeral s) : '_' ∉ s.toList :=
  fun hmem => absurd (h.2 '_' hmem) (by decide)

/-- Different numbers are written differently. -/
theorem toString_nat_injective {i j : Nat} (h : toString i = toString j) : i = j := by
  have digits := congrArg String.toList h
  rw [Nat.toString_eq_repr, Nat.toString_eq_repr, Nat.toList_repr, Nat.toList_repr] at digits
  have value := congrArg (fun ds => Nat.ofDigitChars 10 ds 0) digits
  simpa using value

/-- What stands before the last `x` of a list, and what stands after it. -/
theorem append_cons_inj {α : Type*} {x : α} {l l' d d' : List α} (hd : x ∉ d) (hd' : x ∉ d')
    (h : l ++ x :: d = l' ++ x :: d') : l = l' ∧ d = d' := by
  rcases List.append_eq_append_iff.mp h with ⟨as, rfl, has⟩ | ⟨bs, rfl, hbs⟩
  · cases as with
    | nil => simpa using has
    | cons y as =>
      have tail : d = as ++ x :: d' := (List.cons.inj has).2
      exact absurd (tail ▸ List.mem_append_right as List.mem_cons_self) hd
  · cases bs with
    | nil => simpa using hbs.symm
    | cons y bs =>
      have tail : d' = bs ++ x :: d := (List.cons.inj hbs).2
      exact absurd (tail ▸ List.mem_append_right bs List.mem_cons_self) hd'

/-- A name and the numeral after its last underscore. -/
theorem numbered_inj {s s' d d' : String} (hd : IsNumeral d) (hd' : IsNumeral d')
    (h : s ++ "_" ++ d = s' ++ "_" ++ d') : s = s' ∧ d = d' := by
  have lists := congrArg String.toList h
  simp only [String.toList_append, List.append_assoc] at lists
  have parts := append_cons_inj hd.underscore_not_mem hd'.underscore_not_mem lists
  exact ⟨String.toList_inj.mp parts.1, String.toList_inj.mp parts.2⟩

namespace Graph

variable {g : Graph} {u v w : String} {i j : Nat}

/-- A name, or the name of a clone of it, or of a clone of a clone, and so on. -/
inductive Descends (base : String) : String → Prop where
  | self : Descends base base
  | number {name digits : String} (h : Descends base name) (hdigits : IsNumeral digits) :
    Descends base (name ++ "_" ++ digits)

/-- No node is named like a clone of another node. -/
def NamesApart (g : Graph) : Prop := ∀ u ∈ g.ids, ∀ v ∈ g.ids, Descends u v → v = u

/-- **Clone names.**  The original and the number can be read off. -/
theorem cloneId_inj : cloneId u i = cloneId v j ↔ u = v ∧ i = j := by
  constructor
  · intro h
    obtain ⟨names, digits⟩ := numbered_inj (isNumeral_toString i) (isNumeral_toString j) h
    exact ⟨names, toString_nat_injective digits⟩
  · rintro ⟨rfl, rfl⟩
    rfl

theorem Descends.cloneId (h : Descends u v) (i : Nat) : Descends u (cloneId v i) :=
  .number h (isNumeral_toString i)

theorem descends_cloneId (u : String) (i : Nat) : Descends u (cloneId u i) :=
  Descends.self.cloneId i

/-- A clone descends from itself and from what its original descends from. -/
theorem Descends.of_cloneId (h : Descends u (Graph.cloneId v i)) :
    u = Graph.cloneId v i ∨ Descends u v := by
  generalize hname : Graph.cloneId v i = name at h
  cases h with
  | self => exact Or.inl rfl
  | number h hdigits =>
    exact Or.inr ((numbered_inj (isNumeral_toString i) hdigits hname).1 ▸ h)

theorem Descends.trans (huv : Descends u v) (hvw : Descends v w) : Descends u w := by
  induction hvw with
  | self => exact huv
  | number _ hdigits ih => exact .number ih hdigits

/-- Names grow from clone to clone. -/
theorem Descends.eq_or_length_lt (h : Descends u v) : v = u ∨ u.length < v.length := by
  induction h with
  | self => exact Or.inl rfl
  | @number name digits _ _ ih =>
    right
    have underscore : ("_" : String).length = 1 := by decide
    rw [String.length_append, String.length_append, underscore]
    rcases ih with rfl | ih <;> omega

/-- A name begins with every name it descends from. -/
theorem Descends.toList_prefix (h : Descends u v) : u.toList <+: v.toList := by
  induction h with
  | self => exact List.prefix_rfl
  | number _ _ ih =>
    rw [String.toList_append, String.toList_append, List.append_assoc]
    exact ih.trans (List.prefix_append _ _)

/-- Two names do not descend from each other. -/
theorem Descends.antisymm (huv : Descends u v) (hvu : Descends v u) : v = u := by
  rcases huv.eq_or_length_lt with h | h
  · exact h
  · rcases hvu.eq_or_length_lt with h' | h'
    · exact h'.symm
    · omega

/-- What a name descends from is a chain. -/
theorem Descends.total (hu : Descends u w) (hv : Descends v w) : Descends u v ∨ Descends v u := by
  induction hu with
  | self => exact Or.inr hv
  | @number name digits hu hdigits ih =>
    -- if both names are shorter than `w`, they end before its last group
    generalize hname : name ++ "_" ++ digits = w at hv
    cases hv with
    | self => exact Or.inl (hname ▸ .number hu hdigits)
    | number hv hdigits' => exact ih ((numbered_inj hdigits hdigits' hname).1 ▸ hv)

/-- No name is the name of its own clone. -/
theorem cloneId_ne (u : String) (i : Nat) : cloneId u i ≠ u := by
  intro h
  have length := congrArg String.length h
  have underscore : ("_" : String).length = 1 := by decide
  rw [cloneId, String.length_append, String.length_append, underscore] at length
  omega

/-- No node of such a graph is named like a clone of one of its nodes. -/
theorem NamesApart.cloneId_not_mem (h : g.NamesApart) (hu : u ∈ g.ids) (i : Nat) :
    cloneId u i ∉ g.ids :=
  fun hmem => cloneId_ne u i (h u hu _ hmem (descends_cloneId u i))

theorem Descends.eq_of_underscore_not_mem (h : Descends u v) (hv : '_' ∉ v.toList) : v = u := by
  cases h with
  | self => rfl
  | number => simp at hv

/-- Names without underscores are apart. -/
theorem namesApart_of_underscore_not_mem (h : ∀ v ∈ g.ids, '_' ∉ v.toList) : g.NamesApart :=
  fun _ _ v hv hdesc => hdesc.eq_of_underscore_not_mem (h v hv)

end Graph

end Drafting
