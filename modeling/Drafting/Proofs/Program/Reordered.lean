import Drafting.Proofs.Program.Paired

namespace Drafting

/-!
# Variables in another order

A formula may be compiled for two lists of variables, in different orders, each with variables that
the formula does not mention.  Where its names stand for variables with the same values, both
programs come to the same value, with the same slope along every variable of both lists.

* `Shared` — the places of a variable in two lists;
* `Dual.SameAlong` — duals of the two runs, and `Dual.congruence_sameAlong` — the rules of
  differentiation keep them alike;
* `Scope.instructions_agree` — faults do not depend on the order of the variables;
* `Scope.compile_reordered` — compiling and running.
-/

/-- Variable `i` of one list and variable `j` of the other are what a name stands for. -/
def Shared (names names' : List String) (i j : Nat) : Prop :=
  ∃ key, names.findIdx? (Text.lowercase · == key) = some i ∧
    names'.findIdx? (Text.lowercase · == key) = some j

/-- What a name stands for is in the list. -/
theorem lt_of_findIdx? {names : List String} {key : String} {i : Nat}
    (h : names.findIdx? (Text.lowercase · == key) = some i) : i < names.length :=
  (List.findIdx?_eq_some_iff_getElem.mp h).1

/-- Two names that stand for one variable are equal. -/
theorem key_eq_of_findIdx? {names : List String} {key key' : String} {i : Nat}
    (h : names.findIdx? (Text.lowercase · == key) = some i)
    (h' : names.findIdx? (Text.lowercase · == key') = some i) : key = key' := by
  obtain ⟨_, hkey, -⟩ := List.findIdx?_eq_some_iff_getElem.mp h
  obtain ⟨_, hkey', -⟩ := List.findIdx?_eq_some_iff_getElem.mp h'
  exact (beq_iff_eq.mp hkey).symm.trans (beq_iff_eq.mp hkey')

namespace Shared

variable {names names' : List String} {i i' j j' : Nat}

theorem lt (h : Shared names names' i j) : i < names.length ∧ j < names'.length := by
  obtain ⟨key, hi, hj⟩ := h
  exact ⟨lt_of_findIdx? hi, lt_of_findIdx? hj⟩

/-- A variable has one place in each list. -/
theorem eq_iff (h : Shared names names' i j) (h' : Shared names names' i' j') :
    i = i' ↔ j = j' := by
  obtain ⟨key, hi, hj⟩ := h
  obtain ⟨key', hi', hj'⟩ := h'
  constructor
  · rintro rfl
    obtain rfl := key_eq_of_findIdx? hi hi'
    exact Option.some.inj (hj.symm.trans hj')
  · rintro rfl
    obtain rfl := key_eq_of_findIdx? hj hj'
    exact Option.some.inj (hi.symm.trans hi')

end Shared

/-! ### Duals for two lists of variables -/

variable {F : Type}

namespace Dual

/-- The same value, and the same slope along the variables that both lists have. -/
structure SameAlong (names names' : List String) (d d' : Dual F) : Prop where
  length : d.partials.length = names.length
  length' : d'.partials.length = names'.length
  value : d.value = d'.value
  slope : ∀ i j, Shared names names' i j → d.partials[i]? = d'.partials[j]?

variable [Scalar F]

theorem getElem?_seed (x : F) (i : Nat) {k n : Nat} (h : k < n) :
    (seed x i n).partials[k]? = some (if k = i then Scalar.one else Scalar.zero) := by
  simp [seed, h]

variable {names names' : List String}

/-- A variable of both lists. -/
theorem sameAlong_seed {i j : Nat} (h : Shared names names' i j) (x : F) :
    SameAlong names names' (seed x i names.length) (seed x j names'.length) where
  length := length_seed x i names.length
  length' := length_seed x j names'.length
  value := rfl
  slope := by
    intro k l hkl
    rw [getElem?_seed x i hkl.lt.1, getElem?_seed x j hkl.lt.2]
    simp only [hkl.eq_iff h]

/-- **The rules of differentiation** work on one slope at a time. -/
theorem congruence_sameAlong (names names' : List String) :
    Congruence names.length names'.length (SameAlong (F := F) names names') where
  width h := ⟨h.length, h.length'⟩
  constant x := {
    length := length_constant x names.length
    length' := length_constant x names'.length
    value := rfl
    slope := by
      intro i j h
      rw [constant, constant, List.getElem?_replicate_of_lt h.lt.1,
        List.getElem?_replicate_of_lt h.lt.2] }
  scale := by
    intro d d' f df h
    exact {
      length := by simpa [scale] using h.length
      length' := by simpa [scale] using h.length'
      value := congrArg f h.value
      slope := by
        intro i j hij
        simp only [scale, List.getElem?_map, h.slope i j hij, h.value] }
  zip := by
    intro a a' b b' f df ha hb
    exact {
      length := by simp [zip, ha.length, hb.length]
      length' := by simp [zip, ha.length', hb.length']
      value := congrArg₂ f ha.value hb.value
      slope := by
        intro i j hij
        simp only [zip, List.getElem?_zipWith, ha.slope i j hij, hb.slope i j hij, ha.value,
          hb.value] }
  revalue := by
    intro d d' f h
    exact ⟨h.length, h.length', congrArg f h.value, h.slope⟩

end Dual

namespace Scope

/-! ### Faults of formulas -/

/-- **Faults do not depend on the order of the variables**: only on which names are known. -/
theorem instructions_agree {s s' : Scope} {e : Formula F}
    (h : ∀ name, Formula.Part (.symbol name) e →
      (s.index? name).isSome = (s'.index? name).isSome) :
    AgreeUpTo (fun _ _ => True) (s.instructions e) (s'.instructions e) := by
  induction e using Formula.induction with
  | number x => exact .ok trivial
  | symbol name =>
    have known := h name .refl
    rw [instructions, instructions]
    cases hi : s.index? name <;> cases hj : s'.index? name
    · exact .error _
    · simp [hi, hj] at known
    · simp [hi, hj] at known
    · exact .ok trivial
  | binary op l r ihl ihr =>
    rw [instructions, instructions]
    refine (ihl fun name hname => h name (.left hname)).bind fun _ _ _ => ?_
    refine (ihr fun name hname => h name (.right hname)).bind fun _ _ _ => ?_
    exact .ok trivial
  | call name args ih =>
    -- the arguments one after the other, each with the names it contains
    have arguments : AgreeUpTo (fun _ _ => True) (s.argumentInstructions args)
        (s'.argumentInstructions args) := by
      have known : ∀ a ∈ args, ∀ name, Formula.Part (.symbol name) a →
          (s.index? name).isSome = (s'.index? name).isSome :=
        fun a ha name hname => h name (.argument ha hname)
      clear h
      induction args with
      | nil => exact .ok trivial
      | cons a rest ihrest =>
        obtain ⟨knownA, knownRest⟩ := List.forall_mem_cons.mp known
        obtain ⟨ihA, ihRest⟩ := List.forall_mem_cons.mp ih
        rw [argumentInstructions, argumentInstructions]
        refine (ihA knownA).bind fun _ _ _ => ?_
        refine (ihrest ihRest knownRest).bind fun _ _ _ => ?_
        exact .ok trivial
    rw [instructions, instructions]
    cases Function.ofName? name with
    | none => exact .error _
    | some f =>
      dsimp only
      split
      · exact arguments.bind fun _ _ _ => .ok trivial
      · exact .error _

/-- In scopes that know the same names a formula compiles in both, or fails in both alike. -/
theorem compile_agree {s s' : Scope} {e : Formula F}
    (h : ∀ name, Formula.Part (.symbol name) e →
      (s.index? name).isSome = (s'.index? name).isSome) :
    AgreeUpTo (fun p p' => s.compile e = .ok p ∧ s'.compile e = .ok p') (s.compile e)
      (s'.compile e) := by
  have agree : AgreeUpTo (fun _ _ => True) (s.compile e) (s'.compile e) :=
    (instructions_agree h).bind fun _ _ _ => .ok trivial
  generalize s.compile e = outcome, s'.compile e = outcome' at agree ⊢
  cases agree with
  | error fault => exact .error fault
  | ok => exact .ok ⟨rfl, rfl⟩

/-! ### Compiling and running -/

variable [Scalar F]

/-- **Formulas do not depend on the order of the variables**, nor on variables that they do not
    mention.  If each name of a formula stands for a variable of the same value in both lists,
    compiling and running fails alike for both or comes to the same value; and the slopes along
    every variable of both lists are the same. -/
theorem compile_reordered (e : Formula F) (names names' : List String) (values values' : List F)
    (hlen : values.length = names.length) (hlen' : values'.length = names'.length)
    (hnames : ∀ name, Formula.Part (.symbol name) e → ∃ i j x,
      names.findIdx? (Text.lowercase · == name) = some i ∧
      names'.findIdx? (Text.lowercase · == name) = some j ∧
      values[i]? = some x ∧ values'[j]? = some x) :
    AgreeUpTo
      (fun p p' => AgreeUpTo
        (fun d d' => d.value = d'.value ∧
          ∀ key i j, names.findIdx? (Text.lowercase · == key) = some i →
            names'.findIdx? (Text.lowercase · == key) = some j →
            ∃ slope, d.partials[i]? = some slope ∧ d'.partials[j]? = some slope)
        (p.eval values) (p'.eval values'))
      ((ofNames names).compile e) ((ofNames names').compile e) := by
  have known : ∀ name, Formula.Part (.symbol name) e →
      ((ofNames names).index? name).isSome = ((ofNames names').index? name).isSome := by
    intro name hname
    obtain ⟨i, j, x, hi, hj, -⟩ := hnames name hname
    rw [index?_ofNames, index?_ofNames, hi, hj]
    rfl
  have paired : e.NamesPaired (Dual.SameAlong names names') names names' values values' := by
    intro name hname
    obtain ⟨i, j, x, hi, hj, hx, hx'⟩ := hnames name hname
    simp only [Formula.interpret, hi, hj, hx, hx']
    rw [hlen, hlen']
    exact .ok (.dual (Dual.sameAlong_seed ⟨name, hi, hj⟩ x))
  refine (compile_agree known).imp ?_
  rintro p p' ⟨hp, hp'⟩
  refine (eval_paired (Dual.congruence_sameAlong names names') hp hp' hlen hlen' paired).imp
    fun d d' same => ⟨same.value, fun key i j hi hj => ?_⟩
  -- the slope is there, since the dual has one for each variable
  have bound : i < d.partials.length := same.length ▸ lt_of_findIdx? hi
  have slope := List.getElem?_eq_getElem bound
  exact ⟨_, slope, (same.slope i j ⟨key, hi, hj⟩).symm.trans slope⟩

/-- The formula `x ^ 2 / y`. -/
def squareOver : Formula Float :=
  .binary .div (.binary .pow (.symbol "x") (.number 2)) (.symbol "y")

/-- The second variable of the first list is hidden behind the first one, and the lists have no
    order in common. -/
theorem compile_reordered_squareOver :
    ∃ p p' : Program Float, (ofNames ["X", "x", "Y"]).compile squareOver = .ok p ∧
      (ofNames ["z", "y", "x"]).compile squareOver = .ok p' ∧
      AgreeUpTo
        (fun d d' => d.value = d'.value ∧
          (∃ slope, d.partials[0]? = some slope ∧ d'.partials[2]? = some slope) ∧
          ∃ slope, d.partials[2]? = some slope ∧ d'.partials[1]? = some slope)
        (p.eval [2, 3, 4]) (p'.eval [7, 4, 2]) := by
  let p : Program Float := ⟨[.load 0, .constant 2, .binary .pow, .load 2, .binary .div], 3⟩
  let p' : Program Float := ⟨[.load 2, .constant 2, .binary .pow, .load 1, .binary .div], 3⟩
  have hp : (ofNames ["X", "x", "Y"]).compile squareOver = .ok p := rfl
  have hp' : (ofNames ["z", "y", "x"]).compile squareOver = .ok p' := rfl
  have agree := compile_reordered squareOver ["X", "x", "Y"] ["z", "y", "x"] [2, 3, 4] [7, 4, 2]
    rfl rfl fun name hname => by
      simp only [squareOver, Formula.part_binary, Formula.part_symbol, Formula.part_number] at hname
      rcases hname with h | (h | h | h) | h
      case inr.inl.inr.inl =>
        cases h
        exact ⟨0, 2, 2, rfl, rfl, rfl, rfl⟩
      case inr.inr =>
        cases h
        exact ⟨2, 1, 4, rfl, rfl, rfl, rfl⟩
      all_goals cases h
  rw [hp, hp'] at agree
  obtain ⟨_, same, results⟩ := AgreeUpTo.ok_left.mp agree
  obtain rfl := Except.ok.inj same
  refine ⟨p, p', hp, hp', results.imp ?_⟩
  rintro d d' ⟨value, slopes⟩
  exact ⟨value, slopes "x" 0 2 rfl rfl, slopes "y" 2 1 rfl rfl⟩

end Scope

end Drafting
