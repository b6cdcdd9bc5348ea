import Mathlib.Data.List.Forall2

namespace Drafting

/-!
# Steps that succeeded or failed

Where a composed computation has a result, each of its steps has one; where it fails, it fails as
the first step that fails.
-/

variable {ε ε' α β : Type} {r : Except ε α}

theorem bind_eq_ok {f : α → Except ε β} {y : β} :
    (r >>= f) = .ok y ↔ ∃ x, r = .ok x ∧ f x = .ok y := by
  cases r <;> simp [bind, Except.bind]

theorem map_eq_ok {f : α → β} {y : β} : r.map f = .ok y ↔ ∃ x, r = .ok x ∧ f x = y := by
  cases r <;> simp [Except.map]

theorem mapError_eq_ok {f : ε → ε'} {x : α} : r.mapError f = .ok x ↔ r = .ok x := by
  cases r <;> simp [Except.mapError]

theorem toOption_eq_some {x : α} : r.toOption = some x ↔ r = .ok x := by
  cases r <;> simp [Except.toOption]

/-- Where a function succeeds on a list, it succeeds on each element. -/
theorem forall₂_of_mapM_eq_ok {f : α → Except ε β} {xs : List α} {ys : List β}
    (h : xs.mapM f = .ok ys) : List.Forall₂ (fun x y => f x = .ok y) xs ys := by
  induction xs generalizing ys with
  | nil =>
    cases h
    exact .nil
  | cons x rest ih =>
    rw [List.mapM_cons] at h
    obtain ⟨y, hy, h⟩ := bind_eq_ok.mp h
    obtain ⟨zs, hzs, h⟩ := bind_eq_ok.mp h
    cases h
    exact .cons hy (ih hzs)

/-- A function that succeeds on each element of a list succeeds on the list. -/
theorem mapM_eq_ok_of_forall₂ {f : α → Except ε β} {xs : List α} {ys : List β}
    (h : List.Forall₂ (fun x y => f x = .ok y) xs ys) : xs.mapM f = .ok ys := by
  induction h with
  | nil => rfl
  | cons hfirst _ ih =>
    rw [List.mapM_cons, hfirst, ih]
    rfl

/-- Where a function succeeds on each element of a list, it succeeds on the list.  What the results
    are related to may be found by way of another list. -/
theorem exists_mapM_eq_ok {γ δ : Type} {f : α → Except ε β} {R : α → δ → Prop} {S : δ → γ → Prop}
    {T : β → γ → Prop} {xs : List α} {us : List δ} {zs : List γ} (hR : List.Forall₂ R xs us)
    (hS : List.Forall₂ S us zs) (hf : ∀ x u z, R x u → S u z → ∃ y, f x = .ok y ∧ T y z) :
    ∃ ys, xs.mapM f = .ok ys ∧ List.Forall₂ T ys zs := by
  induction hR generalizing zs with
  | nil =>
    cases hS
    exact ⟨[], rfl, .nil⟩
  | cons hfirst _ ih =>
    cases hS with
    | cons hsecond hS =>
      obtain ⟨y, hy, hT⟩ := hf _ _ _ hfirst hsecond
      obtain ⟨ys, hys, hrest⟩ := ih hS
      exact ⟨y :: ys, by rw [List.mapM_cons, hy, hys]; rfl, .cons hT hrest⟩

/-- Each result comes from an element. -/
theorem exists_of_mem_mapM {f : α → Except ε β} {xs : List α} {ys : List β} {y : β}
    (h : xs.mapM f = .ok ys) (hy : y ∈ ys) : ∃ x ∈ xs, f x = .ok y := by
  obtain ⟨i, hi, rfl⟩ := List.getElem_of_mem hy
  obtain ⟨length, each⟩ := List.forall₂_iff_get.mp (forall₂_of_mapM_eq_ok h)
  have bound : i < xs.length := length ▸ hi
  exact ⟨xs[i], List.getElem_mem bound, each i bound hi⟩

/-- What each step of a fold keeps, the fold keeps. -/
theorem foldlM_keeps {P : β → Prop} {f : β → α → Except ε β} {xs : List α} {y z : β}
    (hstep : ∀ x ∈ xs, ∀ y z, P y → f y x = .ok z → P z) (hy : P y) (h : xs.foldlM f y = .ok z) :
    P z := by
  induction xs generalizing y with
  | nil =>
    obtain rfl := Except.ok.inj h
    exact hy
  | cons x rest ih =>
    rw [List.foldlM_cons] at h
    obtain ⟨next, hnext, h⟩ := bind_eq_ok.mp h
    have first := hstep x List.mem_cons_self y next hy hnext
    exact ih (fun x hx => hstep x (List.mem_cons_of_mem _ hx)) first h

/-! ### Failures -/

theorem bind_eq_error {f : α → Except ε β} {e : ε} :
    (r >>= f) = .error e ↔ r = .error e ∨ ∃ x, r = .ok x ∧ f x = .error e := by
  cases r <;> simp [bind, Except.bind]

theorem mapError_eq_error {f : ε → ε'} {e : ε'} :
    r.mapError f = .error e ↔ ∃ fault, r = .error fault ∧ f fault = e := by
  cases r <;> simp [Except.mapError]

theorem isOk_or_error (r : Except ε α) : (∃ x, r = .ok x) ∨ ∃ e, r = .error e := by
  cases r with
  | ok x => exact .inl ⟨x, rfl⟩
  | error e => exact .inr ⟨e, rfl⟩

/-- A function fails on a list as on the first element on which it fails. -/
theorem mapM_eq_error {f : α → Except ε β} {xs : List α} {e : ε} :
    xs.mapM f = .error e ↔ ∃ before x after, xs = before ++ x :: after ∧
      (∀ y ∈ before, ∃ z, f y = .ok z) ∧ f x = .error e := by
  induction xs with
  | nil => simp [pure, Except.pure]
  | cons first rest ih =>
    rw [List.mapM_cons, bind_eq_error]
    constructor
    · rintro (hfirst | ⟨z, hfirst, hrest⟩)
      · exact ⟨[], first, rest, rfl, nofun, hfirst⟩
      · rcases bind_eq_error.mp hrest with hrest | ⟨zs, -, hlast⟩
        · obtain ⟨before, x, after, rfl, hbefore, hx⟩ := ih.mp hrest
          exact ⟨first :: before, x, after, rfl,
            List.forall_mem_cons.mpr ⟨⟨z, hfirst⟩, hbefore⟩, hx⟩
        · cases hlast
    · rintro ⟨_ | ⟨_, before⟩, x, after, heq, hbefore, hx⟩
      · obtain ⟨rfl, rfl⟩ := List.cons.inj heq
        exact .inl hx
      · obtain ⟨rfl, rfl⟩ := List.cons.inj heq
        obtain ⟨⟨z, hz⟩, hbefore⟩ := List.forall_mem_cons.mp hbefore
        exact .inr ⟨z, hz, bind_eq_error.mpr (.inl (ih.mpr ⟨before, x, after, rfl, hbefore, hx⟩))⟩

/-- A fold fails at the first element at which it fails. -/
theorem foldlM_eq_error {f : β → α → Except ε β} {xs : List α} {y : β} {e : ε} :
    xs.foldlM f y = .error e ↔ ∃ before x after z, xs = before ++ x :: after ∧
      before.foldlM f y = .ok z ∧ f z x = .error e := by
  induction xs generalizing y with
  | nil => simp [pure, Except.pure]
  | cons first rest ih =>
    rw [List.foldlM_cons, bind_eq_error]
    constructor
    · rintro (hfirst | ⟨next, hfirst, hrest⟩)
      · exact ⟨[], first, rest, y, rfl, rfl, hfirst⟩
      · obtain ⟨before, x, after, z, rfl, hbefore, hx⟩ := ih.mp hrest
        exact ⟨first :: before, x, after, z, rfl, bind_eq_ok.mpr ⟨next, hfirst, hbefore⟩, hx⟩
    · rintro ⟨_ | ⟨_, before⟩, x, after, z, heq, hbefore, hx⟩
      · obtain ⟨rfl, rfl⟩ := List.cons.inj heq
        obtain rfl := Except.ok.inj hbefore
        exact .inl hx
      · obtain ⟨rfl, rfl⟩ := List.cons.inj heq
        obtain ⟨next, hfirst, hbefore⟩ := bind_eq_ok.mp hbefore
        exact .inr ⟨next, hfirst, ih.mpr ⟨before, x, after, z, rfl, hbefore, hx⟩⟩

/-! ### Two computations side by side -/

/-- Both computations come to results that are related, or they fail alike. -/
inductive AgreeUpTo (R : α → β → Prop) : Except ε α → Except ε β → Prop where
  | ok {x y} (h : R x y) : AgreeUpTo R (.ok x) (.ok y)
  | error (e) : AgreeUpTo R (.error e) (.error e)

namespace AgreeUpTo

variable {α' β' γ : Type} {R : α → β → Prop} {S : α' → β' → Prop} {r' : Except ε β}

/-- Steps that agree, followed by steps that agree, agree. -/
theorem bind {f : α → Except ε α'} {g : β → Except ε β'} (h : AgreeUpTo R r r')
    (hf : ∀ x y, R x y → AgreeUpTo S (f x) (g y)) : AgreeUpTo S (r >>= f) (r' >>= g) := by
  cases h with
  | ok h => exact hf _ _ h
  | error e => exact .error e

/-- Steps that agree go on to do so when their results are mapped. -/
theorem map {f : α → α'} {g : β → β'} (h : AgreeUpTo R r r') (hf : ∀ x y, R x y → S (f x) (g y)) :
    AgreeUpTo S (r.map f) (r'.map g) := by
  cases h with
  | ok h => exact .ok (hf _ _ h)
  | error e => exact .error e

/-- They go on to do so when errors are mapped. -/
theorem mapError (h : AgreeUpTo R r r') (f : ε → ε') :
    AgreeUpTo R (r.mapError f) (r'.mapError f) := by
  cases h with
  | ok h => exact .ok h
  | error e => exact .error (f e)

/-- To agree with an error is to be the same error. -/
theorem error_left {e : ε} : AgreeUpTo R (.error e) r' ↔ r' = .error e := by
  constructor
  · rintro ⟨⟩
    rfl
  · rintro rfl
    exact .error e

/-- To agree with a result is to have one that is related to it. -/
theorem ok_left {x : α} : AgreeUpTo R (.ok x : Except ε α) r' ↔ ∃ y, r' = .ok y ∧ R x y := by
  constructor
  · rintro ⟨h⟩
    exact ⟨_, rfl, h⟩
  · rintro ⟨y, rfl, h⟩
    exact .ok h

/-- Failures may be compared under other names. -/
theorem of_mapError {f : ε → ε'} (hf : Function.Injective f)
    (h : AgreeUpTo R (r.mapError f) (r'.mapError f)) : AgreeUpTo R r r' := by
  cases r with
  | error e =>
    obtain ⟨e', rfl, he⟩ := mapError_eq_error.mp (error_left.mp h)
    exact hf he ▸ .error e'
  | ok x =>
    obtain ⟨y, hy, hxy⟩ := ok_left.mp h
    exact mapError_eq_ok.mp hy ▸ .ok hxy

/-- Agreement goes on under a weaker relation. -/
theorem imp {R' : α → β → Prop} (h : AgreeUpTo R r r') (hR : ∀ x y, R x y → R' x y) :
    AgreeUpTo R' r r' := by
  cases h with
  | ok h => exact .ok (hR _ _ h)
  | error e => exact .error e

/-- Steps that keep two states related keep them related over a list. -/
theorem foldlM {f : α → γ → Except ε α} {g : β → γ → Except ε β} {zs : List γ} {x : α} {y : β}
    (hstep : ∀ z ∈ zs, ∀ x y, R x y → AgreeUpTo R (f x z) (g y z)) (h : R x y) :
    AgreeUpTo R (zs.foldlM f x) (zs.foldlM g y) := by
  induction zs generalizing x y with
  | nil => exact .ok h
  | cons z rest ih =>
    rw [List.foldlM_cons, List.foldlM_cons]
    refine (hstep z List.mem_cons_self x y h).bind fun x' y' h' => ?_
    exact ih (fun z hz => hstep z (List.mem_cons_of_mem _ hz)) h'

end AgreeUpTo

end Drafting
