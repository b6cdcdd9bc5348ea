import Mathlib.Logic.Relation
import Mathlib.Tactic

namespace Drafting

open Relation

/-!
# Paths and separating points

A path is a chain of steps of a relation `R`, that is, `ReflTransGen R`.  This file is about the
paths that avoid a point `v`:

* `Avoiding R v` — the steps of `R` that neither start nor end at `v`;
* `Separates R v` — two points other than `v` are joined by a path, but by none that avoids `v`;
* `path_cases` — a path either avoids `v`, or it can be cut into a part that leads to a neighbour
  of `v` and a part that comes from one, both of which avoid `v`;
* `not_separates` — hence `v` separates nothing if its neighbours are joined by paths that
  avoid it.
-/

variable {α : Type*} {R : α → α → Prop} {v : α}

/-- The steps of `R` that neither start nor end at `v`. -/
def Avoiding (R : α → α → Prop) (v x y : α) : Prop := R x y ∧ x ≠ v ∧ y ≠ v

/-- Two points other than `v` are joined by a path, but by none that avoids `v`. -/
def Separates (R : α → α → Prop) (v : α) : Prop :=
  ∃ u w, u ≠ v ∧ w ≠ v ∧ ReflTransGen R u w ∧ ¬ ReflTransGen (Avoiding R v) u w

instance [Std.Symm R] : Std.Symm (Avoiding R v) where
  symm _ _ h := ⟨symm h.1, h.2.2, h.2.1⟩

/-- A path that avoids `v` is a path. -/
theorem path_of_avoiding {u w : α} (h : ReflTransGen (Avoiding R v) u w) : ReflTransGen R u w :=
  ReflTransGen.mono (fun _ _ step => step.1) _ _ h

/-- A path leads to its end without `v`, or to a neighbour of `v`. -/
theorem path_prefix {u w : α} (h : ReflTransGen R u w) (hu : u ≠ v) :
    (w ≠ v ∧ ReflTransGen (Avoiding R v) u w) ∨
      ∃ x, R x v ∧ x ≠ v ∧ ReflTransGen (Avoiding R v) u x := by
  induction h with
  | refl => exact Or.inl ⟨hu, .refl⟩
  | @tail b c _ step ih =>
    rcases ih with ⟨hb, path⟩ | found
    · -- the next step may be the one that comes to `v`
      by_cases hc : c = v
      · subst hc
        exact Or.inr ⟨b, step, hb, path⟩
      · exact Or.inl ⟨hc, path.tail ⟨step, hb, hc⟩⟩
    · exact Or.inr found

/-- **Cutting a path at `v`.**  A path avoids `v`, or it leads to a neighbour of `v` and comes
    from one. -/
theorem path_cases {u w : α} (h : ReflTransGen R u w) (hu : u ≠ v) (hw : w ≠ v) :
    ReflTransGen (Avoiding R v) u w ∨
      ∃ x y, R x v ∧ x ≠ v ∧ R v y ∧ y ≠ v ∧
        ReflTransGen (Avoiding R v) u x ∧ ReflTransGen (Avoiding R v) y w := by
  induction h with
  | refl => exact Or.inl .refl
  | @tail b c path step ih =>
    by_cases hb : b = v
    · -- the last visit of `v` is right before the end
      subst hb
      rcases path_prefix path hu with ⟨hne, -⟩ | ⟨x, hx, hxv, hux⟩
      · exact absurd rfl hne
      · exact Or.inr ⟨x, c, hx, hxv, step, hw, hux, .refl⟩
    · rcases ih hb with avoided | ⟨x, y, hx, hxv, hy, hyv, hux, hyb⟩
      · exact Or.inl (avoided.tail ⟨step, hb, hw⟩)
      · exact Or.inr ⟨x, y, hx, hxv, hy, hyv, hux, hyb.tail ⟨step, hb, hw⟩⟩

/-- A point whose neighbours are joined without it separates nothing. -/
theorem not_separates
    (h : ∀ x y, R x v → x ≠ v → R v y → y ≠ v → ReflTransGen (Avoiding R v) x y) :
    ¬ Separates R v := by
  rintro ⟨u, w, hu, hw, path, hnot⟩
  rcases path_cases path hu hw with avoided | ⟨x, y, hx, hxv, hy, hyv, hux, hyw⟩
  · exact hnot avoided
  · exact hnot (hux.trans ((h x y hx hxv hy hyv).trans hyw))

/-- Paths stay in a set that no step leaves. -/
theorem mem_of_path {S : α → Prop} (hS : ∀ x y, S x → R x y → S y) {u w : α}
    (h : ReflTransGen R u w) (hu : S u) : S w := by
  induction h with
  | refl => exact hu
  | tail _ step ih => exact hS _ _ ih step

/-! ### Along an embedding -/

section Embedding

variable {β : Type*} {Q : β → β → Prop} {f : α → β}

/-- Paths go along a map that keeps steps, and come back if every step from an image leads to
    an image. -/
theorem path_map_iff (hf : Function.Injective f) (hstep : ∀ x y, Q (f x) (f y) ↔ R x y)
    (himage : ∀ x b, Q (f x) b → ∃ y, f y = b) {u w : α} :
    ReflTransGen Q (f u) (f w) ↔ ReflTransGen R u w := by
  constructor
  · intro h
    -- all points of the path are images
    obtain ⟨y, hy, path⟩ : ∃ y, f y = f w ∧ ReflTransGen R u y := by
      refine mem_of_path (S := fun b => ∃ y, f y = b ∧ ReflTransGen R u y) ?_ h ⟨u, rfl, .refl⟩
      rintro _ b ⟨y, rfl, path⟩ step
      obtain ⟨z, rfl⟩ := himage y b step
      exact ⟨z, rfl, path.tail ((hstep y z).mp step)⟩
    exact hf hy ▸ path
  · exact fun h => h.lift f fun x y step => (hstep x y).mpr step

/-- Separation goes along such a map, too. -/
theorem separates_map_iff (hf : Function.Injective f) (hstep : ∀ x y, Q (f x) (f y) ↔ R x y)
    (himage : ∀ x b, Q (f x) b → ∃ y, f y = b) (houtside : ∀ b, (∀ x, f x ≠ b) → ∀ c, ¬ Q b c) :
    Separates Q (f v) ↔ Separates R v := by
  have avoid : ∀ u w, ReflTransGen (Avoiding Q (f v)) (f u) (f w)
      ↔ ReflTransGen (Avoiding R v) u w := by
    intro u w
    refine path_map_iff hf (fun x y => ?_) fun x b step => himage x b step.1
    simp only [Avoiding, hstep, hf.ne_iff]
  constructor
  · rintro ⟨b, c, hb, hc, path, hnot⟩
    -- a path that is not trivial starts at an image, and so it ends at one
    obtain ⟨u, rfl⟩ : ∃ u, f u = b := by
      by_contra hno
      rcases path.cases_head with rfl | ⟨d, step, -⟩
      · exact hnot .refl
      · exact houtside b (fun x hx => hno ⟨x, hx⟩) d step
    obtain ⟨w, rfl⟩ : ∃ w, f w = c := by
      refine mem_of_path (S := fun b => ∃ y, f y = b) ?_ path ⟨u, rfl⟩
      rintro _ d ⟨y, rfl⟩ step
      exact himage y d step
    exact ⟨u, w, fun h => hb (h ▸ rfl), fun h => hc (h ▸ rfl),
      (path_map_iff hf hstep himage).mp path, fun h => hnot ((avoid u w).mpr h)⟩
  · rintro ⟨u, w, hu, hw, path, hnot⟩
    exact ⟨f u, f w, hf.ne hu, hf.ne hw, (path_map_iff hf hstep himage).mpr path,
      fun h => hnot ((avoid u w).mp h)⟩

end Embedding

end Drafting
