import Mathlib
import Drafting.Proofs.Constraint.Coordinates
import Drafting.Proofs.Exact.Plane
import Drafting.Proofs.Exact.Printed
import Drafting.Proofs.Program.Denoted

namespace Drafting

/-!
# Equations of constraints vanish where the constraints hold

Over an ordered field with exact square roots, the equations of a constraint between points have
values, and these are all zero iff the points lie as the constraint says.

* `Constraint.Holds` — what a constraint says about the places of points;
* `Constraint.values` — the values of its equations;
* `Constraint.denotes_terms` — its formulas denote these values;
* `Constraint.values_eq_zero_iff` — which are zero iff the constraint holds;
* `Constraint.equations_vanish_iff` — the same about the texts of its equations.
-/

open Formula Lexer

namespace Constraint

section Values

variable {K : Type} [ExactScalar K] (place : String → K × K)

/-- The distance of two points, as a root. -/
def rootDistance (p q : K × K) : K := Scalar.sqrt ((q.1 - p.1) ^ 2 + (q.2 - p.2) ^ 2)

/-- The values of the equations of a constraint. -/
def values : Constraint K → List K
  | .distance a b d => [d - rootDistance (place a) (place b)]
  | .pointOnLine p l0 l1 d =>
    [Scalar.sqrt (crossProduct (place l1 - place l0) (place p - place l0) ^ 2) /
      rootDistance (place l0) (place l1) - d]
  | .equalLength a0 a1 b0 b1 =>
    [rootDistance (place b0) (place b1) - rootDistance (place a0) (place a1)]
  | .parallel a0 a1 b0 b1 => [-crossProduct (place a1 - place a0) (place b1 - place b0)]
  | .coincident a b => [(place a).1 - (place b).1, (place a).2 - (place b).2]
  | .horizontal a b => [(place a).2 - (place b).2]
  | .vertical a b => [(place a).1 - (place b).1]
  | .fix p x y => [x - (place p).1, y - (place p).2]

/-- The names of a point's coordinates denote its place. -/
def Locates (a : Keyed K) (id : String) : Prop :=
  Denotes a (xTerm id) (place id).1 ∧ Denotes a (yTerm id) (place id).2

/-! ### What the formulas denote -/

variable {place} {a : Keyed K} {p q : String}

/-- The cross term of four points denotes the cross product of two of their differences, negated. -/
theorem Locates.cross {a0 a1 b0 b1 : String} (ha0 : Locates place a a0) (ha1 : Locates place a a1)
    (hb0 : Locates place a b0) (hb1 : Locates place a b1) :
    Denotes a (crossTerm a0 a1 b0 b1)
      (-crossProduct (place a1 - place a0) (place b1 - place b0)) := by
  refine (((ha0.1.sub ha1.1).mul (hb1.2.sub hb0.2)).add
    ((ha1.2.sub ha0.2).mul (hb1.1.sub hb0.1))).congr ?_
  simp only [crossProduct, Prod.fst_sub, Prod.snd_sub]
  ring

variable [ExactPowers K]

theorem Locates.length (hp : Locates place a p) (hq : Locates place a q) :
    Denotes a (lengthTerm p q) (rootDistance (place p) (place q)) :=
  (((hq.1.sub hp.1).pow (by decide)).add ((hq.2.sub hp.2).pow (by decide))).call .sqrt

/-- Twice the area of a triangle is denoted by the root of the square of a cross product. -/
theorem Locates.doubleArea {l0 l1 : String} (hp : Locates place a p) (h0 : Locates place a l0)
    (h1 : Locates place a l1) :
    Denotes a (doubleAreaTerm p l0 l1)
      (Scalar.sqrt (crossProduct (place l1 - place l0) (place p - place l0) ^ 2)) := by
  have area := ((((h1.2.sub h0.2).mul hp.1).sub ((h1.1.sub h0.1).mul hp.2)).add
    (h1.1.mul h0.2)).sub (h1.2.mul h0.1)
  -- the sign goes away in the square
  have square := (area.pow (n := 2) (by decide)).congr
    (y := crossProduct (place l1 - place l0) (place p - place l0) ^ 2) (by
      simp only [crossProduct, Prod.fst_sub, Prod.snd_sub]
      ring)
  exact square.call .sqrt

end Values

variable {K : Type} [ExactScalar K] [LinearOrder K] {place : String → K × K} {a : Keyed K}
  {c : Constraint K}

/-- A number denotes itself, whatever its sign. -/
theorem denotes_literal [IsStrictOrderedRing K] [ExactOrder K] (x : K) :
    Denotes a (literalTerm x) x := by
  rw [literalTerm, ExactOrder.abs_eq]
  split
  · next h =>
    rw [ExactOrder.less_iff, ExactScalar.zero_eq] at h
    refine ((denotes_number |x|).call .neg).congr ?_
    rw [Function.real, abs_of_neg h, neg_neg]
  · next h =>
    rw [ExactOrder.less_iff, ExactScalar.zero_eq, not_lt] at h
    exact (denotes_number |x|).congr (abs_of_nonneg h)

/-! ### What constraints say -/

/-- The points lie as the constraint says. -/
def Holds (place : String → K × K) : Constraint K → Prop
  | .distance a b d => IsDistance (place a) (place b) d
  | .pointOnLine p l0 l1 d => IsLineDistance (place p) (place l0) (place l1) d
  | .equalLength a0 a1 b0 b1 =>
    ∃ d, IsDistance (place a0) (place a1) d ∧ IsDistance (place b0) (place b1) d
  | .parallel a0 a1 b0 b1 => crossProduct (place a1 - place a0) (place b1 - place b0) = 0
  | .coincident a b => place a = place b
  | .horizontal a b => (place a).2 = (place b).2
  | .vertical a b => (place a).1 = (place b).1
  | .fix p x y => place p = (x, y)

variable [IsStrictOrderedRing K] [ExactRoots K]

/-- **The values are zero iff the constraint holds.** -/
theorem values_eq_zero_iff
    (hline : ∀ p l0 l1 d, c = .pointOnLine p l0 l1 d → place l0 ≠ place l1) :
    (∀ x ∈ c.values place, x = 0) ↔ c.Holds place := by
  cases c with
  | distance a b d =>
    rw [values, List.forall_mem_singleton, sub_eq_zero, Holds, isDistance_iff, eq_comm]
    rfl
  | pointOnLine p l0 l1 d =>
    rw [values, List.forall_mem_singleton, sub_eq_zero, Holds,
      isLineDistance_iff (hline p l0 l1 d rfl)]
    rfl
  | equalLength a0 a1 b0 b1 =>
    rw [values, List.forall_mem_singleton, sub_eq_zero, Holds]
    simp only [isDistance_iff, exists_eq_left']
    rfl
  | parallel a0 a1 b0 b1 => rw [values, List.forall_mem_singleton, neg_eq_zero, Holds]
  | coincident a b => simp [values, Holds, sub_eq_zero, Prod.ext_iff]
  | horizontal a b | vertical a b => rw [values, List.forall_mem_singleton, sub_eq_zero, Holds]
  | fix p x y => simp [values, Holds, sub_eq_zero, Prod.ext_iff, eq_comm]

/-- **The formulas of a constraint denote its values.** -/
theorem denotes_terms [ExactOrder K] [ExactPowers K] (hids : ∀ id ∈ c.ids, Locates place a id)
    (hline : ∀ p l0 l1 d, c = .pointOnLine p l0 l1 d → place l0 ≠ place l1) :
    List.Forall₂ (Denotes a) c.terms (c.values place) := by
  cases c with
  | distance p q d =>
    obtain ⟨hp, hq⟩ : Locates place a p ∧ Locates place a q := by simpa [ids] using hids
    exact .cons ((denotes_literal d).sub (hp.length hq)) .nil
  | pointOnLine p l0 l1 d =>
    obtain ⟨hp, h0, h1⟩ : Locates place a p ∧ Locates place a l0 ∧ Locates place a l1 := by
      simpa [ids] using hids
    -- the ends of the line are apart, and so its length is no zero divisor
    have base : IsDistance (place l0) (place l1) (rootDistance (place l0) (place l1)) :=
      isDistance_iff.mpr rfl
    have apart := (base.pos (hline p l0 l1 d rfl)).ne'
    exact .cons (((hp.doubleArea h0 h1).div (h0.length h1) apart).sub (denotes_literal d)) .nil
  | equalLength a0 a1 b0 b1 =>
    obtain ⟨ha0, ha1, hb0, hb1⟩ : Locates place a a0 ∧ Locates place a a1 ∧ Locates place a b0 ∧
        Locates place a b1 := by simpa [ids] using hids
    exact .cons ((hb0.length hb1).sub (ha0.length ha1)) .nil
  | parallel a0 a1 b0 b1 =>
    obtain ⟨ha0, ha1, hb0, hb1⟩ : Locates place a a0 ∧ Locates place a a1 ∧ Locates place a b0 ∧
        Locates place a b1 := by simpa [ids] using hids
    exact .cons (ha0.cross ha1 hb0 hb1) .nil
  | coincident p q =>
    obtain ⟨hp, hq⟩ : Locates place a p ∧ Locates place a q := by simpa [ids] using hids
    exact .cons (hp.1.sub hq.1) (.cons (hp.2.sub hq.2) .nil)
  | horizontal p q =>
    obtain ⟨hp, hq⟩ : Locates place a p ∧ Locates place a q := by simpa [ids] using hids
    exact .cons (hp.2.sub hq.2) .nil
  | vertical p q =>
    obtain ⟨hp, hq⟩ : Locates place a p ∧ Locates place a q := by simpa [ids] using hids
    exact .cons (hp.1.sub hq.1) .nil
  | fix p x y =>
    have hp : Locates place a p := by simpa [ids] using hids
    exact .cons ((denotes_literal x).sub hp.1) (.cons ((denotes_literal y).sub hp.2) .nil)

end Constraint

/-! ### The texts of equations -/

namespace Point

variable {K : Type} [ExactScalar K] {points : List (Point K)} {p : Point K}

/-- Under the assignment of points, the names of a point's coordinates denote its place. -/
theorem locates (hnames : ∀ p ∈ points, IsName p.id.toList)
    (hdistinct : (points.map fun p => Text.asciiFold p.id).Nodup) (hp : p ∈ points) :
    Constraint.Locates (position points) (assignment points) p.id := by
  have ascii := isAscii_keys hnames
  obtain ⟨x, y⟩ := named?_assignment hdistinct hp
  have folded (name : String) : Text.sameName name (Text.asciiFold name) = true := by
    rw [Text.sameName_iff, Text.asciiFold_asciiFold]
  rw [Keyed.named?_congr (folded _)] at x y
  rw [Constraint.Locates, position_of_mem hdistinct hp, Constraint.xTerm_eq, Constraint.yTerm_eq]
  exact ⟨denotes_symbol ascii (Text.asciiFold_asciiFold _) x,
    denotes_symbol ascii (Text.asciiFold_asciiFold _) y⟩

end Point

namespace Constraint

variable {K : Type} [ExactScalar K] [LinearOrder K] [IsStrictOrderedRing K] [ExactOrder K]
  [ExactPowers K] [ExactRoots K] [ExactTexts K]

/-- **The equations of a constraint vanish iff it holds.**  Over an ordered field with exact square
    roots, take points with names as formulas have them, which differ by more than case, and a
    constraint between them with finite parameters.  Its equations can be read, compiled and
    evaluated at the coordinates of the points, and their values are all zero iff the points lie as
    the constraint says.  A line has to go through two points that are not at the same place. -/
theorem equations_vanish_iff (points : List (Point K)) (c : Constraint K)
    (hnames : ∀ p ∈ points, IsName p.id.toList)
    (hdistinct : (points.map fun p => Text.lowercase p.id).Nodup)
    (hids : ∀ id ∈ c.ids, ∃ p ∈ points, p.id = id)
    (hfinite : ∀ x ∈ c.parameters, Scalar.isFinite x = true)
    (hline : ∀ p l0 l1 d, c = .pointOnLine p l0 l1 d →
      Point.position points l0 ≠ Point.position points l1) :
    ∃ texts ds, c.equations = .ok texts ∧
      texts.mapM (evaluate · (Point.assignment points)) = .ok ds ∧
      ((∀ d ∈ ds, d.value = 0) ↔ c.Holds (Point.position points)) := by
  have folded : (points.map fun p => Text.asciiFold p.id).Nodup := by
    rwa [List.map_congr_left fun p hp => Text.lowercase_eq_asciiFold (hnames p hp).isAscii]
      at hdistinct
  have names : ∀ id ∈ c.ids, IsName id.toList := fun id hid => by
    obtain ⟨p, hp, rfl⟩ := hids id hid
    exact hnames p hp
  have located : ∀ id ∈ c.ids,
      Locates (Point.position points) (Point.assignment points) id := fun id hid => by
    obtain ⟨p, hp, rfl⟩ := hids id hid
    exact Point.locates hnames folded hp
  obtain ⟨texts, htexts⟩ := exists_equations hfinite
  have reads := ofText_equations names (fun x hx => ExactTexts.isDecimal_text x (hfinite x hx))
    (fun x hx => ExactTexts.readsBack x (hfinite x hx)) htexts
  -- the texts are read as the formulas of the constraint, and these denote its values
  obtain ⟨ds, hds, hvalues⟩ := exists_mapM_eq_ok (T := fun (d : Dual K) x => d.value = x)
    reads (denotes_terms located hline) fun _ _ _ hread hdenotes => hdenotes.evaluate hread
  have values : ds.map Dual.value = c.values (Point.position points) := by
    rwa [← List.forall₂_eq_eq_eq, List.forall₂_map_left_iff]
  refine ⟨texts, ds, htexts, hds, ?_⟩
  rw [← values_eq_zero_iff hline, ← values, List.forall_mem_map]

/-- Two points on a line of slope `4 / 3`, and a third one beside it. -/
noncomputable def besideLine : List (Point PrintedReal) :=
  [⟨"P", (5 : ℕ), 0⟩, ⟨"A", 0, 0⟩, ⟨"b_2", (3 : ℕ), (4 : ℕ)⟩]

/-- A point at distance four from a line that is not parallel to an axis. -/
theorem equations_vanish_iff_besideLine :
    ∃ texts ds, (pointOnLine "P" "A" "b_2" (4 : PrintedReal)).equations = .ok texts ∧
      texts.mapM (evaluate · (Point.assignment besideLine)) = .ok ds ∧ (∀ d ∈ ds, d.value = 0) ∧
      IsLineDistance (5, 0) (0, 0) (3, 4) (4 : PrintedReal) := by
  have P : Point.position besideLine "P" = (5, 0) := by simp [Point.position, besideLine]
  have A : Point.position besideLine "A" = (0, 0) := by simp [Point.position, besideLine]
  have B : Point.position besideLine "b_2" = (3, 4) := by simp [Point.position, besideLine]
  have apart : ((0, 0) : PrintedReal × PrintedReal) ≠ (3, 4) := by simp
  have holds : IsLineDistance (5, 0) (0, 0) (3, 4) (4 : PrintedReal) := by
    -- the line has the length 5, and the doubled area is 20
    have base : IsDistance (0, 0) (3, 4) (5 : PrintedReal) := by norm_num [IsDistance]
    have distance : IsLineDistance (5, 0) (0, 0) (3, 4) (20 / 5 : PrintedReal) :=
      isLineDistance_div apart base (by norm_num) (by norm_num [crossProduct])
    norm_num at distance
    exact distance
  have names : ∀ p ∈ besideLine, IsName p.id.toList := by
    simp only [besideLine, List.forall_mem_cons]
    decide
  have distinct : (besideLine.map fun p => Text.lowercase p.id).Nodup := by
    show (List.map Text.lowercase ["P", "A", "b_2"]).Nodup
    decide
  have known : ∀ id ∈ ids (pointOnLine "P" "A" "b_2" (4 : PrintedReal)),
      ∃ p ∈ besideLine, p.id = id := by simp [ids, besideLine]
  obtain ⟨texts, ds, htexts, hds, hiff⟩ := equations_vanish_iff besideLine
    (pointOnLine "P" "A" "b_2" 4) names distinct known
    (List.forall_mem_singleton.mpr (PrintedReal.isFinite_natCast 4)) (by
      rintro _ _ _ _ ⟨⟩
      rwa [A, B])
  rw [Holds, P, A, B] at hiff
  exact ⟨texts, ds, htexts, hds, hiff.mpr holds, holds⟩

end Constraint

end Drafting
