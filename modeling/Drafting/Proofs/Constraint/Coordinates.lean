import Drafting.Proofs.Constraint.Equations

namespace Drafting

/-!
# Coordinates of points

The name of a coordinate says which point and which axis it belongs to.  So the coordinates of
points whose names differ by more than the case of letters have names that differ in this way, too,
and each is found under its own name.

* `Point.ofCoordinate?_xOf`, `Point.ofCoordinate?_yOf` — names of coordinates are told apart;
* `Point.position` — where the point with a name is;
* `Point.position_of_mem`, `Point.named?_assignment` — a point is found, and so are its
  coordinates, under their own names.
-/

open Lexer Text

variable {F : Type}

namespace Point

/-! ### Names of coordinates -/

theorem ofCoordinate?_xOf (id : String) : ofCoordinate? (xOf id) = some (id, .x) := by
  simp [ofCoordinate?, xOf]

theorem ofCoordinate?_yOf (id : String) : ofCoordinate? (yOf id) = some (id, .y) := by
  simp [ofCoordinate?, yOf]

/-- Points whose names differ by more than case have coordinates whose names do. -/
theorem nodup_coordinates {points : List (Point F)}
    (h : (points.map fun p => asciiFold p.id).Nodup) :
    (points.flatMap fun p => [asciiFold (xOf p.id), asciiFold (yOf p.id)]).Nodup := by
  -- from the names of the coordinates, the points and axes can be read off again
  have read : (points.flatMap fun p => [asciiFold (xOf p.id), asciiFold (yOf p.id)]).map
      ofCoordinate? = ((points.map fun p => asciiFold p.id) ×ˢ [Axis.x, Axis.y]).map some := by
    simp [SProd.sprod, List.product, List.map_flatMap, List.flatMap_map, Constraint.asciiFold_xOf,
      Constraint.asciiFold_yOf, ofCoordinate?_xOf, ofCoordinate?_yOf]
  have pairs : ((points.map fun p => asciiFold p.id) ×ˢ [Axis.x, Axis.y]).Nodup :=
    h.product (by decide)
  exact .of_map ofCoordinate? (read ▸ pairs.map (Option.some_injective _))

/-! ### Values of coordinates -/

/-- The entries of the assignment of points. -/
theorem entries_assignment {points : List (Point F)}
    (h : (points.map fun p => asciiFold p.id).Nodup) :
    (assignment points).entries =
      points.flatMap fun p => [(xOf p.id, p.x), (yOf p.id, p.y)] := by
  refine Keyed.entries_ofList (.of_map asciiFold ?_)
  simpa [List.map_flatMap] using nodup_coordinates h

/-- Where the point with a name is; the origin, if there is none. -/
def position [Zero F] (points : List (Point F)) (id : String) : F × F :=
  ((points.find? (·.id == id)).map fun p => (p.x, p.y)).getD (0, 0)

section Distinct

variable {points : List (Point F)} {p : Point F}

/-- Where names differ in more than case, a point is found at its own coordinates. -/
theorem position_of_mem [Zero F] (h : (points.map fun p => asciiFold p.id).Nodup)
    (hp : p ∈ points) : position points p.id = (p.x, p.y) := by
  obtain ⟨q, hq⟩ : ∃ q, points.find? (·.id == p.id) = some q := by
    rw [← Option.isSome_iff_exists, List.find?_isSome]
    exact ⟨p, hp, beq_self_eq_true p.id⟩
  have same : q.id = p.id := by simpa using List.find?_some hq
  obtain rfl : q = p :=
    List.inj_on_of_nodup_map h (List.mem_of_find?_eq_some hq) hp (congrArg asciiFold same)
  rw [position, hq]
  rfl

/-- The coordinates of a point are found under their names. -/
theorem named?_assignment (h : (points.map fun p => asciiFold p.id).Nodup) (hp : p ∈ points) :
    (assignment points).named? (xOf p.id) = some p.x ∧
      (assignment points).named? (yOf p.id) = some p.y := by
  have entries := entries_assignment h
  have folded : ((assignment points).keys.map asciiFold).Nodup := by
    rw [Keyed.keys, entries]
    simpa [List.map_flatMap] using nodup_coordinates h
  constructor <;> refine Keyed.named?_of_mem folded ?_ <;> rw [entries] <;>
    exact List.mem_flatMap.mpr ⟨p, hp, by simp⟩

/-- The names of the coordinates are ASCII if those of the points are names. -/
theorem isAscii_keys (h : ∀ p ∈ points, IsName p.id.toList) :
    ∀ key ∈ (assignment points).keys, IsAscii key := by
  intro key hkey
  obtain ⟨p, hp, rfl | rfl⟩ := mem_keys_assignment.mp hkey
  · exact (Constraint.isName_xOf (h p hp)).isAscii
  · exact (Constraint.isName_yOf (h p hp)).isAscii

end Distinct

end Point

end Drafting
