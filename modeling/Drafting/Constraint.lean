import Drafting.Keyed
import Drafting.Scalar

namespace Drafting

/-!
# Geometric constraints

Constraints between named points of the plane, as equations in the coordinates of the points: the
point `p` has the coordinates `p_x` and `p_y`.  An equation is the text of a formula that is zero
where the constraint holds.  The second half of the file turns points into an assignment of their
coordinates and back.
-/

/-- A constraint between points. -/
inductive Constraint (F : Type) where
  /-- The points `a` and `b` are `distance` apart. -/
  | distance (a b : String) (distance : F)
  /-- The point is `distance` away from the line through two points, on either side. -/
  | pointOnLine (point lineStart lineEnd : String) (distance : F)
  /-- Two segments are equally long. -/
  | equalLength (a0 a1 b0 b1 : String)
  /-- Two segments are parallel. -/
  | parallel (a0 a1 b0 b1 : String)
  /-- Two points coincide. -/
  | coincident (a b : String)
  /-- Two points are equally high. -/
  | horizontal (a b : String)
  /-- Two points are one above the other. -/
  | vertical (a b : String)
  /-- The point stays at `x` and `y`. -/
  | fix (point : String) (x y : F)

/-- A parameter of a constraint that is infinite or undefined. -/
inductive ConstraintError (F : Type) where
  | notFinite (parameter : F)

/-- The name of a point's first coordinate. -/
def xOf (point : String) : String := point ++ "_x"

/-- The name of a point's second coordinate. -/
def yOf (point : String) : String := point ++ "_y"

variable {F : Type} [Scalar F]

/-- The sentence for a refused parameter. -/
def ConstraintError.message : ConstraintError F → String
  | .notFinite x => "Constraint parameter must be finite, got " ++ Scalar.text x

namespace Constraint

/-- A number as formulas write it: without a sign, a negative one as a call. -/
def literal (x : F) : Except (ConstraintError F) String :=
  if !Scalar.isFinite x then .error (.notFinite x)
  else
    let digits := Scalar.text (Scalar.abs x)
    .ok (if Scalar.less x Scalar.zero then "neg(" ++ digits ++ ")" else digits)

/-- The distance between two points. -/
def length (p q : String) : String :=
  "sqrt((" ++ xOf q ++ "-" ++ xOf p ++ ")^2+(" ++ yOf q ++ "-" ++ yOf p ++ ")^2)"

/-- The difference of two terms. -/
def difference (a b : String) : String := a ++ " - " ++ b

/-- Twice the area of the triangle of a point and two points on a line, without its sign. -/
def doubleArea (p l0 l1 : String) : String :=
  "sqrt(((" ++ yOf l1 ++ "-" ++ yOf l0 ++ ")*" ++ xOf p
    ++ " - (" ++ xOf l1 ++ "-" ++ xOf l0 ++ ")*" ++ yOf p
    ++ " + " ++ xOf l1 ++ "*" ++ yOf l0 ++ " - " ++ yOf l1 ++ "*" ++ xOf l0 ++ ")^2)"

/-- The cross product of two directions. -/
def cross (a0 a1 b0 b1 : String) : String :=
  "(" ++ xOf a0 ++ " - " ++ xOf a1 ++ ")*(" ++ yOf b1 ++ "-" ++ yOf b0 ++ ") + ("
    ++ yOf a1 ++ "-" ++ yOf a0 ++ ")*(" ++ xOf b1 ++ "-" ++ xOf b0 ++ ")"

/-- The equations of a constraint. -/
def equations : Constraint F → Except (ConstraintError F) (List String)
  | .distance a b d => do return [difference (← literal d) (length a b)]
  | .pointOnLine p l0 l1 d => do
    return [difference (doubleArea p l0 l1 ++ " / " ++ length l0 l1) (← literal d)]
  | .equalLength a0 a1 b0 b1 => .ok [difference (length b0 b1) (length a0 a1)]
  | .parallel a0 a1 b0 b1 => .ok [cross a0 a1 b0 b1]
  | .coincident a b => .ok [difference (xOf a) (xOf b), difference (yOf a) (yOf b)]
  | .horizontal a b => .ok [difference (yOf a) (yOf b)]
  | .vertical a b => .ok [difference (xOf a) (xOf b)]
  | .fix p x y => do
    return [difference (← literal x) (xOf p), difference (← literal y) (yOf p)]

/-- The equations of a list of constraints, in order. -/
def allEquations (constraints : List (Constraint F)) :
    Except (ConstraintError F) (List String) := do
  return (← constraints.mapM equations).flatten

end Constraint

/-! ### Points and assignments -/

/-- A named point of the plane. -/
structure Point (F : Type) where
  id : String
  x : F
  y : F
  deriving Repr, BEq

namespace Point

omit [Scalar F] in
/-- The coordinates of points, under their names. -/
def assignment (points : List (Point F)) : Keyed F :=
  Keyed.ofList (points.flatMap fun p => [(xOf p.id, p.x), (yOf p.id, p.y)])

/-- The two coordinates. -/
inductive Axis where
  | x
  | y
  deriving DecidableEq, Repr

/-- The point and the axis that the name of a coordinate stands for. -/
def ofCoordinate? (name : String) : Option (String × Axis) :=
  match name.toList.reverse with
  | 'x' :: '_' :: id => some (String.ofList id.reverse, .x)
  | 'y' :: '_' :: id => some (String.ofList id.reverse, .y)
  | _ => none

/-- The point with one coordinate replaced. -/
def set (p : Point F) (value : F) : Axis → Point F
  | .x => { p with x := value }
  | .y => { p with y := value }

/-- Gives a coordinate to the point it belongs to.  A new point starts at the origin. -/
def collect (points : Keyed (Point F)) (entry : String × F) : Keyed (Point F) :=
  match ofCoordinate? entry.1 with
  | some (id, axis) =>
    points.insert id (((points.get? id).getD ⟨id, Scalar.zero, Scalar.zero⟩).set entry.2 axis)
  | none => points

/-- The points whose coordinates an assignment has, in the order in which they first come.  A
    coordinate that is missing is zero, and other names are passed over. -/
def ofAssignment (a : Keyed F) : List (Point F) := (a.entries.foldl collect Keyed.empty).values

end Point

end Drafting
