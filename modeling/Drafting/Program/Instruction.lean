import Drafting.Formula.Basic
import Drafting.Dual.Power

namespace Drafting

/-!
# Stack instructions

The functions a formula may call, the instructions of the stack machine, and programs: lists of
instructions together with the number of variables they are meant for.
-/

/-- The functions of formulas. -/
inductive Function where
  | sin
  | cos
  | tan
  | asin
  | acos
  | atan
  | exp
  | sqrt
  | log
  | neg
  deriving DecidableEq, Repr

namespace Function

/-- All functions. -/
def all : List Function := [sin, cos, tan, asin, acos, atan, exp, sqrt, log, neg]

/-- The name a function is called by. -/
def name : Function → String
  | sin => "sin"
  | cos => "cos"
  | tan => "tan"
  | asin => "asin"
  | acos => "acos"
  | atan => "atan"
  | exp => "exp"
  | sqrt => "sqrt"
  | log => "log"
  | neg => "neg"

/-- The function called `s`. -/
def ofName? (s : String) : Option Function := all.find? (·.name == s)

/-- How many arguments a function takes. -/
def arity (_ : Function) : Nat := 1

/-- The function on values with derivatives. -/
def apply {F : Type} [Scalar F] : Function → Value F → Value F
  | sin => Value.sin
  | cos => Value.cos
  | tan => Value.tan
  | asin => Value.asin
  | acos => Value.acos
  | atan => Value.atan
  | exp => Value.exp
  | sqrt => Value.sqrt
  | log => Value.log
  | neg => Value.neg

theorem ofName?_name (f : Function) : ofName? f.name = some f := by cases f <;> decide

theorem name_of_ofName? {s : String} {f : Function} (h : ofName? s = some f) : f.name = s := by
  simpa using List.find?_some h

end Function

/-- The operator on values with derivatives. -/
def Operator.apply {F : Type} [Scalar F] :
    Operator → Value F → Value F → Except (PowerError F) (Value F)
  | .add, v, w => .ok (Value.add v w)
  | .sub, v, w => .ok (Value.sub v w)
  | .mul, v, w => .ok (Value.mul v w)
  | .div, v, w => .ok (Value.div v w)
  | .pow, v, w => Value.power v w

/-- An instruction of the stack machine. -/
inductive Instruction (F : Type) where
  /-- Puts a number on the stack. -/
  | constant (x : F)
  /-- Puts the variable with this number on the stack. -/
  | load (index : Nat)
  /-- Takes the right, then the left operand, and puts the result. -/
  | binary (op : Operator)
  /-- Takes the argument and puts the result. -/
  | call (f : Function)
  deriving Repr, BEq

/-- Instructions compiled for a number of variables. -/
structure Program (F : Type) where
  code : List (Instruction F)
  variableCount : Nat
  deriving Repr, BEq

end Drafting
