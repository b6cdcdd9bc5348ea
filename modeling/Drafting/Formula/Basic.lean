import Drafting.Scalar

namespace Drafting

/-!
# Formulas

A formula is a tree of numbers, names, the five binary operators and calls.  The file gives its
text (fully parenthesised, so that reading it back needs no precedence) and the replacement of
names; replacing nothing changes nothing (`Formula.replace_none`).
-/

/-- The binary operators of formulas. -/
inductive Operator where
  | add
  | sub
  | mul
  | div
  | pow
  deriving DecidableEq, Repr

namespace Operator

/-- The character an operator is written with. -/
def char : Operator → Char
  | add => '+'
  | sub => '-'
  | mul => '*'
  | div => '/'
  | pow => '^'

/-- All operators. -/
def all : List Operator := [add, sub, mul, div, pow]

/-- The operator written with `c`. -/
def ofChar? (c : Char) : Option Operator := all.find? (·.char == c)

/-- How tightly an operator binds: sums least, powers most.  Equal operators group to the left. -/
def precedence : Operator → Nat
  | add | sub => 1
  | mul | div => 2
  | pow => 3

theorem ofChar?_char (op : Operator) : ofChar? op.char = some op := by cases op <;> rfl

end Operator

/-- A formula over scalars `F`. -/
inductive Formula (F : Type) where
  | number (value : F)
  | symbol (name : String)
  | binary (op : Operator) (left right : Formula F)
  | call (name : String) (args : List (Formula F))
  deriving Repr, BEq

namespace Formula

variable {F : Type}

/-- Induction over formulas; a call may use the claim for each of its arguments. -/
theorem induction {P : Formula F → Prop} (number : ∀ x, P (.number x))
    (symbol : ∀ name, P (.symbol name))
    (binary : ∀ op l r, P l → P r → P (.binary op l r))
    (call : ∀ name args, (∀ a ∈ args, P a) → P (.call name args)) (e : Formula F) : P e :=
  Formula.rec (motive_1 := P) (motive_2 := fun args => ∀ a ∈ args, P a)
    number symbol binary call (by simp)
    (fun _ _ hd tl => by simpa using ⟨hd, tl⟩) e

/-! ### Text -/

mutual

/-- The text of a formula: operations in parentheses, arguments behind the name of the call. -/
def text [Scalar F] : Formula F → String
  | .number x => Scalar.text x
  | .symbol name => name
  | .binary op l r => "(" ++ l.text ++ " " ++ op.char.toString ++ " " ++ r.text ++ ")"
  | .call name args => name ++ "(" ++ argumentsText args ++ ")"

/-- Arguments are separated by a comma and a space. -/
def argumentsText [Scalar F] : List (Formula F) → String
  | [] => ""
  | [e] => e.text
  | e :: e' :: rest => e.text ++ ", " ++ argumentsText (e' :: rest)

end

/-! ### Replacing names -/

mutual

/-- Puts `f name` in the place of every name for which it gives a formula, all at once: what was
    put in is not looked at again. -/
def replace (f : String → Option (Formula F)) : Formula F → Formula F
  | .number x => .number x
  | .symbol name => (f name).getD (.symbol name)
  | .binary op l r => .binary op (l.replace f) (r.replace f)
  | .call name args => .call name (replaceAll f args)

/-- `replace` in each formula of a list. -/
def replaceAll (f : String → Option (Formula F)) : List (Formula F) → List (Formula F)
  | [] => []
  | e :: rest => e.replace f :: replaceAll f rest

end

/-- Arguments are replaced one by one. -/
theorem replaceAll_eq_map (f : String → Option (Formula F)) (args : List (Formula F)) :
    replaceAll f args = args.map (replace f) := by
  induction args with
  | nil => rfl
  | cons e rest ih => rw [replaceAll, ih, List.map_cons]

/-- Replacing nothing changes nothing. -/
theorem replace_none (e : Formula F) : e.replace (fun _ => none) = e := by
  induction e using induction with
  | number => rfl
  | symbol => rfl
  | binary op l r hl hr => rw [replace, hl, hr]
  | call name args h =>
    rw [replace, replaceAll_eq_map, List.map_congr_left (g := id) h, List.map_id]

end Formula

end Drafting
