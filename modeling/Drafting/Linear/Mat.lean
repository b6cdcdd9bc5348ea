import Drafting.Indices

namespace Drafting

/-!
# Matrices

A matrix is a vector of rows, with its dimensions in its type.  It is described by its entries:
`Mat.ofFn` builds it from them, `Mat.entry` reads them back (`entry_ofFn`), and two matrices with
the same entries are equal (`Mat.ext_entry`).
-/

/-- A matrix with `m` rows and `n` columns. -/
abbrev Mat (F : Type) (m n : Nat) := Vector (Vector F n) m

namespace Mat

variable {F : Type} {m n : Nat}

/-- The matrix with the entries `f i j`. -/
def ofFn (f : Fin m → Fin n → F) : Mat F m n := Vector.ofFn fun i => Vector.ofFn (f i)

/-- The entry in row `i` and column `j`. -/
def entry (a : Mat F m n) (i : Fin m) (j : Fin n) : F := (a.get i).get j

@[simp] theorem entry_ofFn (f : Fin m → Fin n → F) (i : Fin m) (j : Fin n) :
    (ofFn f).entry i j = f i j := by simp [ofFn, entry]

theorem ext_entry {a b : Mat F m n} (h : ∀ i j, a.entry i j = b.entry i j) : a = b := by
  refine ext_get fun i => ext_get fun j => ?_
  exact h i j

/-- Exchanges the rows `i` and `j`. -/
def swapRows (a : Mat F m n) (i j : Fin m) : Mat F m n := a.swap i j i.isLt j.isLt

/-- Adds `x` to each entry of the diagonal. -/
def addDiagonal [Add F] (a : Mat F n n) (x : F) : Mat F n n :=
  ofFn fun i j => if i = j then a.entry i j + x else a.entry i j

end Mat

end Drafting
