namespace Drafting

/-!
# Indices of vectors

A vector of length `n` is read at the indices below `n`.  The file lists the indices that pass a
test, and says what is read from a vector after each of the operations that the library uses.
-/

variable {α : Type} {n : Nat}

/-- The indices below `n` that pass a test, in ascending order. -/
def indices (test : Fin n → Bool) : List (Fin n) := (List.finRange n).filter test

theorem mem_indices {test : Fin n → Bool} {i : Fin n} : i ∈ indices test ↔ test i = true := by
  simp [indices]

/-- The vector with the entries of a list, which has to have as many. -/
def ofListExact? (n : Nat) (xs : List α) : Option (Vector α n) :=
  if h : xs.length = n then some ⟨xs.toArray, List.size_toArray.trans h⟩ else none

/-- A list makes a vector iff it has as many entries, and the vector lists them. -/
theorem ofListExact?_eq_some {xs : List α} {v : Vector α n} :
    ofListExact? n xs = some v ↔ v.toList = xs := by
  unfold ofListExact?
  constructor
  · intro h
    split at h
    · obtain rfl := Option.some.inj h
      rfl
    · cases h
  · intro h
    have len : xs.length = n := by rw [← h, Vector.length_toList]
    rw [dif_pos len]
    subst h
    rfl

theorem ofListExact?_eq_none {xs : List α} : ofListExact? n xs = none ↔ xs.length ≠ n := by
  simp [ofListExact?]

@[simp] theorem get_ofFn (f : Fin n → α) (i : Fin n) : (Vector.ofFn f).get i = f i := by
  show (Vector.ofFn f)[(i : Nat)] = f i
  rw [Vector.getElem_ofFn]

@[simp] theorem get_replicate (x : α) (i : Fin n) : (Vector.replicate n x).get i = x := by
  show (Vector.replicate n x)[(i : Nat)] = x
  rw [Vector.getElem_replicate]

/-- The list of a vector has its entries in their places. -/
theorem getElem?_toList (v : Vector α n) (i : Fin n) : v.toList[(i : Nat)]? = some (v.get i) := by
  have bound : (i : Nat) < v.toList.length := by
    rw [Vector.length_toList]
    exact i.isLt
  rw [List.getElem?_eq_getElem bound, Vector.getElem_toList]
  rfl

/-- A vector made of two others, entry by entry. -/
theorem get_zipWith {β γ : Type} (f : α → β → γ) (v : Vector α n) (w : Vector β n) (i : Fin n) :
    (Vector.zipWith f v w).get i = f (v.get i) (w.get i) := by
  show (Vector.zipWith f v w)[(i : Nat)] = f v[(i : Nat)] w[(i : Nat)]
  rw [Vector.getElem_zipWith]

/-- A vector after one entry is replaced. -/
theorem get_set (v : Vector α n) (i j : Fin n) (x : α) :
    (v.set i x i.isLt).get j = if i = j then x else v.get j := by
  show (v.set i x i.isLt)[(j : Nat)] = if i = j then x else v[(j : Nat)]
  rw [Vector.getElem_set]
  simp only [Fin.ext_iff]

/-- A vector after two entries are exchanged. -/
theorem get_swap (v : Vector α n) (i j k : Fin n) :
    (v.swap i j i.isLt j.isLt).get k =
      if k = i then v.get j else if k = j then v.get i else v.get k := by
  show (v.swap i j i.isLt j.isLt)[(k : Nat)] = if k = i then v[(j : Nat)] else
    if k = j then v[(i : Nat)] else v[(k : Nat)]
  rw [Vector.getElem_swap]
  simp only [Fin.ext_iff]

theorem ext_get {v w : Vector α n} (h : ∀ i, v.get i = w.get i) : v = w :=
  Vector.ext fun i hi => h ⟨i, hi⟩

end Drafting
