import Drafting.Graph.Decompose
import Drafting.Proofs.Graph.Pairs

namespace Drafting

/-!
# Splits at first articulation pairs

Whatever the names and edges of a graph are, the nodes of an articulation pair are there, and a
graph can be split at any two of its nodes.  So a decomposition never fails for want of a node: it
is a number of splits at first articulation pairs, up to a graph without pairs or to its limit.

* `Graph.exists_splitFirst` — a split at the first pair does not fail;
* `Graph.splitTimes` — a number of such splits;
* `Graph.FinishedAfter` — the number of splits after which no pair is left;
* `Graph.decomposeFrom_eq` — what a decomposition comes to.
-/

namespace Graph

variable {g r : Graph} {a b : String} {k : Nat}

/-! ### A split -/

/-- A node that is there is found. -/
theorem exists_getNode (h : a ∈ g.ids) : ∃ n, g.getNode a = .ok n ∧ n.id = a := by
  obtain ⟨n, hn, rfl⟩ := List.mem_map.mp h
  obtain ⟨m, hm⟩ : ∃ m, g.node? n.id = some m :=
    Option.isSome_iff_exists.mp (List.find?_isSome.mpr ⟨n, hn, by simp⟩)
  have named : m.id = n.id := by simpa using List.find?_some hm
  exact ⟨m, by rw [getNode, hm], named⟩

/-- A graph can be split at any two of its nodes. -/
theorem exists_splitAtPair (ha : a ∈ g.ids) (hb : b ∈ g.ids) (hne : a ≠ b) :
    ∃ r, g.splitAtPair a b = .ok r := by
  obtain ⟨p, hp, named⟩ := exists_getNode ha
  obtain ⟨q, hq, -⟩ := exists_getNode (mem_ids_without.mpr ⟨hb, hne.symm⟩)
  -- the first node is put back before the second cut
  have back : a ∈ ((ofPieces ((g.without a).pieces q none)).append ⟨[p], g.edgesAt a⟩).ids := by
    rw [ids, append, List.map_append, List.mem_append]
    exact Or.inr (by simp [named])
  obtain ⟨p', hp', -⟩ := exists_getNode back
  simp only [splitAtPair, hp, hq, hp', bind, Except.bind, pure, Except.pure]
  exact ⟨_, rfl⟩

/-- A split at the first pair is a split at a pair. -/
theorem splitFirst_eq {rest : List (String × String)} (h : g.articulationPairs = (a, b) :: rest) :
    g.splitFirst = g.splitAtPair a b := by
  rw [splitFirst, h]

/-- A split at the first pair does not fail. -/
theorem exists_splitFirst (g : Graph) : ∃ r, g.splitFirst = .ok r := by
  cases hpairs : g.articulationPairs with
  | nil => exact ⟨g, by rw [splitFirst, hpairs]⟩
  | cons pair rest =>
    obtain ⟨a, b⟩ := pair
    have hmem : (a, b) ∈ g.articulationPairs := hpairs ▸ List.mem_cons_self
    obtain ⟨ha, hb, hne⟩ := mem_ids_of_mem_articulationPairs hmem
    rw [splitFirst_eq hpairs]
    exact exists_splitAtPair ha hb hne

/-! ### A number of splits -/

/-- The graph after `k` splits at first articulation pairs. -/
def splitTimes : Nat → Graph → Except DecomposeError Graph
  | 0, g => .ok g
  | k + 1, g => do splitTimes k (← g.splitFirst)

theorem splitTimes_succ (h : g.splitFirst = .ok r) (k : Nat) :
    splitTimes (k + 1) g = splitTimes k r := by
  rw [splitTimes, h]
  rfl

/-- The last of several splits may be counted apart, like the first. -/
theorem splitTimes_succ_eq_bind (k : Nat) (g : Graph) :
    splitTimes (k + 1) g = (splitTimes k g).bind splitFirst := by
  induction k generalizing g with
  | zero =>
    show g.splitFirst.bind (splitTimes 0) = g.splitFirst
    cases g.splitFirst <;> rfl
  | succ k ih =>
    show g.splitFirst.bind (splitTimes (k + 1))
      = (g.splitFirst.bind (splitTimes k)).bind splitFirst
    cases g.splitFirst with
    | error e => rfl
    | ok f => exact ih f

/-- After `k` splits no pair is left. -/
def FinishedAfter (g : Graph) (k : Nat) : Prop :=
  ∃ r, splitTimes k g = .ok r ∧ r.articulationPairs = []

/-- Splitting is finished iff no pair is left. -/
theorem finishedAfter_iff (h : splitTimes k g = .ok r) :
    g.FinishedAfter k ↔ r.articulationPairs = [] := by
  constructor
  · rintro ⟨r', hr', hdone⟩
    obtain rfl := Except.ok.inj (h.symm.trans hr')
    exact hdone
  · exact fun hdone => ⟨r, h, hdone⟩

/-! ### A decomposition -/

/-- Where there is a pair, decomposition goes on with the graph after one split. -/
theorem decomposeFrom_succ (hpairs : g.articulationPairs ≠ []) (h : g.splitFirst = .ok r)
    (limit steps : Nat) :
    decomposeFrom (limit + 1) steps g = decomposeFrom limit (steps + 1) r := by
  obtain ⟨⟨a, b⟩, rest, hlist⟩ := List.exists_cons_of_ne_nil hpairs
  rw [splitFirst_eq hlist] at h
  rw [decomposeFrom, hlist]
  show (g.splitAtPair a b).bind (decomposeFrom limit (steps + 1)) = _
  rw [h]
  rfl

/-- **A decomposition is a number of splits.**  It stops where no pair is left, or at the limit. -/
theorem decomposeFrom_eq (g : Graph) (limit steps : Nat) :
    ∃ k ≤ limit, ∃ r, splitTimes k g = .ok r ∧
      (∀ i < k, ∀ f, splitTimes i g = .ok f → f.articulationPairs ≠ []) ∧
      ((r.articulationPairs = [] ∧ decomposeFrom limit steps g = .ok ⟨r, steps + k⟩) ∨
        (k = limit ∧ r.articulationPairs ≠ [] ∧
          decomposeFrom limit steps g = .error (.incomplete (steps + k) r))) := by
  -- every step uses up one of the limit
  induction limit generalizing g steps with
  | zero =>
    refine ⟨0, Nat.le_refl 0, g, rfl, fun i hi => absurd hi (Nat.not_lt_zero i), ?_⟩
    rw [decomposeFrom]
    cases hpairs : g.articulationPairs with
    | nil => exact Or.inl ⟨rfl, rfl⟩
    | cons pair rest => exact Or.inr ⟨rfl, List.cons_ne_nil _ _, rfl⟩
  | succ limit ih =>
    by_cases hpairs : g.articulationPairs = []
    · refine ⟨0, Nat.zero_le _, g, rfl, fun i hi => absurd hi (Nat.not_lt_zero i),
        Or.inl ⟨hpairs, ?_⟩⟩
      rw [decomposeFrom, hpairs]
      rfl
    · obtain ⟨f, hf⟩ := g.exists_splitFirst
      obtain ⟨k, hk, r, hr, hbefore, hend⟩ := ih f (steps + 1)
      refine ⟨k + 1, Nat.succ_le_succ hk, r, (splitTimes_succ hf k).trans hr, ?_, ?_⟩
      · intro i hi f' hf'
        cases i with
        | zero =>
          obtain rfl := Except.ok.inj hf'
          exact hpairs
        | succ i =>
          rw [splitTimes_succ hf] at hf'
          exact hbefore i (Nat.lt_of_succ_lt_succ hi) f' hf'
      · rw [decomposeFrom_succ hpairs hf, ← Nat.add_assoc, Nat.add_right_comm]
        exact hend.imp id fun hstopped => ⟨congrArg (· + 1) hstopped.1, hstopped.2⟩

/-- A decomposition stops at the first graph without pairs, if its limit allows for that. -/
theorem decomposeWithin_ok {limit : Nat} (hr : splitTimes k g = .ok r)
    (hdone : r.articulationPairs = []) (hlimit : k ≤ limit) :
    ∃ d, g.decomposeWithin limit = .ok d ∧ d.steps ≤ k ∧ d.graph.articulationPairs = [] := by
  obtain ⟨k', -, r', hr', hbefore, hend⟩ := g.decomposeFrom_eq limit 0
  -- it does not go on past a graph without pairs
  have first : k' ≤ k := by
    by_contra hlt
    exact hbefore k (Nat.lt_of_not_le hlt) r hr hdone
  rcases hend with ⟨hdone', heq⟩ | ⟨rfl, hpairs, -⟩
  · exact ⟨_, heq, by simpa using first, hdone'⟩
  · obtain rfl : k = k' := Nat.le_antisymm hlimit first
    obtain rfl := Except.ok.inj (hr.symm.trans hr')
    exact absurd hdone hpairs

end Graph

end Drafting
