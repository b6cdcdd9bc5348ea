import Drafting.Proofs.Graph.Potential

namespace Drafting

/-!
# Decompositions come to an end

After the first split all edges lead to known nodes, and from then on every split lowers the
potential.

* `Graph.Clear.converges_of_closed` — no more splits than the potential;
* `Graph.Clear.converges` — no more than twice as many splits as there are nodes;
* `Graph.decompose_converges` — limits that a decomposition keeps to.
-/

namespace Graph

variable {g : Graph}

/-- If all edges lead to known nodes, the potential bounds the number of splits. -/
theorem Clear.converges_of_closed (h : g.Clear) (hclosed : g.Closed) :
    ∃ k ≤ g.potential, ∃ r, splitTimes k g = .ok r ∧ r.articulationPairs = [] := by
  -- every split lowers the potential, and leaves a graph that is closed again
  induction hpotential : g.potential using Nat.strong_induction_on generalizing g with
  | _ n ih =>
    by_cases hpairs : g.articulationPairs = []
    · exact ⟨0, Nat.zero_le n, g, rfl, hpairs⟩
    · obtain ⟨p, q, f, step⟩ := h.exists_step hpairs
      have drop := step.potential_le.2 hclosed
      rw [hpotential] at drop
      obtain ⟨k, hk, r, hr, hdone⟩ := ih f.potential drop step.clear step.split.closed rfl
      exact ⟨k + 1, by omega, r, (splitTimes_succ step.splitFirst_eq k).trans hr, hdone⟩

/-- **Convergence.**  Twice as many splits as there are nodes are enough. -/
theorem Clear.converges (h : g.Clear) :
    ∃ k ≤ 2 * g.size, ∃ r, splitTimes k g = .ok r ∧ r.articulationPairs = [] := by
  by_cases hpairs : g.articulationPairs = []
  · exact ⟨0, Nat.zero_le _, g, rfl, hpairs⟩
  · obtain ⟨p, q, f, step⟩ := h.exists_step hpairs
    -- the first split closes the graph
    obtain ⟨k, hk, r, hr, hdone⟩ := step.clear.converges_of_closed step.split.closed
    have hsize : 1 ≤ g.size := List.length_pos_of_mem step.pivots.first_mem
    have bound := h.distinct.potential_add_two_le hsize
    have cost := step.potential_le.1
    exact ⟨k + 1, by omega, r, (splitTimes_succ step.splitFirst_eq k).trans hr, hdone⟩

/-- **Decompositions converge.**  Splitting comes to an end after at most twice as many steps as
    there are nodes; a limit of that many steps is not reached, and with no more than 5000 nodes
    neither is the one that holds if none is given. -/
theorem decompose_converges (g : Graph) (hg : g.Distinct) (hapart : g.NamesApart) :
    (∃ k ≤ 2 * g.size, ∃ r, splitTimes k g = .ok r ∧ r.articulationPairs = []) ∧
    (∀ limit, 2 * g.size ≤ limit → ∃ d, g.decomposeWithin limit = .ok d ∧
      d.steps ≤ 2 * g.size ∧ d.graph.articulationPairs = []) ∧
    (g.size ≤ 5000 → ∃ d, g.decompose = .ok d ∧ d.graph.articulationPairs = []) := by
  have h : g.Clear := ⟨hg, hapart⟩
  obtain ⟨k, hk, r, hr, hdone⟩ := h.converges
  refine ⟨⟨k, hk, r, hr, hdone⟩, fun limit hlimit => ?_, fun hsize => ?_⟩
  · obtain ⟨d, hd, hsteps, hpairs⟩ := decomposeWithin_ok hr hdone (hk.trans hlimit)
    exact ⟨d, hd, hsteps.trans hk, hpairs⟩
  · have hlimit : k ≤ maxSteps := by
      unfold maxSteps
      omega
    obtain ⟨d, hd, -, hpairs⟩ := decomposeWithin_ok hr hdone hlimit
    exact ⟨d, hd, hpairs⟩

/-- Four nodes, and so at most eight splits. -/
theorem decompose_converges_crossedSquare :
    crossedSquare.Distinct ∧ crossedSquare.NamesApart ∧
      (∃ k ≤ 8, ∃ r, splitTimes k crossedSquare = .ok r ∧ r.articulationPairs = []) ∧
      (∃ d, crossedSquare.decomposeWithin 8 = .ok d ∧ d.steps ≤ 8 ∧
        d.graph.articulationPairs = []) ∧
      ∃ d, crossedSquare.decompose = .ok d ∧ d.graph.articulationPairs = [] := by
  have distinct : crossedSquare.Distinct := by decide
  have apart : crossedSquare.NamesApart := namesApart_of_underscore_not_mem (by decide)
  obtain ⟨steps, limits, unlimited⟩ := decompose_converges crossedSquare distinct apart
  exact ⟨distinct, apart, steps, limits 8 (by decide), unlimited (by decide)⟩

end Graph

end Drafting
