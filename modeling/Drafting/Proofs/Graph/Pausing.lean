import Mathlib
import Drafting.Editor.Request
import Drafting.Proofs.Graph.Splits

namespace Drafting

/-!
# Decompositions that pause

A limit on the steps stops a decomposition where it stands, and changes nothing else.  What it has
reached is a number of splits at first articulation pairs: the least number after which no pair is
left, or as many as the limit allows.  Whoever goes on from there comes to what a larger limit would
have come to at once.

* `Graph.decomposeWithin_cases` — a decomposition finishes, or it pauses at its limit;
* `Graph.addSteps` — an outcome with steps that were made before it;
* `Graph.decomposeFrom_resumes` — to pause and go on is not to pause;
* `Graph.decomposeWithin_pauses` — all of it, for the answer to an editor, too.
-/

namespace Graph

variable {g h r : Graph} {k s limit steps : Nat}

/-! ### Where a decomposition stops -/

/-- Any number of splits can be made, whatever the graph is. -/
theorem exists_splitTimes (k : Nat) (g : Graph) : ∃ r, splitTimes k g = .ok r := by
  induction k generalizing g with
  | zero => exact ⟨g, rfl⟩
  | succ k ih =>
    obtain ⟨f, hf⟩ := g.exists_splitFirst
    rw [splitTimes_succ hf]
    exact ih f

/-- **A decomposition finishes or pauses.**  It stops after the least number of splits that leaves
    no pair, or at its limit if that is less. -/
theorem decomposeWithin_cases (g : Graph) (limit : Nat) :
    (∃ s ≤ limit, ∃ r, IsLeast {i | g.FinishedAfter i} s ∧ splitTimes s g = .ok r ∧
      r.articulationPairs = [] ∧ g.decomposeWithin limit = .ok ⟨r, s⟩) ∨
    (∀ i ≤ limit, ¬ g.FinishedAfter i) ∧ ∃ h, splitTimes limit g = .ok h ∧
      h.articulationPairs ≠ [] ∧ g.decomposeWithin limit = .error (.incomplete limit h) := by
  obtain ⟨k, hk, r, hr, hbefore, hend⟩ := g.decomposeFrom_eq limit 0
  rw [Nat.zero_add] at hend
  have unfinished : ∀ i < k, ¬ g.FinishedAfter i := by
    rintro i hi ⟨f, hf, hdone⟩
    exact hbefore i hi f hf hdone
  rcases hend with ⟨hdone, heq⟩ | ⟨rfl, hpairs, heq⟩
  · refine Or.inl ⟨k, hk, r, ⟨⟨r, hr, hdone⟩, fun i hi => ?_⟩, hr, hdone, heq⟩
    by_contra hlt
    exact unfinished i (Nat.lt_of_not_le hlt) hi
  · refine Or.inr ⟨fun i hi => ?_, r, hr, hpairs, heq⟩
    -- the last graph has been looked at, too
    rcases Nat.lt_or_eq_of_le hi with hlt | rfl
    · exact unfinished i hlt
    · exact fun hfinished => hpairs ((finishedAfter_iff hr).mp hfinished)

/-- What a decomposition answers that was finished. -/
theorem decomposeWithin_eq_ok {d : Decomposition} :
    g.decomposeWithin limit = .ok d ↔
      d.steps ≤ limit ∧ IsLeast {i | g.FinishedAfter i} d.steps ∧
        splitTimes d.steps g = .ok d.graph := by
  constructor
  · intro h
    rcases g.decomposeWithin_cases limit with ⟨s, hs, r, hleast, hr, -, heq⟩ | ⟨-, _, -, -, heq⟩
    · obtain rfl := Except.ok.inj (heq.symm.trans h)
      exact ⟨hs, hleast, hr⟩
    · rw [heq] at h
      cases h
  · rintro ⟨hle, hleast, hgraph⟩
    rcases g.decomposeWithin_cases limit with ⟨s, -, r, hleast', hr, -, heq⟩ | ⟨hnone, -⟩
    · obtain rfl := hleast'.unique hleast
      obtain rfl := Except.ok.inj (hr.symm.trans hgraph)
      exact heq
    · exact absurd hleast.1 (hnone d.steps hle)

/-- What a decomposition answers that was not finished; it fails in no other way. -/
theorem decomposeWithin_eq_error {e : DecomposeError} :
    g.decomposeWithin limit = .error e ↔
      (∀ i ≤ limit, ¬ g.FinishedAfter i) ∧ ∃ h, e = .incomplete limit h ∧
        splitTimes limit g = .ok h ∧ h.articulationPairs ≠ [] := by
  constructor
  · intro he
    rcases g.decomposeWithin_cases limit with ⟨_, -, _, -, -, -, heq⟩ | ⟨hnone, h, hh, hpairs, heq⟩
    · rw [heq] at he
      cases he
    · exact ⟨hnone, h, Except.error.inj (he.symm.trans heq), hh, hpairs⟩
  · rintro ⟨hnone, h, rfl, hh, -⟩
    rcases g.decomposeWithin_cases limit with ⟨s, hs, _, hleast, -⟩ | ⟨-, h', hh', -, heq⟩
    · exact absurd hleast.1 (hnone s hs)
    · obtain rfl := Except.ok.inj (hh.symm.trans hh')
      exact heq

/-- A graph without pairs stays what it is, whatever the limit. -/
theorem decomposeWithin_of_pairs (hpairs : g.articulationPairs = []) (limit : Nat) :
    g.decomposeWithin limit = .ok ⟨g, 0⟩ :=
  decomposeWithin_eq_ok.mpr
    ⟨Nat.zero_le limit, ⟨⟨g, rfl, hpairs⟩, fun i _ => Nat.zero_le i⟩, rfl⟩

/-! ### Going on -/

/-- The same outcome, with `k` steps made before. -/
def addSteps (k : Nat) :
    Except DecomposeError Decomposition → Except DecomposeError Decomposition
  | .ok d => .ok ⟨d.graph, k + d.steps⟩
  | .error (.incomplete steps g) => .error (.incomplete (k + steps) g)
  | .error (.unknownNode id) => .error (.unknownNode id)

/-- Steps made before are only counted. -/
theorem decomposeFrom_add (k : Nat) (g : Graph) (limit steps : Nat) :
    decomposeFrom limit (k + steps) g = addSteps k (decomposeFrom limit steps g) := by
  induction limit generalizing g steps with
  | zero =>
    rw [decomposeFrom, decomposeFrom]
    split <;> rfl
  | succ limit ih =>
    by_cases hpairs : g.articulationPairs = []
    · rw [decomposeFrom, decomposeFrom, hpairs]
      rfl
    · obtain ⟨f, hf⟩ := g.exists_splitFirst
      rw [decomposeFrom_succ hpairs hf, decomposeFrom_succ hpairs hf, Nat.add_assoc]
      exact ih f (steps + 1)

/-- **To pause and go on is not to pause.**  A decomposition that stopped at its limit goes on from
    the graph it had reached as it would have done with a larger limit. -/
theorem decomposeFrom_resumes (hk : decomposeFrom k steps g = .error (.incomplete s h)) (j : Nat) :
    decomposeFrom (k + j) steps g = decomposeFrom j s h := by
  -- both runs make the same splits until the smaller limit is used up
  induction k generalizing g steps with
  | zero =>
    rw [decomposeFrom] at hk
    split at hk
    · cases hk
    · obtain ⟨rfl, rfl⟩ := DecomposeError.incomplete.inj (Except.error.inj hk)
      rw [Nat.zero_add]
  | succ k ih =>
    by_cases hpairs : g.articulationPairs = []
    · rw [decomposeFrom, hpairs] at hk
      cases hk
    · obtain ⟨f, hf⟩ := g.exists_splitFirst
      rw [decomposeFrom_succ hpairs hf] at hk
      rw [Nat.add_right_comm, decomposeFrom_succ hpairs hf]
      exact ih hk

/-- What an editor is told of a decomposition with a limit. -/
theorem request_decomposeWithin (F : Type) (g : Graph) (limit : Nat) :
    ∃ s ≤ limit, ∃ r, splitTimes s g = .ok r ∧
      Request.decomposeWithin (F := F) limit g = .ok ⟨r, r.articulationPairs.isEmpty, s⟩ := by
  unfold Request.decomposeWithin
  rcases g.decomposeWithin_cases limit with
    ⟨s, hs, r, -, hr, hdone, heq⟩ | ⟨-, h, hh, hpairs, heq⟩
  · exact ⟨s, hs, r, hr, by rw [heq, hdone]; rfl⟩
  · refine ⟨limit, Nat.le_refl limit, h, hh, ?_⟩
    rw [heq, List.isEmpty_eq_false_iff.mpr hpairs]

/-- **A limit only pauses a decomposition.**  A decomposition is a number of splits at first
    articulation pairs, none of which fails.  It finishes in the least number of splits that leaves
    no pair if the limit allows for that, and else it stops after as many splits as the limit
    allows, with pairs left; it does not fail in any other way, so that an editor always has an
    answer.  To go on from where it stopped is to have had a larger limit, and what is finished
    stays what it is. -/
theorem decomposeWithin_pauses (F : Type) (g : Graph) (k : Nat) :
    (∀ i, ∃ r, splitTimes i g = .ok r) ∧
    (∀ d, g.decomposeWithin k = .ok d ↔
      d.steps ≤ k ∧ IsLeast {i | g.FinishedAfter i} d.steps ∧
        splitTimes d.steps g = .ok d.graph) ∧
    (∀ e, g.decomposeWithin k = .error e ↔
      (∀ i ≤ k, ¬ g.FinishedAfter i) ∧ ∃ h, e = .incomplete k h ∧
        splitTimes k g = .ok h ∧ h.articulationPairs ≠ []) ∧
    (∃ s ≤ k, ∃ r, splitTimes s g = .ok r ∧
      Request.decomposeWithin (F := F) k g = .ok ⟨r, r.articulationPairs.isEmpty, s⟩) ∧
    (∀ s h, g.decomposeWithin k = .error (.incomplete s h) →
      ∀ j, g.decomposeWithin (k + j) = addSteps k (h.decomposeWithin j)) ∧
    ∀ d, g.decomposeWithin k = .ok d → ∀ j, d.graph.decomposeWithin j = .ok ⟨d.graph, 0⟩ := by
  refine ⟨fun i => exists_splitTimes i g, fun _ => decomposeWithin_eq_ok,
    fun _ => decomposeWithin_eq_error, request_decomposeWithin F g k, ?_, ?_⟩
  · intro s h hk j
    -- the steps that were made count, however the rest goes
    obtain ⟨-, h', heq, -⟩ := decomposeWithin_eq_error.mp hk
    obtain ⟨rfl, rfl⟩ := DecomposeError.incomplete.inj heq
    calc g.decomposeWithin (s + j)
        = decomposeFrom j s h := decomposeFrom_resumes hk j
      _ = addSteps s (h.decomposeWithin j) := decomposeFrom_add s h j 0
  · intro d hd j
    obtain ⟨-, hleast, hgraph⟩ := decomposeWithin_eq_ok.mp hd
    exact decomposeWithin_of_pairs ((finishedAfter_iff hgraph).mp hleast.1) j

/-- Three triangles in a row. -/
def triangleStrip : Graph where
  nodes := [⟨"a", .point⟩, ⟨"b", .point⟩, ⟨"c", .point⟩, ⟨"d", .point⟩, ⟨"e", .point⟩]
  edges := [⟨"ab", .distance, "a", "b"⟩, ⟨"ac", .distance, "a", "c"⟩,
    ⟨"bc", .distance, "b", "c"⟩, ⟨"bd", .distance, "b", "d"⟩, ⟨"cd", .distance, "c", "d"⟩,
    ⟨"ce", .distance, "c", "e"⟩, ⟨"de", .distance, "d", "e"⟩]

/-- The strip, with its first triangle cut off. -/
def triangleStripSplit : Graph where
  nodes := [⟨"a", .point⟩, ⟨"c_0", .point⟩, ⟨"b_0", .point⟩, ⟨"d", .point⟩, ⟨"e", .point⟩,
    ⟨"c_1", .point⟩, ⟨"b_1", .point⟩]
  edges := [⟨"ac", .distance, "a", "c_0"⟩, ⟨"ab", .distance, "a", "b_0"⟩,
    ⟨"c_virtual_edge_0", .distance, "b_0", "c_0"⟩, ⟨"de", .distance, "d", "e"⟩,
    ⟨"cd", .distance, "c_1", "d"⟩, ⟨"ce", .distance, "c_1", "e"⟩, ⟨"bd", .distance, "b_1", "d"⟩,
    ⟨"c_virtual_edge_1", .distance, "b_1", "c_1"⟩]

/-- One split leaves a pair: a decomposition that stops there goes on to the end of the strip. -/
theorem decomposeWithin_pauses_triangleStrip :
    triangleStrip.decomposeWithin 1 = .error (.incomplete 1 triangleStripSplit) ∧
      triangleStrip.decomposeWithin 9 = addSteps 1 (triangleStripSplit.decomposeWithin 8) := by
  have pairs : triangleStrip.articulationPairs = [("b", "c"), ("c", "d")] := by cbv
  have split : triangleStrip.splitFirst = .ok triangleStripSplit := by
    rw [splitFirst_eq pairs]
    cbv
  have left : triangleStripSplit.articulationPairs = [("c_1", "d")] := by cbv
  have paused : triangleStrip.decomposeWithin 1 = .error (.incomplete 1 triangleStripSplit) := by
    show decomposeFrom 1 0 triangleStrip = _
    rw [decomposeFrom_succ (pairs ▸ List.cons_ne_nil _ _) split, decomposeFrom, left]
    rfl
  have resumes := (decomposeWithin_pauses Unit triangleStrip 1).2.2.2.2.1
  exact ⟨paused, resumes 1 triangleStripSplit paused 8⟩

end Graph

end Drafting
