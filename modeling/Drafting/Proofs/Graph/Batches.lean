import Mathlib.Order.Bounds.Basic
import Drafting.Editor.Request
import Drafting.Proofs.Graph.Splits

namespace Drafting

/-!
# Decompositions in batches

A runner splits as a decomposition in one go does, whatever the sizes of its batches are, and
whether or not some of the calls fail.

* `Runner.Reached` — what every call keeps;
* `Runner.Answers` — how a call ends;
* `Runner.Reached.run` — both, for one call;
* `Runner.Reached.isLeast_run` — how many splits have been made after one more call;
* `Runner.afterCalls_agrees` — any calls, and the decomposition in one go.
-/

namespace Runner

open Drafting.Graph

variable {g g' : Graph} {r r' : Runner} {limit total batch : Nat} {a b : String}
  {rest : List (String × String)}

/-- The runner after calls with these batch sizes, whatever the calls answer. -/
def afterCalls (r : Runner) (batches : List Nat) : Runner :=
  batches.foldl (fun r batch => (r.run batch).1) r

/-- A runner that started from `g` has made some splits, no more than `limit`, and none of a graph
    without pairs. -/
structure Reached (g : Graph) (limit : Nat) (r : Runner) : Prop where
  graph : splitTimes r.steps g = .ok r.graph
  pairs : r.pairs = r.graph.articulationPairs
  maxSteps : r.maxSteps = limit
  steps_le : r.steps ≤ limit
  first : ∀ j, g.FinishedAfter j → r.steps ≤ j
  notDone : r.pairs ≠ [] → r.isDone = false

namespace Reached

theorem finishedAfter_iff (h : Reached g limit r) : g.FinishedAfter r.steps ↔ r.pairs = [] := by
  rw [Graph.finishedAfter_iff h.graph, h.pairs]

/-- A runner starts with no split made. -/
theorem start (g : Graph) (limit : Nat) : Reached g limit (Runner.start g limit) where
  graph := rfl
  pairs := rfl
  maxSteps := rfl
  steps_le := Nat.zero_le limit
  first := fun j _ => Nat.zero_le j
  notDone := fun hpairs => by simpa [Runner.start] using hpairs

/-- One more split. -/
theorem advance (h : Reached g limit r) (hpairs : r.pairs = (a, b) :: rest)
    (hlt : r.steps < limit) (hsplit : r.graph.splitAtPair a b = .ok g') :
    Reached g limit (r.advance g') where
  graph := by
    show splitTimes (r.steps + 1) g = .ok g'
    rw [splitTimes_succ_eq_bind, h.graph]
    show r.graph.splitFirst = .ok g'
    rw [splitFirst_eq (h.pairs.symm.trans hpairs), hsplit]
  pairs := rfl
  maxSteps := h.maxSteps
  steps_le := hlt
  first := by
    intro j hj
    have hle := h.first j hj
    have hne : r.steps ≠ j := by
      rintro rfl
      rw [h.finishedAfter_iff, hpairs] at hj
      cases hj
    show r.steps + 1 ≤ j
    omega
  notDone := fun _ => h.notDone (by rw [hpairs]; exact List.cons_ne_nil _ _)

/-- The end of a batch. -/
theorem settle (h : Reached g limit r) : Reached g limit r.settle where
  graph := h.graph
  pairs := h.pairs
  maxSteps := h.maxSteps
  steps_le := h.steps_le
  first := h.first
  notDone := fun hpairs => by
    have still : r.pairs.isEmpty = false := List.isEmpty_eq_false_iff.mpr hpairs
    simp [Runner.settle, h.notDone hpairs, still]

end Reached

/-- How a call ends that was to make `batch` more splits. -/
inductive Answers (r : Runner) (batch : Nat) (r' : Runner) : Option BatchError → Prop
  /-- All the splits have been made. -/
  | made : r'.steps = r.steps + batch → r'.isDone = r'.pairs.isEmpty → Answers r batch r' none
  /-- No pair is left. -/
  | finished : r'.pairs = [] → r'.isDone = true → r'.steps ≤ r.steps + batch →
      Answers r batch r' none
  /-- Pairs are left, but no steps. -/
  | stopped : r'.pairs ≠ [] → r'.steps = r'.maxSteps → r'.steps < r.steps + batch →
      Answers r batch r' (some (.stepsUsedUp r'.maxSteps r'.pairs.length))

/-- A call whose first split was made. -/
theorem Answers.of_advance {e : Option BatchError} (h : Answers (r.advance g') batch r' e) :
    Answers r (batch + 1) r' e := by
  have hsteps : (r.advance g').steps + batch = r.steps + (batch + 1) := by
    show r.steps + 1 + batch = r.steps + (batch + 1)
    omega
  cases h with
  | made hmade hdone => exact .made (hmade.trans hsteps) hdone
  | finished hpairs hdone hle => exact .finished hpairs hdone (hsteps ▸ hle)
  | stopped hpairs hlimit hlt => exact .stopped hpairs hlimit (hsteps ▸ hlt)

/-- At the end of a batch a runner is done iff no pair is left. -/
theorem Reached.isDone_settle (h : Reached g limit r) :
    r.settle.isDone = r.settle.pairs.isEmpty := by
  show (r.isDone || r.pairs.isEmpty) = r.pairs.isEmpty
  cases hpairs : r.pairs with
  | nil => simp
  | cons pair rest => simp [h.notDone (hpairs ▸ List.cons_ne_nil pair rest)]

/-- **One call.**  It goes on from where the runner stands, and fails only for want of steps. -/
theorem Reached.run (h : Reached g limit r) (batch : Nat) :
    Reached g limit (r.run batch).1 ∧ Answers r batch (r.run batch).1 (r.run batch).2 := by
  induction batch generalizing r with
  | zero => exact ⟨h.settle, .made rfl h.isDone_settle⟩
  | succ batch ih =>
    rw [Runner.run]
    cases hpairs : r.pairs with
    | nil =>
      refine ⟨h.settle, .finished hpairs ?_ (Nat.le_add_right r.steps (batch + 1))⟩
      rw [h.isDone_settle]
      show r.pairs.isEmpty = true
      rw [hpairs]
      rfl
    | cons pair rest =>
      obtain ⟨a, b⟩ := pair
      have hne : r.pairs ≠ [] := hpairs ▸ List.cons_ne_nil _ _
      dsimp only
      by_cases hused : r.maxSteps ≤ r.steps
      · have hlimit : r.steps = r.maxSteps := Nat.le_antisymm (h.maxSteps ▸ h.steps_le) hused
        rw [if_pos hused, ← hpairs]
        exact ⟨h, .stopped hne hlimit (by show r.steps < r.steps + (batch + 1); omega)⟩
      · rw [if_neg hused]
        -- the split is made, for the nodes of a pair are there
        have hmem : (a, b) ∈ r.graph.articulationPairs := by
          rw [← h.pairs, hpairs]
          exact List.mem_cons_self
        obtain ⟨ha, hb, hab⟩ := mem_ids_of_mem_articulationPairs hmem
        obtain ⟨g', hg'⟩ := exists_splitAtPair ha hb hab
        rw [hg']
        have hlt : r.steps < limit := h.maxSteps ▸ Nat.lt_of_not_le hused
        obtain ⟨reached, answers⟩ := ih (h.advance hpairs hlt hg')
        exact ⟨reached, answers.of_advance⟩

/-- A call makes no more splits than it was to make. -/
theorem Answers.steps_le {e : Option BatchError} (h : Answers r batch r' e) :
    r'.steps ≤ r.steps + batch := by
  cases h with
  | made hmade _ => exact Nat.le_of_eq hmade
  | finished _ _ hle => exact hle
  | stopped _ _ hlt => exact Nat.le_of_lt hlt

/-- After a call the runner is done iff no pair is left. -/
theorem Answers.isDone_iff {e : Option BatchError} (h : Answers r batch r' e)
    (hr : Reached g limit r') : r'.isDone = true ↔ r'.pairs = [] := by
  cases h with
  | made _ hdone => rw [hdone, List.isEmpty_iff]
  | finished hpairs hdone _ => simp [hpairs, hdone]
  | stopped hpairs _ _ => simp [hpairs, hr.notDone hpairs]

/-- How many splits have been made: all that were asked for, unless the limit was reached or no pair
    was left before. -/
def SplitsMade (g : Graph) (limit total k : Nat) : Prop :=
  IsLeast {j | j = total ∨ j = limit ∨ g.FinishedAfter j} k

/-- One more call. -/
theorem Reached.isLeast_run (h : Reached g limit r) (hmade : SplitsMade g limit total r.steps)
    (batch : Nat) : SplitsMade g limit (total + batch) (r.run batch).1.steps := by
  obtain ⟨reached, answers⟩ := h.run batch
  generalize (r.run batch).2 = e at answers
  have hle := answers.steps_le
  have before : r.steps ≤ total := hmade.2 (Or.inl rfl)
  constructor
  · -- the call stopped where it did for one of the three reasons, or because an earlier one did
    cases answers with
    | finished hpairs _ _ => exact Or.inr (Or.inr (reached.finishedAfter_iff.mpr hpairs))
    | stopped _ hlimit _ => exact Or.inr (Or.inl (hlimit.trans reached.maxSteps))
    | made hsteps _ =>
      rcases hmade.1 with htotal | hlimit | hfinished
      · exact Or.inl (by rw [hsteps, htotal])
      · refine Or.inr (Or.inl ?_)
        have := reached.steps_le
        omega
      · have stays := reached.first _ hfinished
        have same : (r.run batch).1.steps = r.steps := by omega
        exact Or.inr (Or.inr (same ▸ hfinished))
  · rintro j (rfl | rfl | hfinished)
    · omega
    · exact reached.steps_le
    · exact reached.first j hfinished

/-- Any calls, one after the other. -/
theorem Reached.afterCalls (h : Reached g limit r) (hmade : SplitsMade g limit total r.steps)
    (hdone : r.isDone = true ↔ r.pairs = []) (batches : List Nat) :
    Reached g limit (r.afterCalls batches) ∧
      SplitsMade g limit (total + batches.sum) (r.afterCalls batches).steps ∧
      ((r.afterCalls batches).isDone = true ↔ (r.afterCalls batches).pairs = []) := by
  induction batches generalizing r total with
  | nil => exact ⟨h, hmade, hdone⟩
  | cons batch batches ih =>
    obtain ⟨reached, answers⟩ := h.run batch
    have := ih reached (h.isLeast_run hmade batch) (answers.isDone_iff reached)
    rw [List.sum_cons, ← Nat.add_assoc]
    exact this

/-- Once no pair is left, or the limit is reached, a decomposition in one go answers the same. -/
theorem Reached.decomposeWithin_eq {F : Type} (h : Reached g limit r)
    (hdone : r.isDone = true ↔ r.pairs = []) (hend : r.pairs = [] ∨ r.steps = limit) :
    Request.decomposeWithin (F := F) limit g = .ok (Request.runnerAnswer r) := by
  obtain ⟨k, hk, f, hf, hbefore, hf_end⟩ := g.decomposeFrom_eq limit 0
  rw [Nat.zero_add] at hf_end
  -- the decomposition makes the same number of splits
  have hge : k ≤ r.steps := by
    rcases hend with hpairs | hlimit
    · by_contra hlt
      refine hbefore r.steps (Nat.lt_of_not_le hlt) r.graph h.graph ?_
      rw [← h.pairs, hpairs]
    · exact hlimit ▸ hk
  have hle : r.steps ≤ k := by
    rcases hf_end with ⟨hnil, -⟩ | ⟨rfl, -⟩
    · exact h.first k ⟨f, hf, hnil⟩
    · exact h.steps_le
  obtain rfl : k = r.steps := Nat.le_antisymm hge hle
  obtain rfl := Except.ok.inj (h.graph.symm.trans hf)
  unfold Request.decomposeWithin decomposeWithin Request.runnerAnswer
  rcases hf_end with ⟨hnil, heq⟩ | ⟨-, hne, heq⟩
  · rw [heq, hdone.mpr (h.pairs.trans hnil)]
  · have open_pairs : r.pairs ≠ [] := h.pairs ▸ hne
    rw [heq, Bool.eq_false_iff.mpr fun hd => open_pairs (hdone.mp hd)]

theorem afterCalls_concat (r : Runner) (batches : List Nat) (batch : Nat) :
    r.afterCalls (batches ++ [batch]) = ((r.afterCalls batches).run batch).1 := by
  rw [afterCalls, List.foldl_append]
  rfl

/-- What a call answers: it fails iff it asks for one more split when the limit is reached and pairs
    are left. -/
theorem Reached.runBatch_eq {F : Type} (h : Reached g limit r) (batch : Nat)
    (hr' : r' = (r.run batch).1) :
    let tooMany := r'.steps = limit ∧ r'.pairs ≠ [] ∧ r'.steps < r.steps + batch
    (tooMany → Request.runBatch (F := F) r batch =
      (r', .error (.batch (.stepsUsedUp limit r'.pairs.length)))) ∧
    (¬ tooMany → Request.runBatch (F := F) r batch = (r', .ok r'.progress)) := by
  intro tooMany
  obtain ⟨reached, answers⟩ := h.run batch
  rw [← hr'] at reached answers
  have hrun : r.run batch = (r', (r.run batch).2) := by rw [hr']
  generalize (r.run batch).2 = e at hrun answers
  unfold Request.runBatch
  rw [hrun]
  cases answers with
  | made hsteps _ =>
    have enough : ¬ tooMany := fun htoo => absurd hsteps (Nat.ne_of_lt htoo.2.2)
    exact ⟨fun htoo => absurd htoo enough, fun _ => rfl⟩
  | finished hpairs _ _ => exact ⟨fun htoo => absurd hpairs htoo.2.1, fun _ => rfl⟩
  | stopped hpairs hlimit hlt =>
    rw [reached.maxSteps] at hlimit ⊢
    exact ⟨fun _ => rfl, fun hnot => absurd ⟨hlimit, hpairs, hlt⟩ hnot⟩

/-- Where more splits were asked for than the limit allows, no pair is left, or the limit is
    reached. -/
theorem Reached.ended (h : Reached g limit r) (hmade : SplitsMade g limit total r.steps)
    (hmany : limit < total) : r.pairs = [] ∨ r.steps = limit := by
  rcases hmade.1 with htotal | hlimit | hfinished
  · have := h.steps_le
    omega
  · exact Or.inr hlimit
  · exact Or.inl (h.finishedAfter_iff.mp hfinished)

/-- **Batches.**  After any calls the graph is split as often as it was asked for, unless the limit
    was reached or no pair was left before.  A call fails iff it asks for one more split when the
    limit is reached and pairs are left; it keeps the splits it has made.  Once more splits were
    asked for than the limit allows, or the runner is done, its answer is that of a decomposition
    in one go. -/
theorem afterCalls_agrees (F : Type) (g : Graph) (maxSteps : Nat) (batches : List Nat) :
    let r := (start g maxSteps).afterCalls batches
    (∃ k, IsLeast {j | j = batches.sum ∨ j = maxSteps ∨ g.FinishedAfter j} k ∧
      splitTimes k g = .ok r.graph ∧ r.steps = k) ∧
    r.maxSteps = maxSteps ∧
    r.pairs = r.graph.articulationPairs ∧
    (r.isDone = true ↔ r.graph.articulationPairs = []) ∧
    (∀ batch,
      let r' := (start g maxSteps).afterCalls (batches ++ [batch])
      let tooMany := r'.steps = maxSteps ∧ r'.pairs ≠ [] ∧ r'.steps < r.steps + batch
      (tooMany → Request.runBatch (F := F) r batch =
        (r', .error (.batch (.stepsUsedUp maxSteps r'.pairs.length)))) ∧
      (¬ tooMany → Request.runBatch (F := F) r batch = (r', .ok r'.progress))) ∧
    (maxSteps < batches.sum ∨ r.isDone = true →
      Request.decomposeWithin (F := F) maxSteps g = .ok (Request.runnerAnswer r)) := by
  intro r
  have start_made : SplitsMade g maxSteps 0 (start g maxSteps).steps :=
    ⟨Or.inl rfl, fun j _ => Nat.zero_le j⟩
  have start_done : (start g maxSteps).isDone = true ↔ (start g maxSteps).pairs = [] :=
    List.isEmpty_iff
  obtain ⟨h, hmade, hdone⟩ := (Reached.start g maxSteps).afterCalls start_made start_done batches
  rw [Nat.zero_add] at hmade
  have ends : maxSteps < batches.sum ∨ r.isDone = true → r.pairs = [] ∨ r.steps = maxSteps :=
    fun hend => hend.elim (h.ended hmade) fun hd => Or.inl (hdone.mp hd)
  exact ⟨⟨r.steps, hmade, h.graph, rfl⟩, h.maxSteps, h.pairs, h.pairs ▸ hdone,
    fun batch => h.runBatch_eq batch (afterCalls_concat _ batches batch),
    fun hend => h.decomposeWithin_eq hdone (ends hend)⟩

end Runner

end Drafting
