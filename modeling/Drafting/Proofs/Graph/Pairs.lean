import Mathlib
import Drafting.Proofs.Graph.Connectivity

namespace Drafting

/-!
# Articulation pairs

A pair is found from one of its nodes or from both: where one of them is removed, the other one is
an articulation point.  It is listed once, with the smaller name first.  Names are compared
character by character, which for their bytes in UTF-8 comes to the same.

* `Graph.mem_articulationPairs` — what the list holds, for any graph;
* `Graph.articulationPairs_exact` — the pairs of a graph whose names are distinct.
-/

namespace Graph

variable {g : Graph} {a b u v : String}

/-! ### Any graph -/

theorem mem_ids_of_mem_articulationPoints (h : a ∈ g.articulationPoints) : a ∈ g.ids := by
  obtain ⟨i, -, rfl⟩ := List.mem_map.mp h
  exact idAt_mem i

/-- Sorting two names. -/
theorem sortedPair_eq_iff (hne : u ≠ v) :
    sortedPair u v = (a, b) ↔ a < b ∧ (u = a ∧ v = b ∨ u = b ∧ v = a) := by
  unfold sortedPair
  split
  case isTrue h =>
    rw [Prod.mk.injEq]
    constructor
    · rintro ⟨rfl, rfl⟩
      exact ⟨h, .inr ⟨rfl, rfl⟩⟩
    · rintro ⟨hlt, ⟨rfl, rfl⟩ | ⟨rfl, rfl⟩⟩
      · exact absurd h (lt_asymm hlt)
      · exact ⟨rfl, rfl⟩
  case isFalse h =>
    have less : u < v := (lt_or_gt_of_ne hne).resolve_right h
    rw [Prod.mk.injEq]
    constructor
    · rintro ⟨rfl, rfl⟩
      exact ⟨less, .inl ⟨rfl, rfl⟩⟩
    · rintro ⟨hlt, ⟨rfl, rfl⟩ | ⟨rfl, rfl⟩⟩
      · exact ⟨rfl, rfl⟩
      · exact absurd less (lt_asymm hlt)

/-- A pair is listed iff one of its nodes is an articulation point once the other is removed. -/
theorem mem_articulationPairs :
    (a, b) ∈ g.articulationPairs ↔ a < b ∧
      (a ∈ g.ids ∧ b ∈ (g.without a).articulationPoints ∨
        b ∈ g.ids ∧ a ∈ (g.without b).articulationPoints) := by
  simp only [articulationPairs, List.mem_eraseDups, List.mem_flatMap, List.mem_map]
  constructor
  · rintro ⟨node, hnode, w, hw, hpair⟩
    have hid : node.id ∈ g.ids := List.mem_map_of_mem hnode
    have hne := (mem_ids_without.mp (mem_ids_of_mem_articulationPoints hw)).2
    -- the node that was removed comes first or second in the pair
    obtain ⟨hlt, ⟨rfl, rfl⟩ | ⟨rfl, rfl⟩⟩ := (sortedPair_eq_iff hne.symm).mp hpair
    · exact ⟨hlt, .inl ⟨hid, hw⟩⟩
    · exact ⟨hlt, .inr ⟨hid, hw⟩⟩
  · rintro ⟨hlt, ⟨ha, hb⟩ | ⟨hb, ha⟩⟩
    · obtain ⟨node, hnode, rfl⟩ := List.mem_map.mp ha
      exact ⟨node, hnode, b, hb, (sortedPair_eq_iff hlt.ne).mpr ⟨hlt, .inl ⟨rfl, rfl⟩⟩⟩
    · obtain ⟨node, hnode, rfl⟩ := List.mem_map.mp hb
      exact ⟨node, hnode, a, ha, (sortedPair_eq_iff hlt.ne').mpr ⟨hlt, .inr ⟨rfl, rfl⟩⟩⟩

/-- The nodes of a pair are there, and they are two. -/
theorem mem_ids_of_mem_articulationPairs (h : (a, b) ∈ g.articulationPairs) :
    a ∈ g.ids ∧ b ∈ g.ids ∧ a ≠ b := by
  obtain ⟨hlt, ⟨ha, hb⟩ | ⟨hb, ha⟩⟩ := mem_articulationPairs.mp h
  · exact ⟨ha, (mem_ids_without.mp (mem_ids_of_mem_articulationPoints hb)).1, hlt.ne⟩
  · exact ⟨(mem_ids_without.mp (mem_ids_of_mem_articulationPoints ha)).1, hb, hlt.ne⟩

/-- No element is left twice. -/
theorem nodup_eraseDups {α : Type*} [BEq α] [LawfulBEq α] (l : List α) : l.eraseDups.Nodup := by
  cases l with
  | nil => exact List.nodup_nil
  | cons x rest =>
    rw [List.eraseDups_cons, List.nodup_cons]
    exact ⟨by simp [List.mem_eraseDups], nodup_eraseDups _⟩
termination_by l.length
decreasing_by
  have := List.length_filter_le (fun y => !y == x) rest
  rw [List.length_cons]
  omega

/-! ### Graphs with distinct names -/

/-- Of a pair one node separates others once the other node is removed. -/
theorem Distinct.mem_articulationPairs (h : g.Distinct) :
    (a, b) ∈ g.articulationPairs ↔ a ∈ g.ids ∧ b ∈ g.ids ∧ a < b ∧
      ((g.without a).IsCutVertex b ∨ (g.without b).IsCutVertex a) := by
  rw [Graph.mem_articulationPairs, (h.without a).mem_articulationPoints,
    (h.without b).mem_articulationPoints]
  constructor
  · rintro ⟨hlt, ⟨ha, hcut⟩ | ⟨hb, hcut⟩⟩
    · exact ⟨ha, (mem_ids_without.mp hcut.1).1, hlt, .inl hcut⟩
    · exact ⟨(mem_ids_without.mp hcut.1).1, hb, hlt, .inr hcut⟩
  · rintro ⟨ha, hb, hlt, hcut | hcut⟩
    · exact ⟨hlt, .inl ⟨ha, hcut⟩⟩
    · exact ⟨hlt, .inr ⟨hb, hcut⟩⟩

/-- **Articulation pairs.**  Each two nodes of which one is a cut vertex of the graph without the
    other are listed once, the smaller name first, and nothing else is. -/
theorem articulationPairs_exact (g : Graph) (h : g.Distinct) :
    g.articulationPairs.Nodup ∧ ∀ a b, (a, b) ∈ g.articulationPairs ↔
      a ∈ g.ids ∧ b ∈ g.ids ∧ a < b ∧
        ((g.without a).IsCutVertex b ∨ (g.without b).IsCutVertex a) :=
  ⟨nodup_eraseDups _, fun _ _ => h.mem_articulationPairs⟩

/-- A ring of four nodes, and a fifth one at the last of them. -/
def ringWithTail : Graph where
  nodes := [⟨"d", .point⟩, ⟨"c", .point⟩, ⟨"b", .point⟩, ⟨"a", .point⟩, ⟨"e", .line⟩]
  edges := [⟨"dc", .distance, "d", "c"⟩, ⟨"cb", .distance, "c", "b"⟩, ⟨"ba", .distance, "b", "a"⟩,
    ⟨"ad", .distance, "a", "d"⟩, ⟨"ae", .connection, "a", "e"⟩]

/-- The pairs of opposite nodes are found from both nodes, the others from one alone. -/
theorem articulationPairs_ringWithTail :
    ringWithTail.Distinct ∧
      ringWithTail.articulationPairs = [("a", "d"), ("b", "d"), ("a", "c"), ("a", "b")] ∧
      ringWithTail.articulationPairs.Nodup ∧ ∀ a b, (a, b) ∈ ringWithTail.articulationPairs ↔
        a ∈ ringWithTail.ids ∧ b ∈ ringWithTail.ids ∧ a < b ∧
          ((ringWithTail.without a).IsCutVertex b ∨ (ringWithTail.without b).IsCutVertex a) := by
  have distinct : ringWithTail.Distinct := by decide
  exact ⟨distinct, by cbv, articulationPairs_exact ringWithTail distinct⟩

end Graph

end Drafting
