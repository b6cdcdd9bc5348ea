import Drafting.Graph.Split
import Drafting.Proofs.Graph.Components

namespace Drafting

open Relation

/-!
# Graphs side by side

What a split puts together are its pieces, side by side.  Each of them is connected, and no edge
leads out of it, so that the pieces are the components of the whole:

* `Graph.Parts ps` — graphs that can stand side by side: closed, connected, and without a common
  name;
* `Graph.Parts.connected_iff` — a node of a part is connected to the nodes of that part;
* `Graph.Parts.restrict_eq` — the whole restricted to the names of a part is that part;
* `Graph.Parts.exists_part`, `Graph.Parts.exists_component` — components and parts correspond.
-/

namespace Graph

variable {ps : List Graph} {p q c : Graph} {u v : String}

/-- Any number of graphs side by side. -/
def sideBySide (ps : List Graph) : Graph := ⟨ps.flatMap nodes, ps.flatMap edges⟩

/-- To append graphs one after the other is to put them side by side. -/
theorem foldl_append (ps : List Graph) (g : Graph) :
    ps.foldl append g = g.append (sideBySide ps) := by
  induction ps generalizing g with
  | nil => simp [append, sideBySide]
  | cons p ps ih => simp [ih, append, sideBySide]

theorem ofPieces_eq (ps : List Piece) : ofPieces ps = sideBySide (ps.map Piece.graph) := by
  rw [ofPieces, foldl_append]
  simp [append, empty]

theorem ids_sideBySide (ps : List Graph) : (sideBySide ps).ids = ps.flatMap ids := by
  simp only [sideBySide, ids, List.map_flatMap]
  rfl

theorem mem_ids_sideBySide : u ∈ (sideBySide ps).ids ↔ ∃ p ∈ ps, u ∈ p.ids := by
  rw [ids_sideBySide, List.mem_flatMap]

/-- Filtering graphs side by side for what only one of them has. -/
theorem filter_flatMap {α β : Type*} {f : α → List β} {xs ys : List α} {x : α} {keep : β → Bool}
    (hx : ∀ b ∈ f x, keep b = true) (hxs : ∀ y ∈ xs ++ ys, ∀ b ∈ f y, keep b = false) :
    ((xs ++ x :: ys).flatMap f).filter keep = f x := by
  have none : ∀ zs : List α, (∀ z ∈ zs, ∀ b ∈ f z, keep b = false) →
      (zs.flatMap f).filter keep = [] := by
    intro zs hzs
    rw [List.filter_eq_nil_iff]
    intro b hb
    obtain ⟨z, hz, hbz⟩ := List.mem_flatMap.mp hb
    simp [hzs z hz b hbz]
  rw [List.flatMap_append, List.flatMap_cons, List.filter_append, List.filter_append,
    none xs fun y hy => hxs y (List.mem_append_left _ hy),
    none ys fun y hy => hxs y (List.mem_append_right _ hy), List.filter_eq_self.mpr hx,
    List.nil_append, List.append_nil]

/-- Graphs that can stand side by side. -/
structure Parts (ps : List Graph) : Prop where
  nodup : (ps.flatMap ids).Nodup
  nonempty : ∀ p ∈ ps, p.ids ≠ []
  closed : ∀ p ∈ ps, p.Closed
  connected : ∀ p ∈ ps, ∀ u ∈ p.ids, ∀ v ∈ p.ids, p.Connected u v

namespace Parts

variable (h : Parts ps)
include h

theorem distinct : (sideBySide ps).Distinct := by
  rw [Distinct, ids_sideBySide]
  exact h.nodup

theorem part_distinct (hp : p ∈ ps) : p.Distinct := (List.nodup_flatMap.mp h.nodup).1 p hp

/-- The whole is a list of parts before, a part, and parts after it without a common name. -/
theorem split (hp : p ∈ ps) :
    ∃ before after, ps = before ++ p :: after ∧ ∀ q ∈ before ++ after, ∀ u ∈ q.ids, u ∉ p.ids := by
  obtain ⟨before, after, rfl⟩ := List.append_of_mem hp
  refine ⟨before, after, rfl, fun q hq u huq hup => ?_⟩
  have apart := (List.nodup_flatMap.mp h.nodup).2
  rw [List.pairwise_append, List.pairwise_cons] at apart
  rcases List.mem_append.mp hq with hq | hq
  · exact apart.2.2 q hq p List.mem_cons_self huq hup
  · exact apart.2.1.1 q hq hup huq

/-- A name belongs to one part. -/
theorem eq_of_mem (hp : p ∈ ps) (hq : q ∈ ps) (hup : u ∈ p.ids) (huq : u ∈ q.ids) : q = p := by
  obtain ⟨before, after, rfl, apart⟩ := h.split hp
  rcases List.mem_append.mp hq with hq | hq
  · exact absurd hup (apart q (List.mem_append_left _ hq) u huq)
  · rcases List.mem_cons.mp hq with rfl | hq
    · rfl
    · exact absurd hup (apart q (List.mem_append_right _ hq) u huq)

/-- Edges lead to nodes side by side if they do in each of the graphs. -/
theorem closed_sideBySide : (sideBySide ps).Closed := by
  intro e he
  obtain ⟨p, hp, hep⟩ := List.mem_flatMap.mp he
  have ends := h.closed p hp e hep
  exact ⟨mem_ids_sideBySide.mpr ⟨p, hp, ends.1⟩, mem_ids_sideBySide.mpr ⟨p, hp, ends.2⟩⟩

/-- No edge leads out of a part. -/
theorem joined_iff (hp : p ∈ ps) (hu : u ∈ p.ids) :
    (sideBySide ps).Joined u v ↔ p.Joined u v := by
  constructor
  · rintro ⟨-, -, e, he, hconn⟩
    obtain ⟨q, hq, heq⟩ := List.mem_flatMap.mp he
    have ends := h.closed q hq e heq
    -- the edge belongs to the part of its end `u`
    rcases Edge.connects_iff.mp hconn with ⟨rfl, rfl⟩ | ⟨rfl, rfl⟩
    · obtain rfl := h.eq_of_mem hp hq hu ends.1
      exact ⟨ends.1, ends.2, e, heq, hconn⟩
    · obtain rfl := h.eq_of_mem hp hq hu ends.2
      exact ⟨ends.2, ends.1, e, heq, hconn⟩
  · rintro ⟨hu, hv, e, he, hconn⟩
    exact ⟨mem_ids_sideBySide.mpr ⟨p, hp, hu⟩, mem_ids_sideBySide.mpr ⟨p, hp, hv⟩, e,
      List.mem_flatMap.mpr ⟨p, hp, he⟩, hconn⟩

/-- **Parts are classes.**  A node is connected to the nodes of its own part. -/
theorem connected_iff (hp : p ∈ ps) (hu : u ∈ p.ids) :
    (sideBySide ps).Connected u v ↔ v ∈ p.ids := by
  constructor
  · intro path
    exact mem_of_path (S := fun x => x ∈ p.ids)
      (fun x y hx step => ((h.joined_iff hp hx).mp step).2.1) path hu
  · intro hv
    have inside := h.connected p hp u hu v hv
    exact ReflTransGen.mono (fun x y step => (h.joined_iff hp step.1).mpr step) _ _ inside

theorem isComponent (hp : p ∈ ps) : (sideBySide ps).IsComponent p.idSet := by
  obtain ⟨u, hu⟩ := List.exists_mem_of_ne_nil _ (h.nonempty p hp)
  refine ⟨u, mem_ids_sideBySide.mpr ⟨p, hp, hu⟩, fun v => ?_⟩
  rw [mem_idSet, h.connected_iff hp hu]

/-- The components of the whole are the parts. -/
theorem isComponent_iff {s : Finset String} :
    (sideBySide ps).IsComponent s ↔ ∃ p ∈ ps, p.idSet = s := by
  constructor
  · intro hs
    obtain ⟨u, hu⟩ := hs.nonempty
    obtain ⟨p, hp, hup⟩ := mem_ids_sideBySide.mp (hs.mem_ids hu)
    exact ⟨p, hp, (h.isComponent hp).eq_of_mem hs (mem_idSet.mpr hup) hu⟩
  · rintro ⟨p, hp, rfl⟩
    exact h.isComponent hp

/-- **Restriction to a part.**  It gives the part back. -/
theorem restrict_eq (hp : p ∈ ps) : (sideBySide ps).restrict p.idSet = p := by
  obtain ⟨before, after, rfl, apart⟩ := h.split hp
  have nodes_eq : ((before ++ p :: after).flatMap nodes).filter (fun n => n.id ∈ p.idSet)
      = p.nodes := by
    refine filter_flatMap (fun n hn => ?_) fun q hq n hn => ?_
    · exact decide_eq_true (mem_idSet.mpr (List.mem_map_of_mem hn))
    · exact decide_eq_false fun hmem => apart q hq n.id (List.mem_map_of_mem hn) (mem_idSet.mp hmem)
  have edges_eq : ((before ++ p :: after).flatMap edges).filter
      (fun e => e.source ∈ p.idSet ∧ e.target ∈ p.idSet) = p.edges := by
    refine filter_flatMap (fun e he => ?_) fun q hq e he => ?_
    · have ends := h.closed p (by simp) e he
      exact decide_eq_true ⟨mem_idSet.mpr ends.1, mem_idSet.mpr ends.2⟩
    · have ends := h.closed q (by
        rcases List.mem_append.mp hq with hq | hq <;> simp [hq]) e he
      exact decide_eq_false fun hmem => apart q hq e.source ends.1 (mem_idSet.mp hmem.1)
  rw [restrict, sideBySide, nodes_eq, edges_eq]

/-- A component of the whole has the nodes and the edges of a part. -/
theorem perm_of_idSet_eq (hp : p ∈ ps) (hc : c ∈ (sideBySide ps).components)
    (hids : p.idSet = c.idSet) : c.nodes.Perm p.nodes ∧ c.edges = p.edges := by
  have nodes_perm := h.distinct.component_nodes_perm_restrict hc
  have edges_eq := h.distinct.component_edges_eq_restrict hc
  -- both are the whole, restricted to the same names
  rw [← hids, h.restrict_eq hp] at nodes_perm edges_eq
  exact ⟨nodes_perm, edges_eq⟩

theorem exists_part (hc : c ∈ (sideBySide ps).components) :
    ∃ p ∈ ps, c.nodes.Perm p.nodes ∧ c.edges = p.edges := by
  obtain ⟨p, hp, hids⟩ := h.isComponent_iff.mp (h.distinct.component_isComponent hc)
  exact ⟨p, hp, h.perm_of_idSet_eq hp hc hids⟩

theorem exists_component (hp : p ∈ ps) :
    ∃ c ∈ (sideBySide ps).components, c.nodes.Perm p.nodes ∧ c.edges = p.edges := by
  obtain ⟨c, hc, hids⟩ := h.distinct.isComponent_iff.mp (h.isComponent hp)
  exact ⟨c, hc, h.perm_of_idSet_eq hp hc hids.symm⟩

end Parts

end Graph

end Drafting
