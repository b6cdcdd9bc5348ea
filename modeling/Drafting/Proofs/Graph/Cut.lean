import Drafting.Proofs.Graph.CloneNames
import Drafting.Proofs.Graph.SideBySide

namespace Drafting

open Relation

/-!
# The cut at a node

A cut takes one node out and gives each component that was joined to it a clone.  This file says
what a piece is, without the order in which the algorithm goes:

* `Edge.Attaches p s` — an edge leads from the node `p` to a member of `s`;
* `Graph.attached` — a component with its clone and the edges moved to the clone;
* `Graph.piece_eq` — a piece is that, and perhaps a link;
* `Graph.pieces_parts` — the pieces of a cut stand side by side.
-/

/-- The clone of a node in component `i`. -/
def Node.clone (n : Node) (i : Nat) : Node := ⟨Graph.cloneId n.id i, n.kind⟩

namespace Edge

/-- An edge leads from the node `p` to a member of `s`. -/
def Attaches (e : Edge) (p : String) (s : Finset String) : Prop :=
  (e.source = p ∧ e.target ∈ s) ∨ (e.target = p ∧ e.source ∈ s)

instance (e : Edge) (p : String) (s : Finset String) : Decidable (e.Attaches p s) :=
  inferInstanceAs (Decidable (_ ∨ _))

/-- The same edge between other nodes. -/
def rename (f : String → String) (e : Edge) : Edge :=
  { e with source := f e.source, target := f e.target }

/-- An edge attaches a node to some names iff it joins the node to one of them. -/
theorem attaches_iff {e : Edge} {p : String} {s : Finset String} :
    e.Attaches p s ↔ ∃ v ∈ s, e.connects p v = true := by
  simp only [Attaches, connects_iff]
  constructor
  · rintro (⟨hp, hs⟩ | ⟨hp, hs⟩)
    · exact ⟨e.target, hs, Or.inl ⟨hp, rfl⟩⟩
    · exact ⟨e.source, hs, Or.inr ⟨rfl, hp⟩⟩
  · rintro ⟨v, hv, ⟨hp, rfl⟩ | ⟨rfl, hp⟩⟩
    · exact Or.inl ⟨hp, hv⟩
    · exact Or.inr ⟨hp, hv⟩

theorem Attaches.source_mem {e : Edge} {p : String} {s : Finset String} (h : e.Attaches p s) :
    e.source = p ∨ e.source ∈ s := h.imp And.left And.right

theorem Attaches.target_mem {e : Edge} {p : String} {s : Finset String} (h : e.Attaches p s) :
    e.target = p ∨ e.target ∈ s := h.symm.imp And.left And.right

theorem rename_congr {e : Edge} {f f' : String → String} (hsource : f e.source = f' e.source)
    (htarget : f e.target = f' e.target) : e.rename f = e.rename f' := by
  rw [rename, rename, hsource, htarget]

end Edge

namespace Graph

variable {g c : Graph} {p : Node} {edges : List Edge} {link : Option PairLink} {i : Nat}

/-! ### One piece -/

/-- The edges between `p` and the members of `s`, moved to the clone of `p`. -/
def movedEdges (edges : List Edge) (p : Node) (s : Finset String) (i : Nat) : List Edge :=
  (edges.filter (·.Attaches p.id s)).map (·.rename (Function.update id p.id (p.clone i).id))

/-- The number of the clone in a component: there is none if no edge leads to it. -/
def cloneNumber (edges : List Edge) (p : Node) (s : Finset String) (i : Nat) : Option Nat :=
  if ∃ e ∈ edges, e.Attaches p.id s then some i else none

/-- A component with its clone of `p`. -/
def attached (edges : List Edge) (p : Node) (c : Graph) (i : Nat) : Graph where
  nodes := c.nodes ++ ((cloneNumber edges p c.idSet i).map p.clone).toList
  edges := c.edges ++ movedEdges edges p c.idSet i

/-- The number of a clone is that of its component. -/
theorem eq_of_mem_cloneNumber {s : Finset String} {k : Nat} (h : k ∈ cloneNumber edges p s i) :
    k = i := by
  unfold cloneNumber at h
  split at h
  · exact (Option.some.inj h).symm
  · cases h

/-- A component gets a clone iff an edge leads to it. -/
theorem cloneNumber_isSome {s : Finset String} :
    (cloneNumber edges p s i).isSome ↔ ∃ e ∈ edges, e.Attaches p.id s := by
  unfold cloneNumber
  split
  · next h => exact ⟨fun _ => h, fun _ => rfl⟩
  · next h => exact ⟨fun hsome => absurd hsome (by simp), fun h' => absurd h' h⟩

/-- What is moved are the edges that lead from the pivot to a member. -/
theorem filterMap_reattach? (hp : p.id ∉ c.ids) :
    edges.filterMap (reattach? p.id (cloneId p.id i) (c.nodes.map Node.id))
      = movedEdges edges p c.idSet i := by
  have fixed : ∀ v ∈ c.ids, Function.update id p.id (p.clone i).id v = v := by
    intro v hv
    exact Function.update_of_ne (fun heq : v = p.id => hp (heq ▸ hv)) _ _
  induction edges with
  | nil => rfl
  | cons e es ih =>
    rw [List.filterMap_cons, ih, movedEdges, movedEdges, List.filter_cons]
    unfold reattach?
    -- the pivot is the source, or the target, or neither of the two
    by_cases hsource : e.source = p.id ∧ e.target ∈ c.nodes.map Node.id
    · have hatt : e.Attaches p.id c.idSet := Or.inl ⟨hsource.1, mem_idSet.mpr hsource.2⟩
      rw [if_pos hsource, if_pos (decide_eq_true hatt), List.map_cons, Edge.rename,
        fixed e.target hsource.2, hsource.1, Function.update_self]
      rfl
    · rw [if_neg hsource]
      by_cases htarget : e.target = p.id ∧ e.source ∈ c.nodes.map Node.id
      · have hatt : e.Attaches p.id c.idSet := Or.inr ⟨htarget.1, mem_idSet.mpr htarget.2⟩
        rw [if_pos htarget, if_pos (decide_eq_true hatt), List.map_cons, Edge.rename,
          fixed e.source htarget.2, htarget.1, Function.update_self]
        rfl
      · have hatt : ¬ e.Attaches p.id c.idSet := by
          rintro (⟨hs, ht⟩ | ⟨ht, hs⟩)
          · exact hsource ⟨hs, mem_idSet.mp ht⟩
          · exact htarget ⟨ht, mem_idSet.mp hs⟩
        rw [if_neg htarget, if_neg (by simpa using hatt)]

theorem movedEdges_eq_nil {s : Finset String} :
    movedEdges edges p s i = [] ↔ ¬ ∃ e ∈ edges, e.Attaches p.id s := by
  simp [movedEdges]

/-- **A piece.**  It is the component with its clone and, if it has one, perhaps a link. -/
theorem piece_eq (hp : p.id ∉ c.ids) :
    piece edges p link c i =
      ⟨⟨(attached edges p c i).nodes, (attached edges p c i).edges ++
          if (cloneNumber edges p c.idSet i).isSome then
            link.elim [] ((attached edges p c i).links (p.clone i).id i)
          else []⟩,
        (cloneNumber edges p c.idSet i).map fun k => (p.clone k).id⟩ := by
  unfold piece
  dsimp only
  rw [filterMap_reattach? hp]
  by_cases hatt : ∃ e ∈ edges, e.Attaches p.id c.idSet
  · have number : cloneNumber edges p c.idSet i = some i := if_pos hatt
    split
    · next hnil => exact absurd hatt (movedEdges_eq_nil.mp hnil)
    · next hmoved =>
      simp [attached, number, Node.clone]
  · have number : cloneNumber edges p c.idSet i = none := if_neg hatt
    have moved : movedEdges edges p c.idSet i = [] := movedEdges_eq_nil.mpr hatt
    simp [attached, number, moved]

/-! ### Its nodes and edges -/

theorem ids_attached : (attached edges p c i).ids
    = c.ids ++ ((cloneNumber edges p c.idSet i).map fun k => (p.clone k).id).toList := by
  simp only [ids, attached, List.map_append]
  cases cloneNumber edges p c.idSet i <;> rfl

/-- After a cut a component has its own names and, if an edge leads to it, the name of a clone. -/
theorem mem_ids_attached {u : String} : u ∈ (attached edges p c i).ids ↔
    u ∈ c.ids ∨ ((∃ e ∈ edges, e.Attaches p.id c.idSet) ∧ u = (p.clone i).id) := by
  rw [ids_attached, List.mem_append]
  apply or_congr_right
  unfold cloneNumber
  split
  · next h => simp [h]
  · next h => simp [h]

/-- A moved edge leads from the clone to a member. -/
theorem connects_of_mem_movedEdges {s : Finset String} {e : Edge} (hp : p.id ∉ s)
    (he : e ∈ movedEdges edges p s i) :
    (∃ e ∈ edges, e.Attaches p.id s) ∧ ∃ v ∈ s, e.connects (p.clone i).id v = true := by
  obtain ⟨e, hmem, rfl⟩ := List.mem_map.mp he
  obtain ⟨hmem, hatt⟩ := List.mem_filter.mp hmem
  have fixed : ∀ v ∈ s, Function.update id p.id (p.clone i).id v = v := by
    intro v hv
    exact Function.update_of_ne (fun heq : v = p.id => hp (heq ▸ hv)) _ _
  have hatt := of_decide_eq_true hatt
  refine ⟨⟨e, hmem, hatt⟩, ?_⟩
  simp only [Edge.connects_iff, Edge.rename]
  rcases hatt with ⟨hsource, htarget⟩ | ⟨htarget, hsource⟩
  · refine ⟨e.target, htarget, Or.inl ⟨?_, fixed _ htarget⟩⟩
    rw [hsource, Function.update_self]
  · refine ⟨e.source, hsource, Or.inr ⟨fixed _ hsource, ?_⟩⟩
    rw [htarget, Function.update_self]

/-- If an edge leads to a component, an edge joins the clone to it. -/
theorem exists_mem_movedEdges {s : Finset String} (hp : p.id ∉ s)
    (h : ∃ e ∈ edges, e.Attaches p.id s) :
    ∃ e ∈ movedEdges edges p s i, ∃ v ∈ s, e.connects (p.clone i).id v = true := by
  obtain ⟨e, he⟩ := List.exists_mem_of_ne_nil _ fun hnil : movedEdges edges p s i = [] =>
    movedEdges_eq_nil.mp hnil h
  exact ⟨e, he, (connects_of_mem_movedEdges hp he).2⟩

/-- After a cut the edges of a component lead to its own nodes and to its clone. -/
theorem attached_closed (hc : c.Closed) (hp : p.id ∉ c.ids) : (attached edges p c i).Closed := by
  have member : ∀ v ∈ c.idSet, v ∈ (attached edges p c i).ids :=
    fun v hv => mem_ids_attached.mpr (Or.inl (mem_idSet.mp hv))
  intro e he
  rcases List.mem_append.mp he with he | he
  · exact ⟨member _ (mem_idSet.mpr (hc e he).1), member _ (mem_idSet.mpr (hc e he).2)⟩
  · obtain ⟨hatt, v, hv, hconn⟩ := connects_of_mem_movedEdges (by simpa using hp) he
    have clone : (p.clone i).id ∈ (attached edges p c i).ids :=
      mem_ids_attached.mpr (Or.inr ⟨hatt, rfl⟩)
    rcases Edge.connects_iff.mp hconn with ⟨hs, ht⟩ | ⟨hs, ht⟩
    · rw [hs, ht]
      exact ⟨clone, member v hv⟩
    · rw [hs, ht]
      exact ⟨member v hv, clone⟩

/-- The clone hangs on to its component. -/
theorem attached_connected
    (hc : ∀ u ∈ c.ids, ∀ v ∈ c.ids, c.Connected u v) (hp : p.id ∉ c.ids) {u v : String}
    (hu : u ∈ (attached edges p c i).ids) (hv : v ∈ (attached edges p c i).ids) :
    (attached edges p c i).Connected u v := by
  have inside : ∀ x ∈ c.ids, ∀ y ∈ c.ids, (attached edges p c i).Connected x y := fun x hx y hy =>
    (hc x hx y hy).mono (fun z hz => mem_ids_attached.mpr (Or.inl hz))
      fun e he => List.mem_append_left _ he
  have toMember : ∀ x ∈ (attached edges p c i).ids,
      ∃ y ∈ c.ids, (attached edges p c i).Connected x y := by
    intro x hx
    rcases mem_ids_attached.mp hx with hmem | ⟨hatt, rfl⟩
    · exact ⟨x, hmem, .refl⟩
    · -- the clone is there because an edge leads from it to a member
      obtain ⟨e, he, y, hy, hconn⟩ :=
        exists_mem_movedEdges (i := i) (by simpa using hp : p.id ∉ c.idSet) hatt
      have hy := mem_idSet.mp hy
      exact ⟨y, hy, .single ⟨hx, mem_ids_attached.mpr (Or.inl hy), e,
        List.mem_append_right _ he, hconn⟩⟩
  obtain ⟨x, hx, hux⟩ := toMember u hu
  obtain ⟨y, hy, hvy⟩ := toMember v hv
  exact hux.trans ((inside x hx y hy).trans hvy.symm)

/-- A link leads from the clone to a partner in the component. -/
theorem mem_links {clone : String} {link : PairLink} {e : Edge} (he : e ∈ g.links clone i link) :
    e.source = clone ∧ e.target ∈ g.ids := by
  unfold links at he
  split at he
  · split at he
    · next partner hfind =>
      rw [List.mem_singleton] at he
      subst he
      exact ⟨rfl, List.mem_map_of_mem (List.mem_of_find?_eq_some hfind)⟩
    · cases he
  · cases he

/-- Links change neither the nodes of a piece nor its being closed and connected. -/
theorem piece_ids (hp : p.id ∉ c.ids) :
    (piece edges p link c i).graph.ids = (attached edges p c i).ids := by
  rw [piece_eq hp]
  rfl

theorem mem_piece_edges (hp : p.id ∉ c.ids) {e : Edge} (he : e ∈ (attached edges p c i).edges) :
    e ∈ (piece edges p link c i).graph.edges := by
  rw [piece_eq hp]
  exact List.mem_append_left _ he

/-- A link leads to nodes of the piece too. -/
theorem piece_closed (hc : c.Closed) (hp : p.id ∉ c.ids) :
    (piece edges p link c i).graph.Closed := by
  intro e he
  rw [piece_ids hp]
  rw [piece_eq hp] at he
  rcases List.mem_append.mp he with he | he
  · exact attached_closed hc hp e he
  · split at he
    · next hsome =>
      cases link with
      | none => cases he
      | some link =>
        obtain ⟨hsource, htarget⟩ := mem_links he
        rw [hsource]
        exact ⟨mem_ids_attached.mpr (Or.inr ⟨cloneNumber_isSome.mp hsome, rfl⟩), htarget⟩
    · cases he

/-- A piece holds together, as its component does. -/
theorem piece_connected (hc : ∀ u ∈ c.ids, ∀ v ∈ c.ids, c.Connected u v) (hp : p.id ∉ c.ids)
    {u v : String} (hu : u ∈ (piece edges p link c i).graph.ids)
    (hv : v ∈ (piece edges p link c i).graph.ids) :
    (piece edges p link c i).graph.Connected u v := by
  rw [piece_ids hp] at hu hv
  refine (attached_connected hc hp hu hv).mono (fun x hx => ?_) fun e he => mem_piece_edges hp he
  rw [piece_ids hp]
  exact hx

/-! ### Pieces side by side -/

/-- There is a piece for each component of the graph without the node. -/
theorem mem_pieces {q : Piece} : q ∈ g.pieces p link ↔
    ∃ i c, (g.without p.id).components[i]? = some c ∧ piece g.edges p link c i = q := by
  rw [pieces, List.mem_mapIdx]
  constructor
  · rintro ⟨i, hi, rfl⟩
    exact ⟨i, _, List.getElem?_eq_getElem hi, rfl⟩
  · rintro ⟨i, c, hc, rfl⟩
    obtain ⟨hi, rfl⟩ := List.getElem?_eq_some_iff.mp hc
    exact ⟨i, hi, rfl⟩

/-- The graphs of the pieces, one for each component. -/
theorem mem_map_pieces {r : Graph} : r ∈ (g.pieces p link).map Piece.graph ↔
    ∃ i c, (g.without p.id).components[i]? = some c ∧ (piece g.edges p link c i).graph = r := by
  rw [List.mem_map]
  constructor
  · rintro ⟨piece, hpiece, rfl⟩
    obtain ⟨i, c, hi, rfl⟩ := mem_pieces.mp hpiece
    exact ⟨i, c, hi, rfl⟩
  · rintro ⟨i, c, hi, rfl⟩
    exact ⟨_, mem_pieces.mpr ⟨i, c, hi, rfl⟩, rfl⟩

theorem pivot_not_mem_component (hc : c ∈ (g.without p.id).components) : p.id ∉ c.ids :=
  fun hp => (mem_ids_without.mp (ids_subset_of_component hc hp)).2 rfl

theorem Distinct.component_closed (hg : g.Distinct) (hc : c ∈ g.components) : c.Closed :=
  fun _ he => ((hg.mem_component_edges hc).mp he).2

/-- No name occurs twice in the pieces of a cut. -/
theorem pieces_nodup (hg : g.Distinct) (hfresh : ∀ i, (p.clone i).id ∉ g.ids) :
    (((g.pieces p link).map Piece.graph).flatMap ids).Nodup := by
  have hrest := hg.without p.id
  have clone_not_mem : ∀ c ∈ (g.without p.id).components, ∀ i, (p.clone i).id ∉ c.ids :=
    fun c hc i hmem => hfresh i (mem_ids_without.mp (ids_subset_of_component hc hmem)).1
  have apart := (List.nodup_flatMap.mp ((g.without p.id).components_ids.nodup_iff.mpr hrest)).2
  rw [List.pairwise_iff_getElem] at apart
  rw [List.nodup_flatMap]
  constructor
  · -- one piece: the clone is new to its component
    intro q hq
    obtain ⟨piece, hpiece, rfl⟩ := List.mem_map.mp hq
    obtain ⟨i, c, hi, rfl⟩ := mem_pieces.mp hpiece
    have hc := List.mem_of_getElem? hi
    rw [piece_ids (pivot_not_mem_component hc), ids_attached, List.nodup_append]
    refine ⟨hrest.component_distinct hc, Option.pairwise_toList, ?_⟩
    rintro u hu v hv rfl
    obtain ⟨k, -, rfl⟩ := Option.map_eq_some_iff.mp (Option.mem_toList.mp hv)
    exact clone_not_mem _ hc k hu
  · -- two pieces: their components are apart, and so are the clones
    rw [List.pairwise_iff_getElem]
    intro i j hi hj hij
    simp only [List.length_map, pieces, List.length_mapIdx] at hi hj
    have hci := List.getElem_mem hi
    have hcj := List.getElem_mem hj
    simp only [List.getElem_map, pieces, List.getElem_mapIdx, Function.onFun]
    intro u hui huj
    rw [piece_ids (pivot_not_mem_component hci), mem_ids_attached] at hui
    rw [piece_ids (pivot_not_mem_component hcj), mem_ids_attached] at huj
    rcases hui with hui | ⟨-, rfl⟩ <;> rcases huj with huj | ⟨-, heq⟩
    · exact apart i j hi hj hij hui huj
    · exact clone_not_mem _ hci j (heq ▸ hui)
    · exact clone_not_mem _ hcj i huj
    · -- clones with different numbers have different names
      exact absurd (cloneId_inj.mp heq).2 (ne_of_lt hij)

/-- **Pieces.**  The pieces of a cut stand side by side if the names of the clones are new. -/
theorem pieces_parts (hg : g.Distinct) (hfresh : ∀ i, (p.clone i).id ∉ g.ids) :
    Parts ((g.pieces p link).map Piece.graph) := by
  have hrest := hg.without p.id
  refine { nodup := pieces_nodup hg hfresh, nonempty := ?_, closed := ?_, connected := ?_ }
  · intro q hq hnil
    obtain ⟨i, c, hi, rfl⟩ := mem_map_pieces.mp hq
    have hc := List.mem_of_getElem? hi
    rw [piece_ids (pivot_not_mem_component hc), ids_attached, List.append_eq_nil_iff] at hnil
    exact ids_ne_nil_of_component hc hnil.1
  · intro q hq
    obtain ⟨i, c, hi, rfl⟩ := mem_map_pieces.mp hq
    have hc := List.mem_of_getElem? hi
    exact piece_closed (hrest.component_closed hc) (pivot_not_mem_component hc)
  · intro q hq u hu v hv
    obtain ⟨i, c, hi, rfl⟩ := mem_map_pieces.mp hq
    have hc := List.mem_of_getElem? hi
    exact piece_connected (fun x hx y hy => hrest.component_connected hc hx hy)
      (pivot_not_mem_component hc) hu hv

end Graph

end Drafting
