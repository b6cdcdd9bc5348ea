import Drafting.Graph.Components
import Drafting.Proofs.Graph.Connectivity

namespace Drafting

open Relation

/-!
# Components are the classes of connected nodes

The exploration from a place keeps four things apart: the places marked before it began, the stack,
the places found, and the rest (`Exploring`).  When the stack is empty the places found are closed
under adjacency, so that they are all that can be reached.  For the graph this means:

* `Graph.components_nodes` — the components share the nodes out among them;
* `Graph.Distinct.mem_component_iff` — a component holds what is connected to one of its nodes;
* `Graph.Distinct.component_edges` — its edges are those of the graph with both ends in it;
* `Graph.Distinct.isComponent_iff` — as sets of names, they are the classes of connected nodes.
-/

namespace Adjacency

variable {n : Nat} {adjacency : Adjacency n}

/-! ### One exploration -/

/-- Where an exploration from `start` stands; the places `old` were marked before it. -/
structure Exploring (adjacency : Adjacency n) (old : Fin n → Prop) (start : Fin n)
    (marks : Vector Bool n) (stack found : List (Fin n)) : Prop where
  marked : ∀ x, marks.get x = true ↔ old x ∨ x ∈ stack ++ found
  nodup : (stack ++ found).Nodup
  fresh : ∀ x ∈ stack ++ found, ¬ old x
  reached : ∀ x ∈ stack ++ found, ReflTransGen adjacency.Adj start x
  closed : ∀ x ∈ found, ∀ y, adjacency.Adj x y → marks.get y = true
  start_mem : start ∈ stack ++ found

/-- What is marked after one more place has been marked. -/
theorem get_set_true (marks : Vector Bool n) (j x : Fin n) :
    (marks.set j true j.isLt).get x = true ↔ marks.get x = true ∨ x = j := by
  rw [get_set]
  split
  · next heq => simp [heq]
  · next hne =>
    have : x ≠ j := fun heq => hne heq.symm
    simp [this]

/-- A visit marks the place visited, and no other. -/
theorem get_visit (j x : Fin n) (s : Vector Bool n × List (Fin n)) :
    (visit j s).1.get x = true ↔ s.1.get x = true ∨ x = j := by
  unfold visit
  split
  · next hj =>
    refine ⟨Or.inl, ?_⟩
    rintro (hx | rfl)
    · exact hx
    · exact hj
  · exact get_set_true s.1 j x

/-- The places of `js` are marked, besides those that were. -/
theorem get_foldr_visit (js : List (Fin n)) (s : Vector Bool n × List (Fin n)) (x : Fin n) :
    (js.foldr visit s).1.get x = true ↔ s.1.get x = true ∨ x ∈ js := by
  induction js with
  | nil => simp
  | cons j js ih =>
    rw [List.foldr_cons, get_visit, ih, List.mem_cons, or_assoc, or_comm (a := x ∈ js)]

/-- The places among `js` that are not marked go on the stack, once each. -/
theorem foldr_visit (js : List (Fin n)) (marks : Vector Bool n) (stack : List (Fin n)) :
    ∃ new, (js.foldr visit (marks, stack)).2 = new ++ stack ∧ new.Nodup ∧
      ∀ x, x ∈ new ↔ x ∈ js ∧ marks.get x = false := by
  induction js with
  | nil => exact ⟨[], rfl, List.nodup_nil, by simp⟩
  | cons j js ih =>
    obtain ⟨new, hstack, hnodup, hmem⟩ := ih
    have hmarks := get_foldr_visit js (marks, stack) j
    rw [List.foldr_cons]
    generalize js.foldr visit (marks, stack) = s at hstack hmarks ⊢
    unfold visit
    by_cases hj : s.1.get j = true
    · -- marked before, or met before in the list: nothing new
      rw [if_pos hj]
      have old : marks.get j = false → j ∈ js := fun hfalse =>
        (hmarks.mp hj).resolve_left (by simp [hfalse])
      refine ⟨new, hstack, hnodup, fun x => ?_⟩
      rw [hmem, List.mem_cons]
      constructor
      · exact fun hx => ⟨Or.inr hx.1, hx.2⟩
      · rintro ⟨rfl | hx, hfalse⟩
        · exact ⟨old hfalse, hfalse⟩
        · exact ⟨hx, hfalse⟩
    · rw [if_neg hj]
      rw [hmarks, not_or, Bool.not_eq_true] at hj
      refine ⟨j :: new, by rw [hstack, List.cons_append], ?_, fun x => ?_⟩
      · exact List.nodup_cons.mpr ⟨fun hx => hj.2 ((hmem j).mp hx).1, hnodup⟩
      · rw [List.mem_cons, List.mem_cons, hmem]
        constructor
        · rintro (rfl | hx)
          · exact ⟨Or.inl rfl, hj.1⟩
          · exact ⟨Or.inr hx.1, hx.2⟩
        · rintro ⟨rfl | hx, hfalse⟩
          · exact Or.inl rfl
          · exact Or.inr ⟨hx, hfalse⟩

/-- An exploration begins with its start on the stack. -/
theorem Exploring.begin {old : Fin n → Prop} {start : Fin n} {marks : Vector Bool n}
    (hmarks : ∀ x, marks.get x = true ↔ old x) (hstart : ¬ old start) :
    Exploring adjacency old start (marks.set start true start.isLt) [start] [] := by
  refine { marked := ?_, nodup := ?_, fresh := ?_, reached := ?_, closed := ?_, start_mem := ?_ }
  · intro x
    rw [get_set_true, hmarks, List.append_nil, List.mem_singleton]
  · exact List.nodup_singleton start
  · intro x hx
    rw [List.append_nil, List.mem_singleton] at hx
    exact hx ▸ hstart
  · intro x hx
    rw [List.append_nil, List.mem_singleton] at hx
    exact hx ▸ .refl
  · exact fun x hx => absurd hx List.not_mem_nil
  · exact List.mem_singleton_self start

/-- Taking a place from the stack and putting its neighbours on it. -/
theorem Exploring.next {old : Fin n → Prop} {start i : Fin n} {marks : Vector Bool n}
    {rest found : List (Fin n)} (h : Exploring adjacency old start marks (i :: rest) found) :
    Exploring adjacency old start ((adjacency.get i).foldr visit (marks, rest)).1
      ((adjacency.get i).foldr visit (marks, rest)).2 (i :: found) := by
  obtain ⟨new, hstack, hnodup, hmem⟩ := foldr_visit (adjacency.get i) marks rest
  have hmarks := get_foldr_visit (adjacency.get i) (marks, rest)
  rw [hstack]
  have perm : (i :: rest ++ found).Perm (rest ++ i :: found) := List.perm_middle.symm
  have mem_iff : ∀ x, x ∈ new ++ rest ++ i :: found ↔ x ∈ new ∨ x ∈ i :: rest ++ found := by
    intro x
    rw [List.append_assoc, List.mem_append, perm.mem_iff]
  -- what goes on the stack was not marked, hence it is neither old nor met before
  have new_fresh : ∀ x ∈ new, ¬ (old x ∨ x ∈ i :: rest ++ found) := by
    intro x hx hmark
    have := ((hmem x).mp hx).2
    rw [(h.marked x).mpr hmark] at this
    cases this
  refine { marked := ?_, nodup := ?_, fresh := ?_, reached := ?_, closed := ?_, start_mem := ?_ }
  · intro x
    rw [hmarks, h.marked, mem_iff, hmem, or_assoc]
    -- a neighbour that was marked already counts as old or met
    by_cases hx : marks.get x = true
    · have := (h.marked x).mp hx
      tauto
    · rw [Bool.not_eq_true] at hx
      tauto
  · rw [List.append_assoc, List.nodup_append]
    refine ⟨hnodup, perm.nodup_iff.mp h.nodup, ?_⟩
    rintro x hx y hy rfl
    exact new_fresh x hx (Or.inr (perm.mem_iff.mpr hy))
  · intro x hx
    rcases (mem_iff x).mp hx with hx | hx
    · exact fun hold => new_fresh x hx (Or.inl hold)
    · exact h.fresh x hx
  · intro x hx
    rcases (mem_iff x).mp hx with hx | hx
    · exact (h.reached i (by simp)).tail ((hmem x).mp hx).1
    · exact h.reached x hx
  · intro x hx y hxy
    rw [hmarks]
    -- the neighbours of `i` are all marked by now
    rcases List.mem_cons.mp hx with rfl | hx
    · exact Or.inr hxy
    · exact Or.inl (h.closed x hx y hxy)
  · exact (mem_iff start).mpr (Or.inr h.start_mem)

/-- The exploration ends with an empty stack. -/
theorem Exploring.explore {old : Fin n → Prop} {start : Fin n} {marks : Vector Bool n}
    {stack found : List (Fin n)} (h : Exploring adjacency old start marks stack found) :
    Exploring adjacency old start (adjacency.explore marks stack found).1 []
      (adjacency.explore marks stack found).2.reverse := by
  fun_induction Adjacency.explore adjacency marks stack found with
  | case1 marks found => simpa using h
  | case2 marks found i rest next ih => exact ih h.next

/-- If nothing leads out of the places marked before, then the exploration finds just what can be
    reached from its start. -/
theorem Exploring.mem_found_iff {old : Fin n → Prop} {start : Fin n} {marks : Vector Bool n}
    {found : List (Fin n)} (h : Exploring adjacency old start marks [] found)
    (hold : ∀ x y, adjacency.Adj x y → old y → old x) (x : Fin n) :
    x ∈ found ↔ ReflTransGen adjacency.Adj start x := by
  constructor
  · exact fun hx => h.reached x hx
  · intro path
    refine mem_of_path (S := fun x => x ∈ found) (fun x y hx hxy => ?_) path h.start_mem
    -- a step out of the places found would lead to an old place
    rcases (h.marked y).mp (h.closed x hx y hxy) with hy | hy
    · exact absurd (hold x y hxy hy) (h.fresh x hx)
    · exact hy

/-! ### All components -/

/-- The components found so far hold the places marked, and each of them is a class of connected
    places. -/
structure Partial (adjacency : Adjacency n) (marks : Vector Bool n) (cs : List (List (Fin n))) :
    Prop where
  marked : ∀ x, marks.get x = true ↔ x ∈ cs.flatten
  nodup : cs.flatten.Nodup
  nonempty : ∀ c ∈ cs, c ≠ []
  mem_iff : ∀ c ∈ cs, ∀ x ∈ c, ∀ y, y ∈ c ↔ ReflTransGen adjacency.Adj x y

/-- Nothing is found at first. -/
theorem Partial.nil : Partial adjacency (Vector.replicate n false) [] :=
  { marked := by simp
    nodup := by simp
    nonempty := by simp
    mem_iff := by simp }

/-- No edge leads into the components found from elsewhere. -/
theorem Partial.mem_flatten_of_adj (hsymm : adjacency.IsSymmetric) {marks : Vector Bool n}
    {cs : List (List (Fin n))} (h : Partial adjacency marks cs) {x y : Fin n}
    (hxy : adjacency.Adj x y) (hy : y ∈ cs.flatten) : x ∈ cs.flatten := by
  obtain ⟨c, hc, hyc⟩ := List.mem_flatten.mp hy
  exact List.mem_flatten.mpr ⟨c, hc, (h.mem_iff c hc y hyc x).mpr (.single (hsymm _ _ hxy))⟩

/-- An exploration that is done gives one more component. -/
theorem Partial.append (hsymm : adjacency.IsSymmetric) {marks marks' : Vector Bool n}
    {cs : List (List (Fin n))} (h : Partial adjacency marks cs) {start : Fin n}
    {found : List (Fin n)}
    (done : Exploring adjacency (fun x => x ∈ cs.flatten) start marks' [] found.reverse) :
    Partial adjacency marks' (cs ++ [found]) := by
  have : Std.Symm adjacency.Adj := ⟨hsymm⟩
  have mem_found : ∀ x, x ∈ found ↔ ReflTransGen adjacency.Adj start x := by
    intro x
    rw [← List.mem_reverse]
    exact done.mem_found_iff (fun x y => h.mem_flatten_of_adj hsymm) x
  have flatten_eq : (cs ++ [found]).flatten = cs.flatten ++ found := by simp
  refine { marked := ?_, nodup := ?_, nonempty := ?_, mem_iff := ?_ }
  · intro x
    rw [done.marked, flatten_eq]
    simp
  · rw [flatten_eq, List.nodup_append]
    -- what has been found was in none of the components before
    refine ⟨h.nodup, by simpa using done.nodup, ?_⟩
    rintro x hx y hy rfl
    exact done.fresh x (by simpa using hy) hx
  · intro c hc
    rcases List.mem_append.mp hc with hc | hc
    · exact h.nonempty c hc
    · rw [List.mem_singleton.mp hc]
      exact List.ne_nil_of_mem ((mem_found start).mpr .refl)
  · intro c hc x hx y
    rcases List.mem_append.mp hc with hc | hc
    · exact h.mem_iff c hc x hx y
    · rw [List.mem_singleton.mp hc] at hx ⊢
      rw [mem_found] at hx ⊢
      exact ⟨fun hy => (symm hx : ReflTransGen _ _ _).trans hy, fun hy => hx.trans hy⟩

/-- A place that is in a component adds nothing.  Any other place is explored from. -/
theorem Partial.addComponent_cases {marks : Vector Bool n} {cs : List (List (Fin n))}
    (h : Partial adjacency marks cs) (start : Fin n) :
    (start ∈ cs.flatten ∧ adjacency.addComponent (marks, cs) start = (marks, cs)) ∨
      start ∉ cs.flatten ∧ ∃ marks' found,
        adjacency.addComponent (marks, cs) start = (marks', cs ++ [found]) ∧
        Exploring adjacency (fun x => x ∈ cs.flatten) start marks' [] found.reverse := by
  by_cases hstart : marks.get start = true
  · exact .inl ⟨(h.marked _).mp hstart, if_pos hstart⟩
  · have fresh : start ∉ cs.flatten := fun hmem => hstart ((h.marked start).mpr hmem)
    have begin : Exploring adjacency (fun x => x ∈ cs.flatten) start
        (marks.set start true start.isLt) [start] [] := .begin h.marked fresh
    exact .inr ⟨fresh, _, _, if_neg hstart, begin.explore⟩

/-- One more component. -/
theorem Partial.addComponent (hsymm : adjacency.IsSymmetric) {marks : Vector Bool n}
    {cs : List (List (Fin n))} (h : Partial adjacency marks cs) (start : Fin n) :
    Partial adjacency (adjacency.addComponent (marks, cs) start).1
        (adjacency.addComponent (marks, cs) start).2 ∧
      ∀ x, x ∈ cs.flatten ∨ x = start →
        x ∈ (adjacency.addComponent (marks, cs) start).2.flatten := by
  rcases h.addComponent_cases start with ⟨hstart, heq⟩ | ⟨-, marks', found, heq, done⟩
  · rw [heq]
    refine ⟨h, ?_⟩
    rintro x (hx | rfl)
    · exact hx
    · exact hstart
  · rw [heq]
    refine ⟨h.append hsymm done, ?_⟩
    rintro x (hx | rfl)
    · simp [List.mem_flatten.mp hx]
    · have := done.start_mem
      simpa using Or.inr this

/-- Components from a list of places. -/
theorem Partial.foldl_addComponent (hsymm : adjacency.IsSymmetric) (starts : List (Fin n))
    {s : Vector Bool n × List (List (Fin n))} (h : Partial adjacency s.1 s.2) :
    Partial adjacency (starts.foldl adjacency.addComponent s).1
        (starts.foldl adjacency.addComponent s).2 ∧
      ∀ x, x ∈ s.2.flatten ∨ x ∈ starts →
        x ∈ (starts.foldl adjacency.addComponent s).2.flatten := by
  induction starts generalizing s with
  | nil => exact ⟨h, fun x hx => hx.resolve_right List.not_mem_nil⟩
  | cons start starts ih =>
    obtain ⟨hnext, hkept⟩ := h.addComponent hsymm start
    obtain ⟨hall, hkept'⟩ := ih hnext
    refine ⟨hall, fun x hx => hkept' x ?_⟩
    rcases hx with hx | hx
    · exact Or.inl (hkept x (Or.inl hx))
    · rcases List.mem_cons.mp hx with rfl | hx
      · exact Or.inl (hkept _ (Or.inr rfl))
      · exact Or.inr hx

/-- **Components of places.**  Every place is in just one of them, and each of them is the class
    of its places. -/
theorem components_spec (hsymm : adjacency.IsSymmetric) :
    adjacency.components.flatten.Perm (List.finRange n) ∧
      (∀ c ∈ adjacency.components, c ≠ []) ∧
      ∀ c ∈ adjacency.components, ∀ x ∈ c, ∀ y, y ∈ c ↔ ReflTransGen adjacency.Adj x y := by
  obtain ⟨done, hall⟩ := Partial.foldl_addComponent hsymm (List.finRange n)
    (s := (Vector.replicate n false, [])) .nil
  refine ⟨?_, done.nonempty, done.mem_iff⟩
  exact (List.perm_ext_iff_of_nodup done.nodup (List.nodup_finRange n)).mpr
    fun x => ⟨fun _ => List.mem_finRange x, fun hx => hall x (Or.inr hx)⟩

end Adjacency

namespace Graph

variable {g c : Graph} {u v : String}

/-! ### Components of a graph -/

theorem ids_induced (places : List (Fin g.size)) :
    (g.induced places).ids = places.map g.idAt := by
  simp [ids, induced, idAt, Function.comp_def]

theorem nodes_eq_map_nodeAt (g : Graph) : (List.finRange g.size).map g.nodeAt = g.nodes :=
  List.map_get_finRange g.nodes

theorem mem_components : c ∈ g.components ↔ ∃ places ∈ g.adjacency.components,
    g.induced places = c := List.mem_map

/-- The components share the nodes out among them. -/
theorem components_nodes (g : Graph) : (g.components.flatMap nodes).Perm g.nodes := by
  have perm := (Adjacency.components_spec g.adjacency_isSymmetric).1.map g.nodeAt
  rw [nodes_eq_map_nodeAt] at perm
  refine List.Perm.trans (List.Perm.of_eq ?_) perm
  rw [components, List.flatMap_map, List.map_flatten, List.flatMap_def]
  rfl

theorem components_ids (g : Graph) : (g.components.flatMap ids).Perm g.ids := by
  have perm := g.components_nodes.map Node.id
  rwa [List.map_flatMap] at perm

theorem exists_component (hu : u ∈ g.ids) : ∃ c ∈ g.components, u ∈ c.ids :=
  List.mem_flatMap.mp (g.components_ids.mem_iff.mpr hu)

theorem ids_subset_of_component (hc : c ∈ g.components) (hu : u ∈ c.ids) : u ∈ g.ids :=
  g.components_ids.mem_iff.mp (List.mem_flatMap.mpr ⟨c, hc, hu⟩)

theorem ids_ne_nil_of_component (hc : c ∈ g.components) : c.ids ≠ [] := by
  obtain ⟨places, hplaces, rfl⟩ := mem_components.mp hc
  rw [ids_induced, Ne, List.map_eq_nil_iff]
  exact (Adjacency.components_spec g.adjacency_isSymmetric).2.1 places hplaces

namespace Distinct

variable (h : g.Distinct)
include h

theorem component_distinct (hc : c ∈ g.components) : c.Distinct :=
  (List.nodup_flatMap.mp (g.components_ids.nodup_iff.mpr h)).1 c hc

/-- A component holds what is connected to one of its nodes. -/
theorem mem_component_iff (hc : c ∈ g.components) (hu : u ∈ c.ids) :
    v ∈ c.ids ↔ g.Connected u v := by
  obtain ⟨places, hplaces, rfl⟩ := mem_components.mp hc
  have hclass := (Adjacency.components_spec g.adjacency_isSymmetric).2.2 places hplaces
  rw [ids_induced] at hu ⊢
  obtain ⟨i, hi, rfl⟩ := List.mem_map.mp hu
  constructor
  · intro hv
    obtain ⟨j, hj, rfl⟩ := List.mem_map.mp hv
    exact h.connected_idAt.mpr ((hclass i hi j).mp hj)
  · intro path
    obtain ⟨j, rfl⟩ := exists_idAt (path.mem_ids (idAt_mem i))
    exact List.mem_map_of_mem ((hclass i hi j).mpr (h.connected_idAt.mp path))

/-- The node at a place is in a part of the graph iff the place is. -/
theorem contains_idAt (places : List (Fin g.size)) (i : Fin g.size) :
    (g.induced places).ids.contains (g.idAt i) = places.contains i := by
  rw [ids_induced, Bool.eq_iff_iff, List.contains_iff_mem, List.contains_iff_mem,
    List.mem_map_of_injective h.idAt_injective]

/-- The edges of a component are those of the graph with both ends in it. -/
theorem component_edges (hc : c ∈ g.components) :
    c.edges = g.edges.filter fun e => c.ids.contains e.source && c.ids.contains e.target := by
  obtain ⟨places, hplaces, rfl⟩ := mem_components.mp hc
  apply List.filter_congr
  intro e _
  cases hends : g.ends? e with
  | some st =>
    obtain ⟨s, t⟩ := st
    obtain ⟨hs, ht⟩ := h.ends?_eq_some.mp hends
    rw [← hs, ← ht, h.contains_idAt, h.contains_idAt]
  | none =>
    -- an edge with an unknown end has not both ends among the nodes
    symm
    rw [Bool.eq_false_iff, Ne, Bool.and_eq_true, List.contains_iff_mem, List.contains_iff_mem]
    rintro ⟨hs, ht⟩
    rw [ids_induced] at hs ht
    obtain ⟨s, -, hs⟩ := List.mem_map.mp hs
    obtain ⟨t, -, ht⟩ := List.mem_map.mp ht
    rw [h.ends?_eq_some.mpr ⟨hs, ht⟩] at hends
    cases hends

theorem mem_component_edges (hc : c ∈ g.components) {e : Edge} :
    e ∈ c.edges ↔ e ∈ g.edges ∧ e.source ∈ c.ids ∧ e.target ∈ c.ids := by
  rw [h.component_edges hc, List.mem_filter, Bool.and_eq_true, List.contains_iff_mem,
    List.contains_iff_mem]

/-- The nodes of a component are connected inside of it. -/
theorem component_connected (hc : c ∈ g.components) (hu : u ∈ c.ids) (hv : v ∈ c.ids) :
    c.Connected u v := by
  have path := (h.mem_component_iff hc hu).mp hv
  refine (mem_of_path (S := fun x => x ∈ c.ids ∧ c.Connected u x) ?_ path ⟨hu, .refl⟩).2
  -- a step of the path stays in the component, and so does its edge
  rintro x y ⟨hx, hux⟩ hxy
  have hy : y ∈ c.ids := (h.mem_component_iff hc hx).mpr (.single hxy)
  obtain ⟨-, -, e, he, hconn⟩ := hxy
  refine ⟨hy, hux.tail ⟨hx, hy, e, (h.mem_component_edges hc).mpr ⟨he, ?_⟩, hconn⟩⟩
  rcases Edge.connects_iff.mp hconn with ⟨rfl, rfl⟩ | ⟨rfl, rfl⟩
  · exact ⟨hx, hy⟩
  · exact ⟨hy, hx⟩

end Distinct

/-! ### Components as sets of names -/

/-- Both ends of every edge are there. -/
def Closed (g : Graph) : Prop := ∀ e ∈ g.edges, e.source ∈ g.ids ∧ e.target ∈ g.ids

/-- A set of names that consists of all that is connected to one node. -/
def IsComponent (g : Graph) (s : Finset String) : Prop := ∃ u ∈ g.ids, ∀ v, v ∈ s ↔ g.Connected u v

/-- The names of the nodes, as a set. -/
def idSet (g : Graph) : Finset String := g.ids.toFinset

/-- The nodes of a graph with a name in `s`, and the edges between them. -/
def restrict (g : Graph) (s : Finset String) : Graph where
  nodes := g.nodes.filter (·.id ∈ s)
  edges := g.edges.filter fun e => e.source ∈ s ∧ e.target ∈ s

@[simp] theorem mem_idSet : u ∈ g.idSet ↔ u ∈ g.ids := List.mem_toFinset

theorem mem_nodes_restrict {s : Finset String} {n : Node} :
    n ∈ (g.restrict s).nodes ↔ n ∈ g.nodes ∧ n.id ∈ s := by
  simp [restrict]

theorem mem_edges_restrict {s : Finset String} {e : Edge} :
    e ∈ (g.restrict s).edges ↔ e ∈ g.edges ∧ e.source ∈ s ∧ e.target ∈ s := by
  simp [restrict]

/-- A component is the class of each of its nodes. -/
theorem IsComponent.mem_iff {s : Finset String} (hs : g.IsComponent s) (hu : u ∈ s) :
    v ∈ s ↔ g.Connected u v := by
  obtain ⟨w, -, hmem⟩ := hs
  have path := (hmem u).mp hu
  rw [hmem]
  exact ⟨fun hv => path.symm.trans hv, fun hv => path.trans hv⟩

theorem IsComponent.mem_ids {s : Finset String} (hs : g.IsComponent s) (hu : u ∈ s) :
    u ∈ g.ids := by
  obtain ⟨w, hw, hmem⟩ := hs
  exact ((hmem u).mp hu).mem_ids hw

theorem IsComponent.nonempty {s : Finset String} (hs : g.IsComponent s) : s.Nonempty := by
  obtain ⟨w, -, hmem⟩ := hs
  exact ⟨w, (hmem w).mpr .refl⟩

/-- Components with a common node are the same. -/
theorem IsComponent.eq_of_mem {s t : Finset String} (hs : g.IsComponent s) (ht : g.IsComponent t)
    (hus : u ∈ s) (hut : u ∈ t) : s = t := by
  ext v
  rw [hs.mem_iff hus, ht.mem_iff hut]

namespace Distinct

variable (h : g.Distinct)
include h

theorem component_isComponent (hc : c ∈ g.components) : g.IsComponent c.idSet := by
  obtain ⟨u, hu⟩ := List.exists_mem_of_ne_nil _ (ids_ne_nil_of_component hc)
  refine ⟨u, ids_subset_of_component hc hu, fun v => ?_⟩
  rw [mem_idSet, h.mem_component_iff hc hu]

/-- **Components.**  The components that are listed are the classes of connected nodes. -/
theorem isComponent_iff {s : Finset String} :
    g.IsComponent s ↔ ∃ c ∈ g.components, c.idSet = s := by
  constructor
  · intro hs
    obtain ⟨u, hu⟩ := hs.nonempty
    obtain ⟨c, hc, huc⟩ := exists_component (hs.mem_ids hu)
    exact ⟨c, hc, (h.component_isComponent hc).eq_of_mem hs (mem_idSet.mpr huc) hu⟩
  · rintro ⟨c, hc, rfl⟩
    exact h.component_isComponent hc

/-- Every node lies in a component. -/
theorem exists_isComponent (hu : u ∈ g.ids) : ∃ s, g.IsComponent s ∧ u ∈ s := by
  obtain ⟨c, hc, huc⟩ := exists_component hu
  exact ⟨c.idSet, h.component_isComponent hc, mem_idSet.mpr huc⟩

/-- The edges of a component are those of the graph between its names. -/
theorem component_edges_eq_restrict (hc : c ∈ g.components) :
    c.edges = (g.restrict c.idSet).edges := by
  rw [h.component_edges hc]
  apply List.filter_congr
  intro e _
  simp

/-- The nodes of a graph with distinct names are known by their names. -/
theorem node_eq {m n : Node} (hm : m ∈ g.nodes) (hn : n ∈ g.nodes) (hid : m.id = n.id) : m = n :=
  List.inj_on_of_nodup_map h hm hn hid

theorem nodes_nodup : g.nodes.Nodup := List.Nodup.of_map _ h

/-- The nodes of a component are the nodes of the graph that it has the names of. -/
theorem mem_component_nodes (hc : c ∈ g.components) {n : Node} :
    n ∈ c.nodes ↔ n ∈ g.nodes ∧ n.id ∈ c.ids := by
  have listed : ∀ m ∈ c.nodes, m ∈ g.nodes := fun m hm =>
    g.components_nodes.mem_iff.mp (List.mem_flatMap.mpr ⟨c, hc, hm⟩)
  constructor
  · exact fun hn => ⟨listed n hn, List.mem_map_of_mem hn⟩
  · rintro ⟨hn, hid⟩
    obtain ⟨m, hm, hid⟩ := List.mem_map.mp hid
    exact h.node_eq (listed m hm) hn hid ▸ hm

/-- Its nodes are those of the graph with its names, in an order of their own. -/
theorem component_nodes_perm_restrict (hc : c ∈ g.components) :
    c.nodes.Perm (g.restrict c.idSet).nodes := by
  refine (List.perm_ext_iff_of_nodup (h.component_distinct hc).nodes_nodup
    (h.nodes_nodup.filter _)).mpr fun n => ?_
  rw [h.mem_component_nodes hc, ← mem_idSet]
  exact mem_nodes_restrict.symm

end Distinct

end Graph

end Drafting
