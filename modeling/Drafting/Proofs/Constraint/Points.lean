import Drafting.Proofs.Constraint.Coordinates

namespace Drafting

/-!
# Points from an assignment and back

The name of a coordinate is cut at its last underscore, so that points with any names, underscores
among them, are told apart.  The points of an assignment come in the order of their first
coordinates.

* `Point.owner?_eq_some_iff` — which point a name is a coordinate of;
* `Point.keys_foldl_collect`, `Point.located_foldl_collect` — what has been collected from a list of
  entries;
* `Point.ofAssignment_eq` — the points of an assignment;
* `Point.coordinates_round_trip` — points survive, and what an assignment says about points.
-/

/-! ### What a function finds in a list -/

section

variable {α β : Type} [DecidableEq α] [DecidableEq β]

/-- Repetitions make no difference to what is found first. -/
theorem eraseDups_filterMap_eraseDups (f : α → Option β) (l : List α) :
    (l.eraseDups.filterMap f).eraseDups = (l.filterMap f).eraseDups := by
  induction l using List.reverseRecOn with
  | nil => rfl
  | append_singleton l x ih =>
    rw [eraseDups_concat, List.filterMap_append]
    cases hx : f x with
    | none =>
      rw [List.filterMap_cons_none hx, List.filterMap_nil, List.append_nil]
      split
      · exact ih
      · rw [List.filterMap_append, List.filterMap_cons_none hx, List.filterMap_nil,
          List.append_nil, ih]
    | some y =>
      rw [List.filterMap_cons_some hx, List.filterMap_nil, eraseDups_concat]
      split
      · next h => rw [if_pos (List.mem_filterMap.mpr ⟨x, h, hx⟩), ih]
      · rw [List.filterMap_append, List.filterMap_cons_some hx, List.filterMap_nil,
          eraseDups_concat, ih]
        simp only [List.mem_filterMap, List.mem_eraseDups]

/-- To list everything twice in a row adds nothing new. -/
theorem eraseDups_flatMap_twice (l : List α) :
    (l.flatMap fun x => [x, x]).eraseDups = l.eraseDups := by
  induction l using List.reverseRecOn with
  | nil => rfl
  | append_singleton l x ih =>
    have twice : (l ++ [x]).flatMap (fun x => [x, x]) =
        (l.flatMap fun x => [x, x]) ++ [x] ++ [x] := by simp
    rw [twice, eraseDups_concat, if_pos List.mem_concat_self, eraseDups_concat, eraseDups_concat,
      ih]
    simp

/-- Where a function finds a value first. -/
def firstPlace (f : α → Option β) (l : List α) (y : β) : Nat := l.findIdx fun x => f x = some y

omit [DecidableEq α] in
theorem firstPlace_lt {f : α → Option β} {l : List α} {y : β} (h : y ∈ l.filterMap f) :
    firstPlace f l y < l.length := by
  obtain ⟨x, hx, hxy⟩ := List.mem_filterMap.mp h
  exact List.findIdx_lt_length_of_exists ⟨x, hx, by simpa using hxy⟩

omit [DecidableEq α] in
/-- A value that has been found already keeps its first place. -/
theorem firstPlace_concat_of_mem {f : α → Option β} {l : List α} {y : β}
    (h : y ∈ l.filterMap f) (x : α) : firstPlace f (l ++ [x]) y = firstPlace f l y := by
  have before := firstPlace_lt h
  rw [firstPlace] at before
  rw [firstPlace, firstPlace, List.findIdx_append, if_pos before]

omit [DecidableEq α] in
/-- A value that has not been found yet is first found behind all that came before. -/
theorem length_le_firstPlace {f : α → Option β} {l : List α} {y : β} (h : y ∉ l.filterMap f)
    (x : α) : l.length ≤ firstPlace f (l ++ [x]) y := by
  have absent : l.findIdx (fun x => f x = some y) = l.length := by
    refine List.findIdx_eq_length.mpr fun x hx => decide_eq_false fun hxy => h ?_
    exact List.mem_filterMap.mpr ⟨x, hx, hxy⟩
  rw [firstPlace, List.findIdx_append, absent, if_neg (lt_irrefl _)]
  exact Nat.le_add_left ..

omit [DecidableEq α] in
/-- **Each value once, in the order of first places.** -/
theorem pairwise_firstPlace (f : α → Option β) (l : List α) :
    ((l.filterMap f).eraseDups.map (firstPlace f l)).Pairwise (· < ·) := by
  induction l using List.reverseRecOn with
  | nil => exact List.Pairwise.nil
  | append_singleton l x ih =>
    have old : (l.filterMap f).eraseDups.map (firstPlace f (l ++ [x])) =
        (l.filterMap f).eraseDups.map (firstPlace f l) :=
      List.map_congr_left fun y hy => firstPlace_concat_of_mem (List.mem_eraseDups.mp hy) x
    rw [List.filterMap_append]
    cases hx : f x with
    | none =>
      rw [List.filterMap_cons_none hx, List.filterMap_nil, List.append_nil, old]
      exact ih
    | some y =>
      rw [List.filterMap_cons_some hx, List.filterMap_nil, eraseDups_concat]
      split
      · rw [old]
        exact ih
      · next new =>
        -- a new value comes behind all others
        rw [List.map_append, old, List.map_singleton, List.pairwise_append]
        refine ⟨ih, List.pairwise_singleton _ _, fun i hi j hj => ?_⟩
        obtain ⟨z, hz, rfl⟩ := List.mem_map.mp hi
        rw [List.mem_singleton.mp hj]
        exact (firstPlace_lt (List.mem_eraseDups.mp hz)).trans_le (length_le_firstPlace new x)

end

namespace Point

variable {F : Type}

/-! ### Names of coordinates -/

/-- The name of a coordinate of a point. -/
def Axis.coordinate : Axis → String → String
  | .x => xOf
  | .y => yOf

/-- A coordinate of a point. -/
def coord (p : Point F) : Axis → F
  | .x => p.x
  | .y => p.y

/-- The name of a coordinate is read as that coordinate. -/
theorem ofCoordinate?_coordinate (axis : Axis) (id : String) :
    ofCoordinate? (axis.coordinate id) = some (id, axis) := by
  cases axis
  · exact ofCoordinate?_xOf id
  · exact ofCoordinate?_yOf id

/-- A name is read as a coordinate of a point iff it is that coordinate's name. -/
theorem ofCoordinate?_eq_some_iff {name id : String} {axis : Axis} :
    ofCoordinate? name = some (id, axis) ↔ name = axis.coordinate id := by
  constructor
  · intro h
    unfold ofCoordinate? at h
    split at h
    case h_3 => cases h
    all_goals
      next rest hrev =>
        obtain ⟨rfl, rfl⟩ := by simpa using h
        have spelled := congrArg List.reverse hrev
        rw [List.reverse_reverse] at spelled
        refine String.toList_injective ?_
        simp [spelled, Axis.coordinate, xOf, yOf]
  · rintro rfl
    exact ofCoordinate?_coordinate axis id

theorem coordinate_inj {id id' : String} {axis axis' : Axis} :
    axis'.coordinate id' = axis.coordinate id ↔ id' = id ∧ axis' = axis := by
  rw [← ofCoordinate?_eq_some_iff, ofCoordinate?_coordinate, Option.some.injEq, Prod.mk.injEq]

/-- The point that a name is a coordinate of. -/
def owner? (name : String) : Option String := (ofCoordinate? name).map Prod.fst

/-- A name belongs to a point iff it is the name of one of its two coordinates. -/
theorem owner?_eq_some_iff {name id : String} :
    owner? name = some id ↔ name = xOf id ∨ name = yOf id := by
  rw [owner?, Option.map_eq_some_iff]
  constructor
  · rintro ⟨⟨_, axis⟩, h, rfl⟩
    cases axis
    · exact .inl (ofCoordinate?_eq_some_iff.mp h)
    · exact .inr (ofCoordinate?_eq_some_iff.mp h)
  · rintro (rfl | rfl)
    · exact ⟨_, ofCoordinate?_xOf id, rfl⟩
    · exact ⟨_, ofCoordinate?_yOf id, rfl⟩

/-- The name is that of a coordinate of some point. -/
def IsCoordinate (name : String) : Prop := ∃ id, name = xOf id ∨ name = yOf id

theorem isCoordinate_iff {name : String} : IsCoordinate name ↔ (owner? name).isSome = true := by
  simp only [Option.isSome_iff_exists, owner?_eq_some_iff, IsCoordinate]

instance (name : String) : Decidable (IsCoordinate name) := decidable_of_iff _ isCoordinate_iff.symm

/-! ### What is collected -/

theorem id_set (p : Point F) (value : F) (axis : Axis) : (p.set value axis).id = p.id := by
  cases axis <;> rfl

theorem coord_set (p : Point F) (value : F) (axis axis' : Axis) :
    (p.set value axis).coord axis' = if axis = axis' then value else p.coord axis' := by
  cases axis <;> cases axis' <;> rfl

variable [Scalar F]

/-- The point `id` of those collected; if there is none, it is at the origin. -/
def located (points : Keyed (Point F)) (id : String) : Point F :=
  (points.get? id).getD ⟨id, Scalar.zero, Scalar.zero⟩

theorem located_insert (points : Keyed (Point F)) (id id' : String) (p : Point F) :
    located (points.insert id p) id' = if id = id' then p else located points id' := by
  rw [located, Keyed.get?_insert]
  split <;> rfl

/-- An entry is a coordinate of a point, which it moves, or changes nothing. -/
theorem collect_cases (points : Keyed (Point F)) (e : String × F) :
    (∃ id axis, e.1 = axis.coordinate id ∧
      collect points e = points.insert id ((located points id).set e.2 axis)) ∨
    (owner? e.1 = none ∧ collect points e = points) := by
  unfold collect owner?
  cases h : ofCoordinate? e.1 with
  | none => exact .inr ⟨rfl, rfl⟩
  | some owner => exact .inl ⟨owner.1, owner.2, ofCoordinate?_eq_some_iff.mp h, rfl⟩

theorem owner?_coordinate (axis : Axis) (id : String) : owner? (axis.coordinate id) = some id := by
  rw [owner?, ofCoordinate?_coordinate]
  rfl

/-- An entry that is a coordinate adds its point, unless it is there already. -/
theorem keys_collect (points : Keyed (Point F)) (e : String × F) :
    (collect points e).keys = match owner? e.1 with
      | some id => if id ∈ points.keys then points.keys else points.keys ++ [id]
      | none => points.keys := by
  rcases collect_cases points e with ⟨id, axis, hname, heq⟩ | ⟨hname, heq⟩
  · rw [heq, hname, owner?_coordinate, Keyed.keys_insert]
  · rw [heq, hname]

/-- One entry changes one coordinate of one point, the one that it is the name of. -/
theorem coord_located_collect (points : Keyed (Point F)) (e : String × F) (id : String)
    (axis : Axis) : (located (collect points e) id).coord axis =
      if e.1 = axis.coordinate id then e.2 else (located points id).coord axis := by
  rcases collect_cases points e with ⟨id', axis', hname, heq⟩ | ⟨hname, heq⟩
  · rw [heq, hname, located_insert]
    simp only [coordinate_inj]
    by_cases hid : id' = id
    · subst hid
      simp [coord_set]
    · simp [hid]
  · rw [heq, if_neg]
    intro hcoord
    rw [hcoord, owner?_coordinate] at hname
    cases hname

/-- Points go on to have the names that they are collected under. -/
theorem id_located_collect (points : Keyed (Point F)) (e : String × F)
    (h : ∀ id, (located points id).id = id) (id : String) :
    (located (collect points e) id).id = id := by
  rcases collect_cases points e with ⟨id', axis', -, heq⟩ | ⟨-, heq⟩
  · rw [heq, located_insert]
    split
    · next same => rw [id_set, h, same]
    · exact h id
  · rw [heq, h]

/-- **The points collected,** in the order of their first coordinates. -/
theorem keys_foldl_collect (es : List (String × F)) :
    (es.foldl collect Keyed.empty).keys = ((es.map Prod.fst).filterMap owner?).eraseDups := by
  induction es using List.reverseRecOn with
  | nil => rfl
  | append_singleton es e ih =>
    rw [List.foldl_append, List.foldl_cons, List.foldl_nil, keys_collect, ih, List.map_append,
      List.map_singleton, List.filterMap_append]
    cases h : owner? e.1 with
    | none => rw [List.filterMap_cons_none h, List.filterMap_nil, List.append_nil]
    | some id =>
      rw [List.filterMap_cons_some h, List.filterMap_nil, eraseDups_concat]
      simp only [List.mem_eraseDups]

/-- Points that have been collected have the names that they are collected under. -/
theorem id_located_foldl_collect (es : List (String × F)) (id : String) :
    (located (es.foldl collect Keyed.empty) id).id = id := by
  induction es using List.reverseRecOn generalizing id with
  | nil => rfl
  | append_singleton es e ih =>
    rw [List.foldl_append, List.foldl_cons, List.foldl_nil]
    exact id_located_collect _ e ih id

/-- A coordinate of a point that has been collected is the last value for its name, or zero. -/
theorem coord_located_foldl_collect (es : List (String × F)) (id : String) (axis : Axis) :
    (located (es.foldl collect Keyed.empty) id).coord axis =
      (Keyed.last? es (axis.coordinate id)).getD Scalar.zero := by
  induction es using List.reverseRecOn with
  | nil => cases axis <;> rfl
  | append_singleton es e ih =>
    rw [List.foldl_append, List.foldl_cons, List.foldl_nil, coord_located_collect,
      Keyed.last?_concat, ih]
    split <;> rfl

/-- **Where they are:** at their last coordinates, and at zero where there is none. -/
theorem located_foldl_collect (es : List (String × F)) (id : String) :
    located (es.foldl collect Keyed.empty) id =
      ⟨id, (Keyed.last? es (xOf id)).getD Scalar.zero,
        (Keyed.last? es (yOf id)).getD Scalar.zero⟩ := by
  show (⟨(located _ id).id, (located _ id).coord .x, (located _ id).coord .y⟩ : Point F) = _
  rw [id_located_foldl_collect, coord_located_foldl_collect, coord_located_foldl_collect]
  rfl

/-! ### The points of an assignment -/

/-- **The points of an assignment.** -/
theorem ofAssignment_eq (a : Keyed F) :
    ofAssignment a = (a.keys.filterMap owner?).eraseDups.map fun id =>
      ⟨id, (a.get? (xOf id)).getD Scalar.zero, (a.get? (yOf id)).getD Scalar.zero⟩ := by
  rw [ofAssignment, Keyed.values_eq_map _ fun id => ⟨id, Scalar.zero, Scalar.zero⟩,
    keys_foldl_collect]
  refine List.map_congr_left fun id _ => ?_
  exact (located_foldl_collect a.entries id).trans (by rw [a.last?_entries, a.last?_entries])

/-- The entries of an assignment that are coordinates. -/
def coordinates (a : Keyed F) : Keyed F :=
  ⟨a.entries.filter fun e => IsCoordinate e.1, a.nodup.sublist (List.filter_sublist.map Prod.fst)⟩

/-- Entries that are no coordinates are passed over. -/
theorem ofAssignment_coordinates (a : Keyed F) :
    ofAssignment (coordinates a) = ofAssignment a := by
  have skip : (fun (points : Keyed (Point F)) (e : String × F) =>
      if decide (IsCoordinate e.1) then collect points e else points) = collect := by
    funext points e
    rcases collect_cases points e with ⟨id, axis, hname, -⟩ | ⟨hname, heq⟩
    · rw [if_pos]
      rw [decide_eq_true_eq, isCoordinate_iff, hname, owner?_coordinate]
      rfl
    · rw [heq, ite_self]
  rw [ofAssignment, ofAssignment, coordinates, List.foldl_filter, skip]

/-! ### Points there and back -/

omit [Scalar F] in
/-- The last point with a name. -/
def lastNamed? (points : List (Point F)) (id : String) : Option (Point F) :=
  points.reverse.find? (·.id == id)

omit [Scalar F] in
/-- The points, each name once: at its first place, and with the coordinates it has last. -/
def lastOfEach (points : List (Point F)) : List (Point F) :=
  (points.map Point.id).eraseDups.filterMap (lastNamed? points)

omit [Scalar F] in
/-- The last point with a name is the one added last, if it has the name. -/
theorem lastNamed?_concat (points : List (Point F)) (p : Point F) (id : String) :
    lastNamed? (points ++ [p]) id = if p.id = id then some p else lastNamed? points id := by
  rw [lastNamed?, find?_reverse_concat]
  simp only [beq_iff_eq]
  rfl

omit [Scalar F] in
/-- If points have a name, one of them is the last. -/
theorem exists_lastNamed? {points : List (Point F)} {id : String}
    (h : id ∈ points.map Point.id) : ∃ p, lastNamed? points id = some p ∧ p.id = id := by
  obtain ⟨q, hq, hid⟩ := List.mem_map.mp h
  obtain ⟨p, hp⟩ : ∃ p, lastNamed? points id = some p := by
    rw [← Option.isSome_iff_exists, lastNamed?, List.find?_isSome]
    exact ⟨q, List.mem_reverse.mpr hq, beq_iff_eq.mpr hid⟩
  exact ⟨p, hp, by simpa using List.find?_some hp⟩

omit [Scalar F] in
/-- A coordinate of points is that of the last point with the name. -/
theorem get?_assignment (points : List (Point F)) (id : String) (axis : Axis) :
    (assignment points).get? (axis.coordinate id) =
      (lastNamed? points id).map fun p => p.coord axis := by
  rw [assignment, Keyed.get?_ofList]
  induction points using List.reverseRecOn with
  | nil => rfl
  | append_singleton points p ih =>
    have entries : ∀ es : List (String × F),
        es ++ [p].flatMap (fun p => [(xOf p.id, p.x), (yOf p.id, p.y)]) =
          (es ++ [(Axis.x.coordinate p.id, p.coord .x)]) ++
            [(Axis.y.coordinate p.id, p.coord .y)] := by
      intro es
      rw [List.append_assoc]
      rfl
    rw [List.flatMap_append, entries, Keyed.last?_concat, Keyed.last?_concat, ih, lastNamed?_concat]
    simp only [coordinate_inj]
    by_cases hid : p.id = id
    · cases axis <;> simp [hid]
    · simp [hid]

omit [Scalar F] in
/-- The names of points, read off their coordinates. -/
theorem owners_assignment (points : List (Point F)) :
    ((assignment points).keys.filterMap owner?).eraseDups = (points.map Point.id).eraseDups := by
  have owners : ((points.flatMap fun p => [(xOf p.id, p.x), (yOf p.id, p.y)]).map
      Prod.fst).filterMap owner? = (points.map Point.id).flatMap fun id => [id, id] := by
    simp [List.map_flatMap, List.filterMap_flatMap, List.flatMap_map, owner?, ofCoordinate?_xOf,
      ofCoordinate?_yOf]
  rw [assignment, Keyed.keys_ofList, eraseDups_filterMap_eraseDups, owners,
    eraseDups_flatMap_twice]

/-- **Points survive.** -/
theorem ofAssignment_assignment (points : List (Point F)) :
    ofAssignment (assignment points) = lastOfEach points := by
  rw [ofAssignment_eq, owners_assignment, lastOfEach, ← List.filterMap_eq_map]
  refine List.filterMap_congr fun id hid => ?_
  obtain ⟨p, hp, rfl⟩ := exists_lastNamed? (List.mem_eraseDups.mp hid)
  have hx := get?_assignment points p.id .x
  have hy := get?_assignment points p.id .y
  rw [hp] at hx hy
  show some (⟨p.id, ((assignment points).get? (Axis.x.coordinate p.id)).getD _,
    ((assignment points).get? (Axis.y.coordinate p.id)).getD _⟩ : Point F) = _
  rw [hx, hy, hp]
  rfl

/-- **There and back.**  Points come back from their assignment, each name once, at its first place
    and with its last coordinates.  Any assignment yields the points that it has a coordinate of:
    each once, in the order of their first coordinates, with zero for a coordinate that is missing,
    whatever else the assignment holds. -/
theorem coordinates_round_trip :
    (∀ points : List (Point F), ofAssignment (assignment points) = lastOfEach points) ∧
    ∀ a : Keyed F, ∃ ids : List String,
      ofAssignment a = ids.map (fun id =>
        ⟨id, (a.get? (xOf id)).getD Scalar.zero, (a.get? (yOf id)).getD Scalar.zero⟩) ∧
      (∀ id, id ∈ ids ↔ xOf id ∈ a.keys ∨ yOf id ∈ a.keys) ∧
      ids.Nodup ∧
      (ids.map fun id => a.keys.findIdx fun name => name = xOf id ∨ name = yOf id).Pairwise
        (· < ·) ∧
      ofAssignment (coordinates a) = ofAssignment a := by
  refine ⟨ofAssignment_assignment, fun a => ?_⟩
  have inOrder := pairwise_firstPlace owner? a.keys
  refine ⟨_, ofAssignment_eq a, fun id => ?_, ?_, ?_, ofAssignment_coordinates a⟩
  · simp only [List.mem_eraseDups, List.mem_filterMap, owner?_eq_some_iff]
    constructor
    · rintro ⟨name, hname, rfl | rfl⟩
      · exact .inl hname
      · exact .inr hname
    · rintro (hname | hname)
      · exact ⟨_, hname, .inl rfl⟩
      · exact ⟨_, hname, .inr rfl⟩
  · exact .of_map _ (inOrder.imp ne_of_lt)
  · -- the first name that a point owns is the first one that is a coordinate of it
    have places : firstPlace owner? a.keys =
        fun id => a.keys.findIdx fun name => name = xOf id ∨ name = yOf id := by
      funext id
      simp only [firstPlace, owner?_eq_some_iff]
    exact places ▸ inOrder

/-- Names are cut at the last underscore. -/
example : (["left_top_x", "radius", "left_top_y", "b_y", "b_z", "_x"].filterMap owner?).eraseDups =
    ["left_top", "b", ""] := by cbv

end Point

end Drafting
