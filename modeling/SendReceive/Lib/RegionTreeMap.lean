import SendReceive.Lib.RegionTree

/-!
# Maps of region trees

A map of region trees changes the regions of the nodes and the labels of the leaves and keeps
the shape.  Walks commute with maps: a map that keeps whether a point is inside leads every walk
to the same place.  So what a tree says about a point depends on no more than a map preserves.

## Main definitions

* `map` — change every region and every label.
* `regions` — the regions of all nodes.

## Main results

* `map_map`, `map_eq_self` — how maps compose, and when they change nothing.
* `visit_map`, `lookup_map` — **walks commute with maps**.
* `visit_congr` — a walk depends on which of the tree's regions are inside.
* `Partitioned.mapLabels_fill` — in a partitioned tree a change of the one leaf of a point is a
  map of the labels.
-/

namespace RegionTree

variable {X D D' D'' L L' L'' A A' E : Type*}

/-! ### Maps -/

/-- The tree with every region changed by `f` and every label by `g`. -/
def map (f : D → D') (g : L → L') : RegionTree D L → RegionTree D' L' :=
  fold (fun d l => leaf (f d) (g l)) fun d cs => node (f d) cs

@[simp] theorem map_leaf (f : D → D') (g : L → L') (d : D) (l : L) :
    map f g (leaf d l) = leaf (f d) (g l) := rfl

@[simp] theorem map_node (f : D → D') (g : L → L') (d : D) (cs : List (RegionTree D L)) :
    map f g (node d cs) = node (f d) (cs.map (map f g)) := by
  rw [map, fold_node]

theorem leaves_map (f : D → D') (g : L → L') (t : RegionTree D L) :
    (map f g t).leaves = t.leaves.map fun p => (f p.1, g p.2) := by
  induction t with
  | leaf d l => rfl
  | node d cs ih =>
    rw [map_node, leaves_node, leaves_node, List.flatMap_map, List.map_flatMap]
    exact List.flatMap_congr ih

/-- The regions of all nodes, the root's first. -/
def regions : RegionTree D L → List D :=
  fold (fun d _ => [d]) fun d rss => d :: rss.flatten

@[simp] theorem regions_leaf (d : D) (l : L) : (leaf d l).regions = [d] := rfl

@[simp] theorem regions_node (d : D) (cs : List (RegionTree D L)) :
    (node d cs).regions = d :: cs.flatMap regions := by
  rw [regions, fold_node, List.flatMap_def]

theorem mem_regions_node {d e : D} {cs : List (RegionTree D L)} :
    e ∈ (node d cs).regions ↔ e = d ∨ ∃ c ∈ cs, e ∈ c.regions := by
  rw [regions_node, List.mem_cons, List.mem_flatMap]

theorem region_mem_regions (t : RegionTree D L) : t.region ∈ t.regions := by
  cases t with
  | leaf d l => exact List.mem_cons_self
  | node d cs => exact mem_regions_node.mpr (Or.inl rfl)

theorem map_map (f : D → D') (g : L → L') (f' : D' → D'') (g' : L' → L'') (t : RegionTree D L) :
    (t.map f g).map f' g' = t.map (f' ∘ f) (g' ∘ g) := by
  induction t with
  | leaf d l => rfl
  | node d cs ih =>
    rw [map_node, map_node, map_node, List.map_map]
    exact congrArg (node (f' (f d))) (List.map_congr_left ih)

/-- Two maps agree on a tree when they agree on its regions and labels. -/
theorem map_congr {f f' : D → D'} {g g' : L → L'} {t : RegionTree D L}
    (hf : ∀ d ∈ t.regions, f d = f' d) (hg : ∀ p ∈ t.leaves, g p.2 = g' p.2) :
    t.map f g = t.map f' g' := by
  induction t with
  | leaf d l =>
    rw [map_leaf, map_leaf, hf d List.mem_cons_self, hg (d, l) List.mem_cons_self]
  | node d cs ih =>
    have hd : f d = f' d := hf d (region_mem_regions (node d cs))
    have hcs : cs.map (map f g) = cs.map (map f' g') := by
      refine List.map_congr_left fun c hc => ih c hc (fun e he => ?_) fun p hp => ?_
      · exact hf e (mem_regions_node.mpr (Or.inr ⟨c, hc, he⟩))
      · exact hg p (by rw [leaves_node]; exact List.mem_flatMap.mpr ⟨c, hc, hp⟩)
    rw [map_node, map_node, hd, hcs]

theorem map_id_id (t : RegionTree D L) : t.map id id = t := by
  induction t with
  | leaf d l => rfl
  | node d cs ih => rw [map_node, List.map_congr_left ih, List.map_id']; rfl

/-- A map that keeps all regions and labels changes nothing. -/
theorem map_eq_self {f : D → D} {g : L → L} {t : RegionTree D L}
    (hf : ∀ d ∈ t.regions, f d = d) (hg : ∀ p ∈ t.leaves, g p.2 = p.2) : t.map f g = t := by
  calc t.map f g = t.map id id := map_congr hf hg
    _ = t := map_id_id t

theorem mapLabels_mapLabels (g : L → L') (g' : L' → L'') (t : RegionTree D L) :
    (t.mapLabels g).mapLabels g' = t.mapLabels (g' ∘ g) :=
  map_map id g id g' t

/-! ### Walks and maps -/

section Walks

variable {f : D → D'} {g : L → L'} {h : A → A'} {inside : D → Bool} {inside' : D' → Bool}
  {act : D → L → Except E (A × RegionTree D L)} {act' : D' → L' → Except E (A' × RegionTree D' L')}

/-- The search in a list commutes with a map when the walks into its trees do. -/
theorem visitFirst_map (stuck : E) : ∀ {cs : List (RegionTree D L)},
    (∀ c ∈ cs, visit stuck inside' act' (c.map f g)
      = (visit stuck inside act c).map (Option.map fun r => (h r.1, r.2.map f g))) →
    visitFirst stuck inside' act' (cs.map (map f g))
      = (visitFirst stuck inside act cs).map fun r => (h r.1, r.2.map (map f g)) := by
  intro cs
  induction cs with
  | nil => intro _; rfl
  | cons c cs ih =>
    intro hcs
    rw [List.map_cons, visitFirst, visitFirst, hcs c List.mem_cons_self]
    rcases visit stuck inside act c with e | _ | ⟨a, c'⟩
    · rfl
    · -- the walk goes on in the rest of the list
      show Except.map _ (visitFirst _ _ _ _) = Except.map _ (Except.map _ (visitFirst _ _ _ _))
      rw [ih fun b hb => hcs b (List.mem_cons_of_mem _ hb)]
      cases visitFirst stuck inside act cs <;> rfl
    · rfl

/-- **Walks commute with maps** that keep which regions are inside, when the actions at the
leaves do. -/
theorem visit_map (stuck : E) {t : RegionTree D L}
    (hin : ∀ d ∈ t.regions, inside' (f d) = inside d)
    (hact : ∀ d l, act' (f d) (g l) = (act d l).map fun r => (h r.1, r.2.map f g)) :
    visit stuck inside' act' (t.map f g)
      = (visit stuck inside act t).map (Option.map fun r => (h r.1, r.2.map f g)) := by
  induction t with
  | leaf d l =>
    rw [map_leaf, visit, visit, hin d List.mem_cons_self, hact d l]
    cases inside d
    · rfl
    · cases act d l <;> rfl
  | node d cs ih =>
    have hd : inside' (f d) = inside d := hin d (region_mem_regions (node d cs))
    have hcs := visitFirst_map (f := f) (g := g) stuck fun c hc =>
      ih c hc fun e he => hin e (mem_regions_node.mpr (Or.inr ⟨c, hc, he⟩))
    rw [map_node, visit, visit, hd, hcs]
    cases inside d
    · rfl
    · cases visitFirst stuck inside act cs with
      | error e => rfl
      | ok r =>
        show Except.ok (some (h r.1, node (f d) (r.2.map (map f g))))
          = Except.ok (some (h r.1, (node d r.2).map f g))
        rw [map_node]

end Walks

/-- A walk depends on which of the regions of the tree are inside. -/
theorem visit_congr (stuck : E) {inside inside' : D → Bool}
    (act : D → L → Except E (A × RegionTree D L)) {t : RegionTree D L}
    (h : ∀ d ∈ t.regions, inside' d = inside d) :
    visit stuck inside' act t = visit stuck inside act t := by
  have hmap : visit stuck inside' act (t.map id id)
      = (visit stuck inside act t).map (Option.map fun r => (id r.1, r.2.map id id)) := by
    refine visit_map stuck h fun d l => ?_
    simp only [id, map_id_id]
    cases act d l <;> rfl
  rw [map_id_id] at hmap
  rw [hmap]
  rcases visit stuck inside act t with e | _ | ⟨a, t'⟩
  · rfl
  · rfl
  · simp [Except.map, map_id_id]

/-- **Looking up commutes with maps** that keep which regions contain the point. -/
theorem lookup_map [Region X D] [Region X D'] {f : D → D'} (g : L → L') (stuck : E) {x : X}
    {t : RegionTree D L} (h : ∀ d ∈ t.regions, Region.contains (f d) x = Region.contains d x) :
    (t.map f g).lookup stuck x = (t.lookup stuck x).map (Option.map g) := by
  have hvisit : visit stuck (Region.contains · x) (fun d l => .ok (l, leaf d l)) (t.map f g)
      = (visit stuck (Region.contains · x) (fun d l => .ok (l, leaf d l)) t).map
        (Option.map fun r => (g r.1, r.2.map f g)) :=
    visit_map stuck h fun d l => rfl
  rw [lookup, lookup, hvisit]
  rcases visit stuck (Region.contains · x) (fun d l => .ok (l, leaf d l)) t with e | _ | r <;> rfl

/-! ### Changing one leaf -/

/-- A map of the labels that keeps all of them changes nothing. -/
theorem mapLabels_eq_self {g : L → L} {t : RegionTree D L} (h : ∀ p ∈ t.leaves, g p.2 = p.2) :
    t.mapLabels g = t :=
  map_eq_self (fun _ _ => rfl) h

theorem map_mapLabels_eq_self {g : L → L} {cs : List (RegionTree D L)}
    (h : ∀ p ∈ cs.flatMap leaves, g p.2 = p.2) : cs.map (mapLabels g) = cs := by
  have hcs : ∀ c ∈ cs, c.mapLabels g = c := fun c hc =>
    mapLabels_eq_self fun p hp => h p (List.mem_flatMap.mpr ⟨c, hc, hp⟩)
  rw [List.map_congr_left hcs, List.map_id']

namespace Context

/-- What fills the hole is all of a tree that a map sees when it keeps the other labels. -/
theorem mapLabels_fill {C : Context D L} {g : L → L} {s : RegionTree D L}
    (hbefore : ∀ p ∈ C.leavesBefore, g p.2 = p.2) (hafter : ∀ p ∈ C.leavesAfter, g p.2 = p.2) :
    (C.fill s).mapLabels g = C.fill (s.mapLabels g) := by
  induction C with
  | hole => rfl
  | node d left C right ih =>
    have hleft : left.map (mapLabels g) = left :=
      map_mapLabels_eq_self fun p hp => hbefore p (List.mem_append_left _ hp)
    have hright : right.map (mapLabels g) = right :=
      map_mapLabels_eq_self fun p hp => hafter p (List.mem_append_right _ hp)
    have hinner := ih (fun p hp => hbefore p (List.mem_append_right _ hp))
      fun p hp => hafter p (List.mem_append_left _ hp)
    rw [fill_node, fill_node, mapLabels_node, List.map_append, List.map_cons, hleft, hright, hinner]

/-- Fillings that a map of the labels makes equal give trees that it makes equal. -/
theorem mapLabels_fill_congr {C : Context D L} {g : L → L'} {s s' : RegionTree D L}
    (h : s.mapLabels g = s'.mapLabels g) : (C.fill s).mapLabels g = (C.fill s').mapLabels g := by
  induction C with
  | hole => exact h
  | node d left C right ih =>
    rw [fill_node, fill_node, mapLabels_node, mapLabels_node, List.map_append, List.map_append,
      List.map_cons, List.map_cons, ih]

end Context

/-- **In a partitioned tree a change of the leaf of a point is a map of the labels**, when the
map tells the leaves apart by whether they contain the point. -/
theorem Partitioned.mapLabels_fill [Region X D] {C : Context D L} {d : D} {l : L} {x : X}
    (h : Partitioned (C.fill (.leaf d l))) (hx : Region.contains d x) {g : L → L}
    (hg : ∀ p ∈ (C.fill (.leaf d l)).leaves, ¬ Region.contains p.1 x → g p.2 = p.2) :
    (C.fill (.leaf d l)).mapLabels g = C.fill (.leaf d (g l)) := by
  have hmem := C.mem_leaves_fill_leaf d l
  -- the leaf in the hole is the only one that contains the point
  have hcount := h.countP_leaves x
  rw [h.contains_region_of_mem hmem hx, Context.leaves_fill, List.countP_append, List.countP_append,
    leaves_leaf, List.countP_singleton, if_pos hx, Bool.toNat_true] at hcount
  have hbefore : C.leavesBefore.countP (fun p => Region.contains p.1 x) = 0 := by omega
  have hafter : C.leavesAfter.countP (fun p => Region.contains p.1 x) = 0 := by omega
  rw [Context.leaves_fill] at hg
  refine Context.mapLabels_fill (fun p hp => ?_) fun p hp => ?_
  · refine hg p (List.mem_append_left _ (List.mem_append_left _ hp)) ?_
    exact List.countP_eq_zero.mp hbefore p hp
  · exact hg p (List.mem_append_right _ hp) (List.countP_eq_zero.mp hafter p hp)

end RegionTree
