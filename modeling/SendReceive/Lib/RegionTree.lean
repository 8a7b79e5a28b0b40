import Mathlib.Algebra.BigOperators.Group.List.Basic
import Mathlib.Data.List.Basic

/-!
# Region trees

A region tree divides a space `X` over and over: every node describes a region of
the space by a value of a type `D`, a leaf carries a label, and the children of an
interior node are meant to divide its region between them.

A tree is *partitioned* when at each interior node every point of the node's
region lies in exactly one child and no other point lies in any.  The whole
development counts: `ds` splits `d` when the number of regions of `ds` a point
lies in is the indicator of `d` at that point, so that splitting composes by adding
indicators.  In a partitioned tree the walk that descends into the first child
containing a point ends at the only leaf containing it.

The place a walk ends at is a *context*: a tree with a hole.  Whatever a walk does to the
leaf it ends at, it does by filling the hole of one and the same context.

## Main definitions

* `RegionTree`, `fold` — the trees and their recursion.
* `Splits`, `Partitioned` — the partition of a region, and of a tree.
* `visit` — descend to a point's leaf and act on it.
* `Context`, `Context.fill`, `Context.Leads` — where a walk ends.
* `policy` — the partial function on the space that a tree stands for.

## Main results

* `Partitioned.countP_leaves` — the leaves of a partitioned tree split its root.
* `Partitioned.exists_context` — each point of the root region has a leaf.
* `visit_fill` — the walk along a context acts on what fills the hole.
* `visit_eq_some`, `visit_eq_error` — what a walk did when it succeeds, and why it fails.
* `Partitioned.fill`, `Partitioned.policy_fill` — **replacing a leaf by a tree with
  the same region keeps the partition and changes the function on that region only.**
-/

/-- The values of `D` describe regions of the space `X`. -/
class Region (X : outParam (Type*)) (D : Type*) where
  /-- Whether a point lies in a region. -/
  contains : D → X → Bool

/-- Trees whose nodes describe regions and whose leaves carry labels. -/
inductive RegionTree (D L : Type*) where
  /-- A leaf: its region and its label. -/
  | leaf (region : D) (label : L) : RegionTree D L
  /-- An interior node: its region and its children, in order. -/
  | node (region : D) (children : List (RegionTree D L)) : RegionTree D L

namespace RegionTree

variable {X D L L' A β E : Type*}

/-- The region of the root. -/
def region : RegionTree D L → D
  | .leaf d _ => d
  | .node d _ => d

@[simp] theorem region_leaf (d : D) (l : L) : (leaf d l).region = d := rfl

@[simp] theorem region_node (d : D) (cs : List (RegionTree D L)) : (node d cs).region = d := rfl

/-- Induction over a tree, with the hypothesis for every child. -/
@[elab_as_elim, induction_eliminator]
theorem induct {P : RegionTree D L → Prop} (leaf : ∀ d l, P (leaf d l))
    (node : ∀ d cs, (∀ c ∈ cs, P c) → P (node d cs)) (t : RegionTree D L) : P t :=
  @RegionTree.rec D L P (fun cs => ∀ c ∈ cs, P c) leaf (fun d cs ih => node d cs ih)
    (fun _ hc => absurd hc List.not_mem_nil)
    (fun _ _ hc hcs => List.forall_mem_cons.mpr ⟨hc, hcs⟩) t

/-! ### Recursion over a tree -/

mutual

/-- Recursion over a tree: `node` combines the results of the children. -/
def fold (leaf : D → L → β) (node : D → List β → β) : RegionTree D L → β
  | .leaf d l => leaf d l
  | .node d cs => node d (foldAll leaf node cs)

/-- The results of `fold` for each tree of a list. -/
def foldAll (leaf : D → L → β) (node : D → List β → β) : List (RegionTree D L) → List β
  | [] => []
  | c :: cs => fold leaf node c :: foldAll leaf node cs

end

@[simp] theorem fold_leaf (f : D → L → β) (g : D → List β → β) (d : D) (l : L) :
    fold f g (leaf d l) = f d l := rfl

theorem foldAll_eq_map (f : D → L → β) (g : D → List β → β) (cs : List (RegionTree D L)) :
    foldAll f g cs = cs.map (fold f g) := by
  induction cs with
  | nil => rfl
  | cons c cs ih => rw [foldAll, ih, List.map_cons]

@[simp] theorem fold_node (f : D → L → β) (g : D → List β → β) (d : D)
    (cs : List (RegionTree D L)) : fold f g (node d cs) = g d (cs.map (fold f g)) := by
  rw [fold, foldAll_eq_map]

/-- The leaves of a tree from left to right, each with its region. -/
def leaves : RegionTree D L → List (D × L) :=
  fold (fun d l => [(d, l)]) fun _ lss => lss.flatten

@[simp] theorem leaves_leaf (d : D) (l : L) : (leaf d l).leaves = [(d, l)] := rfl

@[simp] theorem leaves_node (d : D) (cs : List (RegionTree D L)) :
    (node d cs).leaves = cs.flatMap leaves := by
  rw [leaves, fold_node, List.flatMap_def]

/-- The tree with every label changed by `f`. -/
def mapLabels (f : L → L') : RegionTree D L → RegionTree D L' :=
  fold (fun d l => leaf d (f l)) node

@[simp] theorem mapLabels_leaf (f : L → L') (d : D) (l : L) :
    mapLabels f (leaf d l) = leaf d (f l) := rfl

@[simp] theorem mapLabels_node (f : L → L') (d : D) (cs : List (RegionTree D L)) :
    mapLabels f (node d cs) = node d (cs.map (mapLabels f)) := by
  rw [mapLabels, fold_node]

@[simp] theorem region_mapLabels (f : L → L') (t : RegionTree D L) :
    (mapLabels f t).region = t.region := by
  cases t <;> simp

theorem leaves_mapLabels (f : L → L') (t : RegionTree D L) :
    (mapLabels f t).leaves = t.leaves.map fun p => (p.1, f p.2) := by
  induction t with
  | leaf d l => rfl
  | node d cs ih =>
    rw [mapLabels_node, leaves_node, leaves_node, List.flatMap_map, List.map_flatMap]
    exact List.flatMap_congr ih

/-- `s` is a subtree of `t`. -/
inductive Subtree : RegionTree D L → RegionTree D L → Prop
  /-- A tree is a subtree of itself. -/
  | refl (t : RegionTree D L) : Subtree t t
  /-- A subtree of a child is a subtree. -/
  | child {s c : RegionTree D L} {d : D} {cs : List (RegionTree D L)} (mem : c ∈ cs)
      (sub : Subtree s c) : Subtree s (node d cs)

/-! ### The walk to a leaf -/

section Visit

variable (stuck : E) (inside : D → Bool) (act : D → L → Except E (A × RegionTree D L))

mutual

/-- Walk from the root into the first child whose region is inside, and replace the
leaf the walk ends at by what `act` makes of it.  The result is `none` when the
root itself is not inside; the walk fails with `stuck` at an interior node that is
inside when none of its children is. -/
def visit : RegionTree D L → Except E (Option (A × RegionTree D L))
  | .leaf d l => if inside d then (act d l).map some else .ok none
  | .node d cs =>
      if inside d then (visitFirst cs).map fun r => some (r.1, .node d r.2) else .ok none

/-- Walk into the first tree of a list that is inside. -/
def visitFirst : List (RegionTree D L) → Except E (A × List (RegionTree D L))
  | [] => .error stuck
  | c :: cs =>
      match visit c with
      | .error e => .error e
      | .ok (some (a, c')) => .ok (a, c' :: cs)
      | .ok none => (visitFirst cs).map fun r => (r.1, c :: r.2)

end

variable {inside act}

theorem visit_of_not_inside {t : RegionTree D L} (h : ¬ inside t.region) :
    visit stuck inside act t = .ok none := by
  cases t with
  | leaf d l => rw [region_leaf] at h; rw [visit, if_neg h]
  | node d cs => rw [region_node] at h; rw [visit, if_neg h]

/-- A walk from a root that is inside does not come back empty-handed. -/
theorem visit_ne_none {t : RegionTree D L} (h : inside t.region) :
    visit stuck inside act t ≠ .ok none := by
  cases t with
  | leaf d l =>
    rw [region_leaf] at h
    rw [visit, if_pos h]
    cases act d l <;> simp [Except.map]
  | node d cs =>
    rw [region_node] at h
    rw [visit, if_pos h]
    cases visitFirst stuck inside act cs <;> simp [Except.map]

/-- The walk passes over the children that are not inside. -/
theorem visitFirst_append {bs cs : List (RegionTree D L)} (h : ∀ b ∈ bs, ¬ inside b.region) :
    visitFirst stuck inside act (bs ++ cs)
      = (visitFirst stuck inside act cs).map fun r => (r.1, bs ++ r.2) := by
  induction bs with
  | nil => cases h' : visitFirst stuck inside act cs <;> simp [Except.map, h']
  | cons b bs ih =>
    rw [List.cons_append, visitFirst, visit_of_not_inside stuck (h b List.mem_cons_self),
      ih fun b' hb' => h b' (List.mem_cons_of_mem _ hb')]
    cases visitFirst stuck inside act cs <;> rfl

/-- A search that succeeds replaced the first child that is inside. -/
theorem visitFirst_eq_ok {a : A} : ∀ {cs cs' : List (RegionTree D L)},
    visitFirst stuck inside act cs = .ok (a, cs') →
      ∃ left c c' right, cs = left ++ c :: right ∧ cs' = left ++ c' :: right ∧
        (∀ b ∈ left, ¬ inside b.region) ∧ visit stuck inside act c = .ok (some (a, c')) := by
  intro cs
  induction cs with
  | nil => intro cs' h; cases h
  | cons c cs ih =>
    intro cs' h
    rw [visitFirst] at h
    rcases hc : visit stuck inside act c with e | _ | ⟨b, c'⟩
    · rw [hc] at h
      cases h
    · rw [hc] at h
      cases hcs : visitFirst stuck inside act cs with
      | error e => rw [hcs] at h; cases h
      | ok r =>
        rw [hcs] at h
        obtain ⟨rfl, rfl⟩ := Prod.mk.inj (Except.ok.inj h)
        obtain ⟨left, d, d', right, rfl, hr, hleft, hd⟩ := ih hcs
        have hout : ¬ inside c.region := fun hin => visit_ne_none stuck hin hc
        refine ⟨c :: left, d, d', right, rfl, by rw [hr]; rfl, ?_, hd⟩
        exact List.forall_mem_cons.mpr ⟨hout, hleft⟩
    · rw [hc] at h
      obtain ⟨rfl, rfl⟩ := Prod.mk.inj (Except.ok.inj h)
      exact ⟨[], c, c', cs, rfl, rfl, fun b hb => absurd hb List.not_mem_nil, hc⟩

/-- A search fails when it comes to the end, or with the failure of a child. -/
theorem visitFirst_eq_error {e : E} : ∀ {cs : List (RegionTree D L)},
    visitFirst stuck inside act cs = .error e →
      e = stuck ∨ ∃ c ∈ cs, visit stuck inside act c = .error e := by
  intro cs
  induction cs with
  | nil => intro h; exact Or.inl (Except.error.inj h).symm
  | cons c cs ih =>
    intro h
    rw [visitFirst] at h
    rcases hc : visit stuck inside act c with e' | _ | ⟨b, c'⟩
    · rw [hc] at h
      exact Or.inr ⟨c, List.mem_cons_self, by rw [hc, Except.error.inj h]⟩
    · rw [hc] at h
      cases hcs : visitFirst stuck inside act cs with
      | error e' =>
        rw [hcs] at h
        obtain rfl := Except.error.inj h
        rcases ih hcs with hstuck | ⟨d, hd, hde⟩
        · exact Or.inl hstuck
        · exact Or.inr ⟨d, List.mem_cons_of_mem _ hd, hde⟩
      | ok r => rw [hcs] at h; cases h
    · rw [hc] at h
      cases h

/-- A walk fails when it gets stuck, or with the failure of what it does at a leaf. -/
theorem visit_eq_error {t : RegionTree D L} {e : E} (h : visit stuck inside act t = .error e) :
    e = stuck ∨ ∃ d l, act d l = .error e := by
  induction t with
  | leaf d l =>
    unfold visit at h
    split at h
    · refine Or.inr ⟨d, l, ?_⟩
      cases hact : act d l with
      | error e' => rw [hact] at h; rw [Except.error.inj h]
      | ok r => rw [hact] at h; cases h
    · cases h
  | node d cs ih =>
    unfold visit at h
    split at h
    · cases hcs : visitFirst stuck inside act cs with
      | error e' =>
        rw [hcs] at h
        obtain rfl := Except.error.inj h
        rcases visitFirst_eq_error stuck hcs with hstuck | ⟨c, hc, hce⟩
        · exact Or.inl hstuck
        · exact ih c hc hce
      | ok r => rw [hcs] at h; cases h
    · cases h

end Visit

/-! ### Contexts -/

/-- A tree with a hole: the path to the hole, with the siblings on either side. -/
inductive Context (D L : Type*) where
  /-- The hole is the whole tree. -/
  | hole : Context D L
  /-- The hole lies below one child of a node, between the children on its left and on
  its right. -/
  | node (region : D) (left : List (RegionTree D L)) (inner : Context D L)
      (right : List (RegionTree D L)) : Context D L

namespace Context

/-- The tree with `s` in the place of the hole. -/
def fill : Context D L → RegionTree D L → RegionTree D L
  | .hole, s => s
  | .node d left C right, s => .node d (left ++ C.fill s :: right)

/-- The leaves to the left of the hole. -/
def leavesBefore : Context D L → List (D × L)
  | .hole => []
  | .node _ left C _ => left.flatMap leaves ++ C.leavesBefore

/-- The leaves to the right of the hole. -/
def leavesAfter : Context D L → List (D × L)
  | .hole => []
  | .node _ _ C right => C.leavesAfter ++ right.flatMap leaves

/-- The walk comes to the hole: the regions above it are inside, and those the walk
looks at before turning towards the hole are not. -/
def Leads (inside : D → Bool) : Context D L → Prop
  | .hole => True
  | .node d left C _ => inside d ∧ (∀ b ∈ left, ¬ inside b.region) ∧ C.Leads inside

@[simp] theorem fill_hole (s : RegionTree D L) : (hole : Context D L).fill s = s := rfl

@[simp] theorem fill_node (d : D) (left : List (RegionTree D L)) (C : Context D L)
    (right : List (RegionTree D L)) (s : RegionTree D L) :
    (node d left C right).fill s = .node d (left ++ C.fill s :: right) := rfl

theorem leaves_fill (C : Context D L) (s : RegionTree D L) :
    (C.fill s).leaves = C.leavesBefore ++ s.leaves ++ C.leavesAfter := by
  induction C with
  | hole => simp [leavesBefore, leavesAfter]
  | node d left C right ih =>
    rw [fill_node, leaves_node, List.flatMap_append, List.flatMap_cons, ih, leavesBefore,
      leavesAfter]
    simp only [List.append_assoc]

/-- What fills the hole contributes its leaves. -/
theorem mem_leaves_fill {C : Context D L} {s : RegionTree D L} {p : D × L} (hp : p ∈ s.leaves) :
    p ∈ (C.fill s).leaves := by
  rw [leaves_fill]
  exact List.mem_append_left _ (List.mem_append_right _ hp)

/-- A leaf of a filled context is one of the filling, or stays whatever fills the hole. -/
theorem mem_leaves_fill_cases {C : Context D L} {s : RegionTree D L} {p : D × L}
    (hp : p ∈ (C.fill s).leaves) :
    p ∈ s.leaves ∨ ∀ s' : RegionTree D L, p ∈ (C.fill s').leaves := by
  rw [leaves_fill] at hp
  rcases List.mem_append.mp hp with hp | hafter
  · rcases List.mem_append.mp hp with hbefore | hs
    · refine Or.inr fun s' => ?_
      rw [leaves_fill]
      exact List.mem_append_left _ (List.mem_append_left _ hbefore)
    · exact Or.inl hs
  · refine Or.inr fun s' => ?_
    rw [leaves_fill]
    exact List.mem_append_right _ hafter

/-- The leaf in the hole is a leaf of the tree. -/
theorem mem_leaves_fill_leaf (C : Context D L) (d : D) (l : L) :
    (d, l) ∈ (C.fill (.leaf d l)).leaves :=
  mem_leaves_fill (List.mem_singleton.mpr rfl)

end Context

/-- **A walk along a context acts on what fills the hole** and rebuilds the rest of
the tree around it. -/
theorem visit_fill (stuck : E) {inside : D → Bool}
    {act : D → L → Except E (A × RegionTree D L)} {C : Context D L} (h : C.Leads inside)
    {s : RegionTree D L} (hs : inside s.region) :
    visit stuck inside act (C.fill s)
      = (visit stuck inside act s).map (Option.map fun r => (r.1, C.fill r.2)) := by
  induction C with
  | hole => cases hv : visit stuck inside act s <;> simp [Except.map, hv]
  | node d left C right ih =>
    obtain ⟨hd, hleft, hC⟩ := h
    rw [Context.fill_node, visit, if_pos hd, visitFirst_append stuck hleft, visitFirst, ih hC]
    rcases hv : visit stuck inside act s with e | _ | ⟨a, s'⟩
    · rfl
    · exact absurd hv (visit_ne_none stuck hs)
    · rfl

/-- A walk that ends at a leaf does there what `act` does. -/
theorem visit_fill_leaf (stuck : E) {inside : D → Bool}
    {act : D → L → Except E (A × RegionTree D L)} {C : Context D L} (h : C.Leads inside)
    {d : D} {l : L} (hd : inside d) :
    visit stuck inside act (C.fill (.leaf d l))
      = (act d l).map fun r => some (r.1, C.fill r.2) := by
  have hregion : inside (leaf d l).region := hd
  rw [visit_fill stuck h hregion, visit, if_pos hd]
  cases act d l <;> rfl

/-- **What a walk that succeeds did**: it came along a context to a leaf and replaced it. -/
theorem visit_eq_some (stuck : E) {inside : D → Bool}
    {act : D → L → Except E (A × RegionTree D L)} {t t' : RegionTree D L} {a : A}
    (h : visit stuck inside act t = .ok (some (a, t'))) :
    ∃ (C : Context D L) (d : D) (l : L) (s : RegionTree D L),
      t = C.fill (leaf d l) ∧ C.Leads inside ∧ inside d ∧ act d l = .ok (a, s) ∧ t' = C.fill s := by
  induction t generalizing t' with
  | leaf d l =>
    unfold visit at h
    split at h
    · rename_i hd
      cases hact : act d l with
      | error e => rw [hact] at h; cases h
      | ok r =>
        rw [hact] at h
        obtain rfl := Option.some.inj (Except.ok.inj h)
        exact ⟨.hole, d, l, t', rfl, trivial, hd, hact, rfl⟩
    · cases h
  | node d cs ih =>
    unfold visit at h
    split at h
    · rename_i hd
      cases hcs : visitFirst stuck inside act cs with
      | error e => rw [hcs] at h; cases h
      | ok r =>
        obtain ⟨b, cs'⟩ := r
        rw [hcs] at h
        obtain ⟨rfl, rfl⟩ := Prod.mk.inj (Option.some.inj (Except.ok.inj h))
        obtain ⟨left, c, c', right, rfl, rfl, hleft, hc⟩ := visitFirst_eq_ok stuck hcs
        obtain ⟨C, e, l, s, rfl, hC, he, hact, rfl⟩ :=
          ih c (List.mem_append_right _ List.mem_cons_self) hc
        exact ⟨.node d left C right, e, l, s, rfl, ⟨hd, hleft, hC⟩, he, hact, rfl⟩
    · cases h

/-! ### Partitions -/

/-- Counting along a `flatMap` whose parts each count as an indicator. -/
theorem countP_flatMap_of_indicator {α γ : Type*} {p : α → Bool} {q : γ → Bool} {f : α → List γ} :
    ∀ {l : List α}, (∀ a ∈ l, (f a).countP q = (p a).toNat) →
      (l.flatMap f).countP q = l.countP p := by
  intro l
  induction l with
  | nil => intro _; rfl
  | cons a l ih =>
    intro h
    rw [List.flatMap_cons, List.countP_append, h a List.mem_cons_self,
      ih fun b hb => h b (List.mem_cons_of_mem _ hb), List.countP_cons, Nat.add_comm]
    cases p a <;> rfl

/-- What counts as an indicator and has a member that counts is one. -/
theorem eq_true_of_countP {α : Type*} {p : α → Bool} {l : List α} {b : Bool}
    (h : l.countP p = b.toNat) {a : α} (ha : a ∈ l) (hpa : p a) : b = true := by
  have hpos : 0 < l.countP p := List.countP_pos_iff.mpr ⟨a, ha, hpa⟩
  rw [h] at hpos
  cases b with
  | true => rfl
  | false => exact absurd hpos (Nat.lt_irrefl 0)

variable [Region X D]

/-- The regions `ds` split the region `d`: every point of `d` lies in exactly one
of them, every other point in none. -/
def Splits (d : D) (ds : List D) : Prop :=
  ∀ x : X, ds.countP (Region.contains · x) = (Region.contains d x).toNat

theorem Splits.singleton {d e : D} (h : ∀ x : X, Region.contains e x = Region.contains d x) :
    Splits d [e] := by
  intro x
  rw [List.countP_singleton, h x]
  cases Region.contains d x <;> rfl

/-- A region is split by two disjoint regions that cover it. -/
theorem Splits.pair {d e₁ e₂ : D}
    (cover : ∀ x : X, Region.contains d x ↔ Region.contains e₁ x ∨ Region.contains e₂ x)
    (disj : ∀ x : X, ¬ (Region.contains e₁ x ∧ Region.contains e₂ x)) : Splits d [e₁, e₂] := by
  intro x
  have hc := cover x
  have hd := disj x
  revert hc hd
  simp only [List.countP_cons, List.countP_nil]
  cases Region.contains d x <;> cases Region.contains e₁ x <;> cases Region.contains e₂ x <;> simp

/-- Splitting each piece of a split again splits the region. -/
theorem Splits.flatMap {d : D} {ds : List D} {f : D → List D} (h : Splits d ds)
    (hf : ∀ e ∈ ds, Splits e (f e)) : Splits d (ds.flatMap f) := by
  intro x
  rw [countP_flatMap_of_indicator fun e he => hf e he x, h x]

/-- A point of a split region lies in one of the pieces. -/
theorem Splits.exists_mem {d : D} {ds : List D} {x : X} (h : Splits d ds)
    (hx : Region.contains d x) : ∃ e ∈ ds, Region.contains e x := by
  have hpos : 0 < ds.countP (Region.contains · x) := by rw [h x, hx]; exact Nat.one_pos
  exact List.countP_pos_iff.mp hpos

/-- The pieces of a split region lie in it. -/
theorem Splits.contains_of_mem {d e : D} {ds : List D} {x : X} (h : Splits d ds) (he : e ∈ ds)
    (hx : Region.contains e x) : Region.contains d x := by
  have hpos : 0 < ds.countP (Region.contains · x) := List.countP_pos_iff.mpr ⟨e, he, hx⟩
  rw [h x] at hpos
  cases hd : Region.contains d x with
  | false =>
    rw [hd] at hpos
    exact absurd hpos (Nat.lt_irrefl 0)
  | true => rfl

/-- At every interior node the regions of the children split the node's region. -/
inductive Partitioned : RegionTree D L → Prop
  /-- A leaf has nothing to divide. -/
  | leaf (d : D) (l : L) : Partitioned (leaf d l)
  /-- A node divides its region between children that are partitioned themselves. -/
  | node {d : D} {cs : List (RegionTree D L)} (splits : Splits d (cs.map region))
      (sub : ∀ c ∈ cs, Partitioned c) : Partitioned (node d cs)

theorem Partitioned.splits {d : D} {cs : List (RegionTree D L)} (h : Partitioned (.node d cs)) :
    Splits d (cs.map region) := by
  cases h with
  | node splits sub => exact splits

theorem Partitioned.sub {d : D} {cs : List (RegionTree D L)} (h : Partitioned (.node d cs)) :
    ∀ c ∈ cs, Partitioned c := by
  cases h with
  | node splits sub => exact sub

theorem Partitioned.subtree {s t : RegionTree D L} (hsub : Subtree s t) (h : Partitioned t) :
    Partitioned s := by
  induction hsub with
  | refl => exact h
  | child mem _ ih => exact ih (h.sub _ mem)

theorem Partitioned.mapLabels {t : RegionTree D L} (f : L → L') (h : Partitioned t) :
    Partitioned (t.mapLabels f) := by
  induction h with
  | leaf d l => exact .leaf d (f l)
  | node splits sub ih =>
    rw [mapLabels_node]
    refine .node ?_ ?_
    · have hregion : RegionTree.region ∘ RegionTree.mapLabels f = RegionTree.region (D := D) :=
        funext fun c => region_mapLabels f c
      rwa [List.map_map, hregion]
    · intro c hc
      obtain ⟨c', hc', rfl⟩ := List.mem_map.mp hc
      exact ih c' hc'

/-- **The leaves of a partitioned tree split its root region**: the number of
leaves a point lies in is the indicator of the root. -/
theorem Partitioned.countP_leaves {t : RegionTree D L} (h : Partitioned t) (x : X) :
    t.leaves.countP (fun p => Region.contains p.1 x) = (Region.contains t.region x).toNat := by
  induction h with
  | leaf d l =>
    rw [leaves_leaf, List.countP_singleton, region_leaf]
    cases Region.contains d x <;> rfl
  | @node d cs splits sub ih =>
    rw [leaves_node, countP_flatMap_of_indicator ih, region_node, ← splits x, List.countP_map]
    rfl

/-! ### Trees as functions on the space -/

/-- A point of a leaf of a partitioned tree is a point of the root region. -/
theorem Partitioned.contains_region_of_mem {t : RegionTree D L} (h : Partitioned t) {x : X}
    {p : D × L} (hp : p ∈ t.leaves) (hx : Region.contains p.1 x) : Region.contains t.region x :=
  eq_true_of_countP (h.countP_leaves x) hp hx

/-- **In a partitioned tree a point lies in one leaf only.** -/
theorem Partitioned.filter_leaves {t : RegionTree D L} (h : Partitioned t) {x : X} {p : D × L}
    (hp : p ∈ t.leaves) (hx : Region.contains p.1 x) :
    t.leaves.filter (fun r => Region.contains r.1 x) = [p] := by
  have hlen : (t.leaves.filter fun r => Region.contains r.1 x).length = 1 := by
    rw [← List.countP_eq_length_filter, h.countP_leaves x, h.contains_region_of_mem hp hx]
    rfl
  have hmem : p ∈ t.leaves.filter fun r => Region.contains r.1 x := List.mem_filter.mpr ⟨hp, hx⟩
  obtain ⟨a, ha⟩ := List.length_eq_one_iff.mp hlen
  rw [ha, List.mem_singleton] at hmem
  rw [ha, hmem]

theorem Partitioned.leaf_unique {t : RegionTree D L} (h : Partitioned t) {x : X} {p q : D × L}
    (hp : p ∈ t.leaves) (hq : q ∈ t.leaves) (hpx : Region.contains p.1 x)
    (hqx : Region.contains q.1 x) : p = q := by
  have hmem : p ∈ t.leaves.filter fun r => Region.contains r.1 x := List.mem_filter.mpr ⟨hp, hpx⟩
  rw [h.filter_leaves hq hqx] at hmem
  exact List.mem_singleton.mp hmem

/-- **Each point of the root region is led to a leaf.** -/
theorem Partitioned.exists_context {t : RegionTree D L} (h : Partitioned t) {x : X}
    (hx : Region.contains t.region x) :
    ∃ C d l, t = Context.fill C (.leaf d l) ∧ Region.contains d x ∧
      C.Leads (Region.contains · x) := by
  induction h with
  | leaf d l => exact ⟨.hole, d, l, rfl, hx, trivial⟩
  | @node d cs splits sub ih =>
    -- the walk turns into the first child that contains the point
    obtain ⟨c, hc⟩ : ∃ c, cs.find? (fun c => Region.contains c.region x) = some c := by
      obtain ⟨e, he, hex⟩ := splits.exists_mem hx
      obtain ⟨c, hc, rfl⟩ := List.mem_map.mp he
      exact Option.isSome_iff_exists.mp (List.find?_isSome.mpr ⟨c, hc, hex⟩)
    obtain ⟨hcx, left, right, rfl, hleft⟩ := List.find?_eq_some_iff_append.mp hc
    obtain ⟨C, e, l, rfl, hex, hC⟩ := ih c (List.mem_append_right _ List.mem_cons_self) hcx
    refine ⟨.node d left C right, e, l, rfl, hex, hx, fun b hb => ?_, hC⟩
    simpa using hleft b hb

/-- The place of a leaf that contains a point. -/
theorem Partitioned.context_of_mem {t : RegionTree D L} (h : Partitioned t) {x : X} {d : D}
    {l : L} (hmem : (d, l) ∈ t.leaves) (hx : Region.contains d x) :
    ∃ C : Context D L, t = C.fill (.leaf d l) ∧ C.Leads (Region.contains · x) := by
  have hroot : Region.contains t.region x := h.contains_region_of_mem hmem hx
  obtain ⟨C, e, k, rfl, hex, hC⟩ := h.exists_context hroot
  obtain ⟨rfl, rfl⟩ := Prod.mk.inj (h.leaf_unique (C.mem_leaves_fill_leaf e k) hmem hex hx)
  exact ⟨C, rfl, hC⟩

/-- The partial function on the space a tree stands for: the label of the first leaf
that contains a point. -/
def policy (t : RegionTree D L) (x : X) : Option L :=
  (t.leaves.find? fun p => Region.contains p.1 x).map Prod.snd

theorem Partitioned.policy_of_mem {t : RegionTree D L} (h : Partitioned t) {x : X} {d : D} {l : L}
    (hmem : (d, l) ∈ t.leaves) (hx : Region.contains d x) : t.policy x = some l := by
  obtain ⟨p, hp⟩ : ∃ p, t.leaves.find? (fun p => Region.contains p.1 x) = some p :=
    Option.isSome_iff_exists.mp (List.find?_isSome.mpr ⟨(d, l), hmem, hx⟩)
  have hpx : Region.contains p.1 x := by simpa using List.find?_some hp
  have hpl : p = (d, l) := h.leaf_unique (List.mem_of_find?_eq_some hp) hmem hpx hx
  rw [policy, hp, hpl]
  rfl

theorem Partitioned.policy_eq_none {t : RegionTree D L} (h : Partitioned t) {x : X}
    (hx : ¬ Region.contains t.region x) : t.policy x = none := by
  have hzero : t.leaves.countP (fun p => Region.contains p.1 x) = 0 := by
    rw [h.countP_leaves x, Bool.not_eq_true _ |>.mp hx]; rfl
  rw [policy, List.find?_eq_none.mpr (List.countP_eq_zero.mp hzero)]
  rfl

/-- What the walk to the leaf of a point finds there. -/
def lookup (stuck : E) (x : X) (t : RegionTree D L) : Except E (Option L) :=
  (visit stuck (Region.contains · x) (fun d l => .ok (l, leaf d l)) t).map (Option.map Prod.fst)

/-- Looking up finds a leaf when the walk comes along a context to a leaf that contains the
point. -/
theorem lookup_eq_some {stuck : E} {x : X} {t : RegionTree D L} {l : L} :
    t.lookup stuck x = .ok (some l) ↔ ∃ C d, t = Context.fill C (.leaf d l) ∧
      C.Leads (Region.contains · x) ∧ Region.contains d x := by
  constructor
  · intro h
    unfold lookup at h
    rcases hv : visit stuck (Region.contains · x) (fun d l => .ok (l, leaf d l)) t
      with e | _ | ⟨k, t'⟩
    · rw [hv] at h
      cases h
    · rw [hv] at h
      cases h
    · rw [hv] at h
      obtain ⟨C, d, l', s, rfl, hC, hd, hact, -⟩ := visit_eq_some stuck hv
      obtain rfl := Option.some.inj (Except.ok.inj h)
      obtain ⟨rfl, -⟩ := Prod.mk.inj (Except.ok.inj hact)
      exact ⟨C, d, rfl, hC, hd⟩
  · rintro ⟨C, d, rfl, hC, hd⟩
    rw [lookup, visit_fill_leaf stuck hC hd]
    rfl

/-- **The walk computes the policy** of a partitioned tree, and never gets stuck. -/
theorem Partitioned.lookup_eq {t : RegionTree D L} (h : Partitioned t) (stuck : E) (x : X) :
    t.lookup stuck x = .ok (t.policy x) := by
  by_cases hx : Region.contains t.region x
  · obtain ⟨C, d, l, rfl, hdx, hC⟩ := h.exists_context hx
    rw [lookup, visit_fill_leaf stuck hC hdx, h.policy_of_mem (C.mem_leaves_fill_leaf d l) hdx]
    rfl
  · rw [lookup, visit_of_not_inside stuck hx, h.policy_eq_none hx]
    rfl

/-- A filled context keeps its root region when the new filling has the region of
the old one. -/
theorem Context.contains_region_fill {C : Context D L} {s s' : RegionTree D L}
    (hregion : ∀ x : X, Region.contains s'.region x = Region.contains s.region x) (x : X) :
    Region.contains (C.fill s').region x = Region.contains (C.fill s).region x := by
  cases C with
  | hole => exact hregion x
  | node d left C right => rfl

/-- **Refilling the hole keeps the partition**, when the new filling is partitioned
and has the region of the old one. -/
theorem Partitioned.fill {C : Context D L} {s s' : RegionTree D L} (h : Partitioned (C.fill s))
    (hs' : Partitioned s')
    (hregion : ∀ x : X, Region.contains s'.region x = Region.contains s.region x) :
    Partitioned (C.fill s') := by
  induction C with
  | hole => exact hs'
  | node d left C right ih =>
    refine .node (fun x => ?_) fun c hc => ?_
    · -- the regions of the children count a point as before
      rw [← h.splits x]
      simp only [List.map_append, List.map_cons, List.countP_append, List.countP_cons,
        Context.contains_region_fill hregion x]
    · rcases List.mem_append.mp hc with hc | hc
      · exact h.sub c (List.mem_append_left _ hc)
      · rcases List.mem_cons.mp hc with rfl | hc
        · exact ih (h.sub _ (List.mem_append_right _ List.mem_cons_self))
        · exact h.sub c (List.mem_append_right _ (List.mem_cons_of_mem _ hc))

theorem Context.policy_fill_of_not_contains {C : Context D L} {s s' : RegionTree D L} {x : X}
    (hs : Partitioned s) (hs' : Partitioned s') (hx : ¬ Region.contains s.region x)
    (hx' : ¬ Region.contains s'.region x) : (C.fill s').policy x = (C.fill s).policy x := by
  have hnone : ∀ {r : RegionTree D L}, Partitioned r → ¬ Region.contains r.region x →
      r.leaves.find? (fun p => Region.contains p.1 x) = none := fun hr hrx =>
    Option.map_eq_none_iff.mp (hr.policy_eq_none hrx)
  simp only [policy, Context.leaves_fill, List.find?_append, hnone hs hx, hnone hs' hx']

/-- **Refilling the hole changes the policy on its region only**: there it becomes
the policy of the new filling. -/
theorem Partitioned.policy_fill {C : Context D L} {s s' : RegionTree D L}
    (h : Partitioned (C.fill s)) (hs : Partitioned s) (hs' : Partitioned s')
    (hregion : ∀ x : X, Region.contains s'.region x = Region.contains s.region x) (x : X) :
    (C.fill s').policy x
      = if Region.contains s.region x then s'.policy x else (C.fill s).policy x := by
  by_cases hx : Region.contains s.region x
  · -- the leaf of the new filling is also the leaf of the whole tree
    rw [if_pos hx]
    obtain ⟨C', d, l, rfl, hdx, -⟩ := hs'.exists_context (by rw [hregion x]; exact hx)
    have hmem := C'.mem_leaves_fill_leaf d l
    rw [hs'.policy_of_mem hmem hdx,
      (h.fill hs' hregion).policy_of_mem (Context.mem_leaves_fill hmem) hdx]
  · -- neither filling has a leaf for the point
    rw [if_neg hx]
    exact Context.policy_fill_of_not_contains hs hs' hx (by rw [hregion x]; exact hx)

end RegionTree
