import SendReceive.Whisker

/-!
# Whisker trees

The rule table: a region tree whose regions are memory ranges and whose leaves hold
one whisker each.  (A tree of the sources has a vector of children and a vector of
leaves, of which exactly one is empty and the second holds a single whisker; here
a node is one or the other.)

Looking a memory up, using the rule found and both forms of `replace` walk down
the tree in the same way, into the first child whose domain contains the memory or
the midpoint of the rule to be replaced.  They differ in what they do at the leaf.

## Main definitions

* `WhiskerTree`, `whisker`, `useWhisker`, `replace`, `replaceTree`.
* `init`, `halved` — the default table, and one in two leaves.
* `shape` — a tree without its rules.
* `WellFormed` — children partition their parent, and each rule's domain has the
  bounds of its leaf.

## Main results

* `WellFormed.whisker_eq` — looking up computes the tree's policy.
* `WellFormed.useWhisker_spec`, `WellFormed.replaceAt_spec` — what the walks do.
-/

namespace SendReceive

/-- `WhiskerTree`. -/
abbrev WhiskerTree := RegionTree MemoryRange Whisker

namespace WhiskerTree

open RegionTree

/-- The domain of the whole table. -/
def rootDomain : MemoryRange := .make .init maxMemory

/-- The default constructor: one rule with the default action. -/
def init : WhiskerTree := .leaf rootDomain (.ofDomain rootDomain)

/-- The memories with `_rec_send_ewma` below the middle of its axis. -/
def lowHalf : MemoryRange := .make .init (.ofData 81920 163840 163840 163840)

/-- The others of the whole table. -/
def highHalf : MemoryRange := .make (.ofData 81920 0 0 0) maxMemory

/-- The default action, in a rule for either half. -/
def halved : WhiskerTree :=
  .node rootDomain [.leaf lowHalf (.ofDomain lowHalf), .leaf highHalf (.ofDomain highHalf)]

/-- The constructor from a whisker: a leaf, or a node with a leaf for each of its pieces. -/
def ofWhisker [Platform] (whisker : Whisker) (bisect : Bool) : Except Stop WhiskerTree :=
  if !bisect then .ok (.leaf whisker.domain whisker)
  else do
    return .node whisker.domain ((← whisker.bisect).map fun x => .leaf x.domain x)

/-- `WhiskerTree::reset_counts`. -/
def resetCounts (t : WhiskerTree) : WhiskerTree := t.mapLabels Whisker.resetCount

/-- `WhiskerTree::promote`. -/
def promote (t : WhiskerTree) (generation : UInt32) : WhiskerTree :=
  t.mapLabels (·.promote generation)

/-- `WhiskerTree::reset_generation`. -/
def resetGeneration (t : WhiskerTree) : WhiskerTree := t.mapLabels (·.demote 0)

/-- `WhiskerTree::whisker`: the rule for a memory.  The walk fails an assertion when the
children of a node leave a memory of the node uncovered. -/
def whisker (t : WhiskerTree) (memory : Memory) : Except Stop (Option Whisker) :=
  t.lookup .assertFailed memory

/-- `WhiskerTree::use_whisker`: the rule for a memory, counted and tracked. -/
def useWhisker (t : WhiskerTree) (memory : Memory) (track : Bool) :
    Except Stop (Whisker × WhiskerTree) := do
  let found ← t.visit .assertFailed (Region.contains · memory) fun domain leaf =>
    let used := if track then leaf.use.track memory else leaf.use
    .ok (used, .leaf domain used)
  match found with
  | none => .error (.exit 1)
  | some found => .ok found

/-- **Using a rule changes no action of the table**, and gives one of them. -/
theorem useWhisker_actions {t t' : WhiskerTree} {m : Memory} {track : Bool} {w : Whisker}
    (h : t.useWhisker m track = .ok (w, t')) :
    (∃ p ∈ t.leaves, w.action = p.2.action) ∧
      ∀ p' ∈ t'.leaves, ∃ p ∈ t.leaves, p'.2.action = p.2.action := by
  unfold useWhisker at h
  obtain ⟨found, hvisit, hfound⟩ := bind_eq_ok.mp h
  cases found with
  | none => cases hfound
  | some r =>
    obtain rfl := Except.ok.inj hfound
    obtain ⟨C, d, w₀, s, rfl, -, -, hact, rfl⟩ := visit_eq_some _ hvisit
    obtain ⟨hw, hs⟩ := Prod.mk.inj (Except.ok.inj hact)
    -- counting and tracking leave the action alone
    have haction : w.action = w₀.action := by
      rw [← hw]
      cases track <;> rfl
    have hmem := C.mem_leaves_fill_leaf d w₀
    refine ⟨⟨_, hmem, haction⟩, fun p' hp' => ?_⟩
    rw [← hs, hw] at hp'
    rcases Context.mem_leaves_fill_cases hp' with hused | hother
    · rw [List.mem_singleton.mp hused]
      exact ⟨_, hmem, haction⟩
    · exact ⟨p', hother _, rfl⟩

/-- What the actions say of the rules of a table, they say of the rule that was used and of the
table after it. -/
theorem forall_of_useWhisker {P : Whisker → Prop}
    (hP : ∀ w w' : Whisker, P w → w'.action = w.action → P w') {t t' : WhiskerTree} {m : Memory}
    {track : Bool} {w : Whisker} (hrules : ∀ p ∈ t.leaves, P p.2)
    (h : t.useWhisker m track = .ok (w, t')) : P w ∧ ∀ p ∈ t'.leaves, P p.2 := by
  obtain ⟨⟨q, hq, haction⟩, hleaves⟩ := useWhisker_actions h
  refine ⟨hP q.2 w (hrules q hq) haction, fun p hp => ?_⟩
  obtain ⟨q', hq', hpq⟩ := hleaves p hp
  exact hP q'.2 p.2 (hrules q' hq') hpq

/-- Replace the leaf for the midpoint of `domain`, after checking that its rule has that
domain, by `change` of the leaf's own range. -/
def replaceAt (t : WhiskerTree) (domain : MemoryRange) (change : MemoryRange → WhiskerTree) :
    Except Stop (Bool × WhiskerTree) := do
  let found ← t.visit .assertFailed (Region.contains · domain.rangeMedian) fun d leaf =>
    if domain.opEq leaf.domain then .ok ((), change d) else .error .assertFailed
  match found with
  | none => .ok (false, t)
  | some (_, t') => .ok (true, t')

/-- `WhiskerTree::replace( w )`. -/
def replace (t : WhiskerTree) (w : Whisker) : Except Stop (Bool × WhiskerTree) :=
  t.replaceAt w.domain fun d => .leaf d w

/-- `WhiskerTree::replace( src, dst )`: convert from leaf to interior node. -/
def replaceTree (t : WhiskerTree) (src : Whisker) (dst : WhiskerTree) :
    Except Stop (Bool × WhiskerTree) :=
  t.replaceAt src.domain fun _ => dst

/-- A tree without its rules: the shape, and the ranges of the nodes. -/
def shape (t : WhiskerTree) : RegionTree MemoryRange Unit := t.mapLabels fun _ => ()

/-! ### Well-formed trees -/

/-- A filled context keeps the bounds of its root's range when the new filling has those of the
old one. -/
theorem sameBounds_region_fill {C : Context MemoryRange Whisker} {s s' : WhiskerTree}
    (h : s'.region.SameBounds s.region) : (C.fill s').region.SameBounds (C.fill s).region := by
  cases C with
  | hole => exact h
  | node d left C right => exact .refl _

/-- Using a rule keeps the range of the root. -/
theorem sameBounds_region_useWhisker {t t' : WhiskerTree} {m : Memory} {track : Bool} {w : Whisker}
    (h : t.useWhisker m track = .ok (w, t')) : t'.region.SameBounds t.region := by
  unfold useWhisker at h
  obtain ⟨found, hvisit, hfound⟩ := bind_eq_ok.mp h
  cases found with
  | none => cases hfound
  | some r =>
    obtain rfl := Except.ok.inj hfound
    obtain ⟨C, d, w₀, s, rfl, -, -, hact, rfl⟩ := visit_eq_some _ hvisit
    obtain ⟨-, rfl⟩ := Prod.mk.inj (Except.ok.inj hact)
    exact sameBounds_region_fill (.refl _)

/-- Using a rule ends the program with a status only for a memory outside the root. -/
theorem useWhisker_ne_exit {t : WhiskerTree} {m : Memory} (hm : Region.contains t.region m)
    (track : Bool) : t.useWhisker m track ≠ .error (.exit 1) := by
  refine bind_ne_error ?_ fun found hvisit => ?_
  · intro h
    rcases visit_eq_error _ h with hstuck | ⟨d, l, hact⟩
    · cases hstuck
    · cases hact
  · cases found with
    | none => exact absurd hvisit (visit_ne_none _ hm)
    | some r => exact fun h => by cases h

/-- Children partition their parent, and the domain of each rule has the bounds of its leaf. -/
structure WellFormed (t : WhiskerTree) : Prop where
  partitioned : t.Partitioned
  domains : ∀ p ∈ t.leaves, p.1.SameBounds p.2.domain

namespace WellFormed

variable {t : WhiskerTree}

theorem leaf {d : MemoryRange} {w : Whisker} (h : d.SameBounds w.domain) :
    WellFormed (.leaf d w) where
  partitioned := .leaf d w
  domains := by
    intro p hp
    rw [leaves_leaf, List.mem_singleton] at hp
    rw [hp]
    exact h

theorem init : WellFormed WhiskerTree.init := .leaf (.refl _)

theorem nonempty_rootDomain : rootDomain.Nonempty := by
  intro i
  fin_cases i <;> decide

theorem halved : WellFormed WhiskerTree.halved where
  partitioned := by
    have hlow : lowHalf.upper.field = Function.update maxMemory.field 0 81920 :=
      Memory.field_setField maxMemory 0 81920
    have hhigh : highHalf.lower.field = Function.update Memory.init.field 0 81920 :=
      Memory.field_setField .init 0 81920
    refine .node (.pair (fun m => ?_) fun m => ?_) fun c hc => ?_
    · show rootDomain.contains m ↔ lowHalf.contains m ∨ highHalf.contains m
      rw [MemoryRange.contains_iff_mem_box, MemoryRange.contains_iff_mem_box,
        MemoryRange.contains_iff_mem_box, hlow, hhigh]
      exact HalfOpenBox.mem_box_cut (by decide) (by decide)
    · show ¬ (lowHalf.contains m ∧ highHalf.contains m)
      rw [MemoryRange.contains_iff_mem_box, MemoryRange.contains_iff_mem_box, hlow, hhigh]
      exact HalfOpenBox.not_mem_box_cut_both
    · rcases List.mem_pair.mp hc with rfl | rfl <;> exact .leaf _ _
  domains := by
    intro p hp
    rcases List.mem_pair.mp (show p ∈ [(lowHalf, _), (highHalf, _)] from hp) with rfl | rfl <;>
      exact .refl _

theorem nonempty_lowHalf : lowHalf.Nonempty := by
  intro i
  fin_cases i <;> decide

/-- Changing rules without changing the bounds of their domains keeps the tree well formed. -/
theorem mapLabels (h : WellFormed t) {f : Whisker → Whisker}
    (hf : ∀ w : Whisker, w.domain.SameBounds (f w).domain) : WellFormed (t.mapLabels f) where
  partitioned := h.partitioned.mapLabels f
  domains := by
    intro p hp
    rw [leaves_mapLabels] at hp
    obtain ⟨q, hq, rfl⟩ := List.mem_map.mp hp
    exact (h.domains q hq).trans (hf q.2)

/-- Refilling the hole of a context with a well-formed tree for the same range. -/
theorem fill {C : Context MemoryRange Whisker} {s s' : WhiskerTree} (h : WellFormed (C.fill s))
    (hs' : WellFormed s') (hregion : s'.region.SameBounds s.region) : WellFormed (C.fill s') where
  partitioned := h.partitioned.fill hs'.partitioned hregion.contains_eq
  domains := by
    intro p hp
    rcases Context.mem_leaves_fill_cases hp with hfilling | hother
    · exact hs'.domains p hfilling
    · exact h.domains p (hother s)

/-- **Looking up computes the policy**: it never fails an assertion. -/
theorem whisker_eq (h : WellFormed t) (m : Memory) : t.whisker m = .ok (t.policy m) :=
  h.partitioned.lookup_eq Stop.assertFailed m

/-- A memory outside the root's range is led nowhere. -/
theorem useWhisker_of_not_contains {m : Memory} (hm : ¬ t.region.contains m) (track : Bool) :
    t.useWhisker m track = .error (.exit 1) := by
  rw [useWhisker, visit_of_not_inside Stop.assertFailed hm]
  rfl

/-- **Using a rule** changes the count and the accumulators of the leaf for the memory,
and nothing else. -/
theorem useWhisker_spec (h : WellFormed t) {m : Memory} (hm : t.region.contains m) (track : Bool) :
    ∃ (C : Context MemoryRange Whisker) (d : MemoryRange) (w w' : Whisker),
      t = C.fill (.leaf d w) ∧ d.contains m ∧ w'.action = w.action ∧
      w.domain.SameBounds w'.domain ∧
      t.useWhisker m track = .ok (w', C.fill (.leaf d w')) := by
  obtain ⟨C, d, w, rfl, hd, hC⟩ := h.partitioned.exists_context hm
  refine ⟨C, d, w, if track then w.use.track m else w.use, rfl, hd, ?_, ?_, ?_⟩
  · cases track <;> rfl
  · cases track <;> exact .refl _
  · rw [useWhisker, visit_fill_leaf Stop.assertFailed hC hd]
    rfl

/-- **Replacing a leaf**: for the domain of a current leaf with room on every axis the
walk comes to that leaf and its assertion holds. -/
theorem replaceAt_spec (h : WellFormed t) {d domain : MemoryRange} {w : Whisker}
    (hmem : (d, w) ∈ t.leaves) (hroom : w.domain.Nonempty) (hsame : domain.SameBounds w.domain)
    (change : MemoryRange → WhiskerTree) :
    ∃ C : Context MemoryRange Whisker, t = C.fill (.leaf d w) ∧
      t.replaceAt domain change = .ok (true, C.fill (change d)) := by
  -- the walk goes to the midpoint of the rule's domain, which lies in the leaf
  have hd : d.contains domain.rangeMedian := by
    rw [((h.domains _ hmem).trans hsame.symm).contains_eq]
    exact MemoryRange.contains_rangeMedian (hsame.symm.nonempty hroom)
  obtain ⟨C, rfl, hC⟩ := h.partitioned.context_of_mem hmem hd
  refine ⟨C, rfl, ?_⟩
  rw [replaceAt, visit_fill_leaf Stop.assertFailed hC hd, if_pos hsame.opEq]
  rfl

/-- The tree that bisecting a rule builds is well formed, and all its rules have the action
of the rule. -/
theorem ofWhisker_bisect [Platform] {w : Whisker} (hroom : w.domain.Nonempty)
    (hmed : w.domain.MediansInRange) :
    ∃ dst, ofWhisker w true = .ok dst ∧ WellFormed dst ∧ dst.region = w.domain ∧
      ∀ p ∈ dst.leaves, p.2.action = w.action := by
  obtain ⟨ret, hret, hsplit⟩ := MemoryRange.bisect_splits hmed hroom
  let piece : MemoryRange → WhiskerTree := fun x => .leaf x { w with domain := x }
  have hleaves : (RegionTree.node w.domain (ret.map piece)).leaves
      = ret.map fun x => (x, { w with domain := x }) := by
    rw [leaves_node, List.flatMap_map, List.map_eq_flatMap]
    rfl
  refine ⟨.node w.domain (ret.map piece), ?_, ⟨.node ?_ ?_, ?_⟩, rfl, ?_⟩
  · rw [ofWhisker, Whisker.bisect, hret]
    simp [piece]
  · have hregion : (ret.map piece).map RegionTree.region = ret := by
      rw [List.map_map]
      exact List.map_id ret
    rwa [hregion]
  · intro c hc
    obtain ⟨x, -, rfl⟩ := List.mem_map.mp hc
    exact .leaf x _
  · intro p hp
    rw [hleaves] at hp
    obtain ⟨x, -, rfl⟩ := List.mem_map.mp hp
    exact .refl _
  · intro p hp
    rw [hleaves] at hp
    obtain ⟨x, -, rfl⟩ := List.mem_map.mp hp
    rfl

end WellFormed

end WhiskerTree

end SendReceive
