import SendReceive.WhiskerTree

/-!
# Reachable whisker trees

The trees the optimiser and the sender can come to from the default tree: by using
rules, by resetting counts and generations, by replacing a rule of the table by one
for the same domain, and by splitting it into rules for the pieces of its domain.

All of them are well formed.  On such a tree looking up is total on the root's
domain and finds the one rule whose domain contains the memory, and splitting a rule does not
change what any memory is mapped to.

## Main definitions

* `Reachable` — the trees.
* `decisions` — the windows and intersend times a sequence of memories leads to.

## Main results

* `Reachable.wellFormed` — **reachable trees are well formed**.
* `lookup_total_unambiguous` — looking up is total and unambiguous.
* `split_same_policy` — **splitting a rule never changes the policy**.
-/

namespace SendReceive

namespace WhiskerTree

open RegionTree

section Reachable

variable [Platform]

/-- The trees reached from the default constructor.  A rule is replaced for the domain of a
current leaf with room on every axis; the medians of a rule that is bisected lie between
the bounds of its domain. -/
inductive Reachable : WhiskerTree → Prop
  /-- The default constructor. -/
  | init : Reachable init
  /-- `use_whisker( memory, track )`. -/
  | useWhisker {t t' : WhiskerTree} {w : Whisker} (memory : Memory) (track : Bool)
      (reach : Reachable t) (step : t.useWhisker memory track = .ok (w, t')) : Reachable t'
  /-- `reset_counts()`. -/
  | resetCounts {t : WhiskerTree} (reach : Reachable t) : Reachable t.resetCounts
  /-- `promote( generation )`. -/
  | promote {t : WhiskerTree} (generation : UInt32) (reach : Reachable t) :
      Reachable (t.promote generation)
  /-- `reset_generation()`. -/
  | resetGeneration {t : WhiskerTree} (reach : Reachable t) : Reachable t.resetGeneration
  /-- `replace( w )` for the domain of a leaf. -/
  | replace {t t' : WhiskerTree} {d : MemoryRange} {leaf w : Whisker} {found : Bool}
      (reach : Reachable t) (mem : (d, leaf) ∈ t.leaves) (room : leaf.domain.Nonempty)
      (same : w.domain.SameBounds leaf.domain) (step : t.replace w = .ok (found, t')) : Reachable t'
  /-- `replace( src, WhiskerTree( w, true ) )` for a leaf `src` and a rule `w` of its domain. -/
  | split {t t' dst : WhiskerTree} {d : MemoryRange} {src w : Whisker} {found : Bool}
      (reach : Reachable t) (mem : (d, src) ∈ t.leaves) (room : src.domain.Nonempty)
      (same : w.domain.SameBounds src.domain) (medians : w.domain.MediansInRange)
      (bisected : ofWhisker w true = .ok dst) (step : t.replaceTree src dst = .ok (found, t')) :
      Reachable t'

/-- **Reachable trees are well formed**, and the root's domain never changes its bounds. -/
theorem Reachable.wellFormed {t : WhiskerTree} (h : Reachable t) :
    WellFormed t ∧ t.region.SameBounds rootDomain := by
  induction h with
  | init => exact ⟨.init, .refl _⟩
  | @useWhisker t t' w memory track _ step ih =>
    obtain ⟨hwf, hroot⟩ := ih
    by_cases hm : t.region.contains memory
    · obtain ⟨C, d, w₀, w₁, rfl, -, -, hbounds, hstep⟩ := hwf.useWhisker_spec hm track
      rw [hstep, Except.ok.injEq, Prod.mk.injEq] at step
      obtain ⟨-, rfl⟩ := step
      have hmem := C.mem_leaves_fill_leaf d w₀
      have hregion : (C.fill (.leaf d w₁)).region.SameBounds (C.fill (.leaf d w₀)).region :=
        sameBounds_region_fill (.refl d)
      exact ⟨hwf.fill (.leaf ((hwf.domains _ hmem).trans hbounds)) (.refl d), hregion.trans hroot⟩
    · rw [WellFormed.useWhisker_of_not_contains hm] at step
      cases step
  | resetCounts _ ih =>
    refine ⟨ih.1.mapLabels fun _ => .refl _, ?_⟩
    rw [WhiskerTree.resetCounts, region_mapLabels]
    exact ih.2
  | promote generation _ ih =>
    refine ⟨ih.1.mapLabels fun _ => .refl _, ?_⟩
    rw [WhiskerTree.promote, region_mapLabels]
    exact ih.2
  | resetGeneration _ ih =>
    refine ⟨ih.1.mapLabels fun _ => .refl _, ?_⟩
    rw [WhiskerTree.resetGeneration, region_mapLabels]
    exact ih.2
  | @replace t t' d leaf w found _ mem room same step ih =>
    obtain ⟨hwf, hroot⟩ := ih
    obtain ⟨C, rfl, hstep⟩ := hwf.replaceAt_spec mem room same fun d => .leaf d w
    rw [WhiskerTree.replace, hstep, Except.ok.injEq, Prod.mk.injEq] at step
    obtain ⟨-, rfl⟩ := step
    have hregion : (C.fill (.leaf d w)).region.SameBounds (C.fill (.leaf d leaf)).region :=
      sameBounds_region_fill (.refl d)
    exact ⟨hwf.fill (.leaf ((hwf.domains _ mem).trans same.symm)) (.refl d), hregion.trans hroot⟩
  | @split t t' dst d src w found _ mem room same medians bisected step ih =>
    obtain ⟨hwf, hroot⟩ := ih
    obtain ⟨C, rfl, hstep⟩ := hwf.replaceAt_spec mem room (.refl _) fun _ => dst
    rw [replaceTree, hstep, Except.ok.injEq, Prod.mk.injEq] at step
    obtain ⟨-, rfl⟩ := step
    -- the pieces of the rule cover its leaf
    obtain ⟨dst', hdst', hwf', hregion, -⟩ :=
      WellFormed.ofWhisker_bisect (same.symm.nonempty room) medians
    rw [bisected, Except.ok.injEq] at hdst'
    subst hdst'
    have hbounds : dst.region.SameBounds d := by
      rw [hregion]
      exact same.trans (hwf.domains _ mem).symm
    exact ⟨hwf.fill hwf' hbounds, (sameBounds_region_fill hbounds).trans hroot⟩

/-- **Looking up is total and unambiguous on every reachable tree.**  At every interior node
the domains of the children partition the node's domain; each memory of the root's domain
is mapped to the rule of the only leaf whose domain contains it; the others are
mapped to nothing. -/
theorem lookup_total_unambiguous {t : WhiskerTree} (h : Reachable t) :
    (∀ d cs, Subtree (.node d cs) t → ∀ m : Memory,
      (d.contains m → cs.countP (fun c => c.region.contains m) = 1) ∧
      (¬ d.contains m → ∀ c ∈ cs, ¬ c.region.contains m)) ∧
    (∀ m, t.region.contains m → ∃ d w, t.whisker m = .ok (some w) ∧ w.domain.contains m ∧
      t.leaves.filter (fun p => p.2.domain.contains m) = [(d, w)]) ∧
    (∀ m, ¬ t.region.contains m → t.whisker m = .ok none) := by
  obtain ⟨hwf, -⟩ := h.wellFormed
  refine ⟨fun d cs hsub m => ?_, fun m hm => ?_, fun m hm => ?_⟩
  · have hsplit : (cs.map region).countP (·.contains m) = (d.contains m).toNat :=
      (hwf.partitioned.subtree hsub).splits m
    rw [List.countP_map] at hsplit
    refine ⟨fun hd => ?_, fun hd c hc hcm => ?_⟩
    · rw [hd] at hsplit
      exact hsplit
    · exact hd (eq_true_of_countP hsplit hc hcm)
  · obtain ⟨C, d, w, rfl, hd, -⟩ := hwf.partitioned.exists_context hm
    have hmem := C.mem_leaves_fill_leaf d w
    have hw : w.domain.contains m := by
      rw [← (hwf.domains _ hmem).contains_eq]
      exact hd
    refine ⟨d, w, ?_, hw, ?_⟩
    · rw [hwf.whisker_eq, hwf.partitioned.policy_of_mem hmem hd]
    · rw [← hwf.partitioned.filter_leaves hmem hd]
      exact List.filter_congr fun p hp => ((hwf.domains p hp).contains_eq m).symm
  · rw [hwf.whisker_eq, hwf.partitioned.policy_eq_none hm]

end Reachable

/-- The default rule, split before it tracked anything: the medians are the lower bounds, and
fifteen of the sixteen pieces are empty. -/
theorem lookup_total_unambiguous_of_split : letI := gcc48
    ∃ t, ofWhisker (.ofDomain rootDomain) true = .ok t ∧
      ∃ w, whisker t (.ofData 1 2 3 4) = .ok (some w) ∧ w.domain.contains (.ofData 1 2 3 4) := by
  let _ := gcc48
  have hroom : rootDomain.Nonempty := WellFormed.nonempty_rootDomain
  have hmed : rootDomain.MediansInRange := fun i => by fin_cases i <;> decide
  have hmem : (rootDomain, Whisker.ofDomain rootDomain) ∈ WhiskerTree.init.leaves :=
    List.mem_singleton.mpr rfl
  obtain ⟨t, ht, -, hregion, -⟩ :=
    WellFormed.ofWhisker_bisect (w := .ofDomain rootDomain) hroom hmed
  obtain ⟨C, hC, hstep⟩ := WellFormed.init.replaceAt_spec hmem hroom (.refl _) fun _ => t
  have hreach : Reachable (C.fill t) := .split .init hmem hroom (.refl _) hmed ht hstep
  cases C with
  | hole =>
    have hroot : t.region.contains (.ofData 1 2 3 4) := by rw [hregion]; decide
    obtain ⟨d, w, hw, hdw, -⟩ := (lookup_total_unambiguous hreach).2.1 _ hroot
    exact ⟨t, ht, w, hw, hdw⟩
  | node e left C right => cases hC

/-! ### Splitting a rule -/

/-- The windows and intersend times that come out of using the table on a sequence of
memories, each with the window before it. -/
def decisions : WhiskerTree → List (Memory × Bool × UInt32) →
    Except Stop (List (UInt32 × DataType))
  | _, [] => .ok []
  | t, (memory, track, previousWindow) :: queries => do
    let (current, t) ← t.useWhisker memory track
    let window ← current.window previousWindow
    let rest ← decisions t queries
    return (window, current.intersend) :: rest

/-- Two tables map each memory to rules with the same action and generation, or neither
maps it to anything. -/
structure SamePolicy (t t' : WhiskerTree) : Prop where
  wellFormed : WellFormed t
  wellFormed' : WellFormed t'
  region : t'.region.SameBounds t.region
  action : ∀ m, (t'.policy m).map Whisker.action = (t.policy m).map Whisker.action

/-- **Replacing a rule by a table for its domain** all of whose rules have its action keeps the
policy. -/
theorem SamePolicy.of_fill {C : Context MemoryRange Whisker} {d : MemoryRange} {w : Whisker}
    {dst : WhiskerTree} (h : WellFormed (C.fill (.leaf d w))) (hdst : WellFormed dst)
    (hregion : dst.region.SameBounds d) (haction : ∀ p ∈ dst.leaves, p.2.action = w.action) :
    SamePolicy (C.fill (.leaf d w)) (C.fill dst) where
  wellFormed := h
  wellFormed' := h.fill hdst hregion
  region := sameBounds_region_fill hregion
  action := by
    intro m
    have hfill := h.partitioned.policy_fill (.leaf d w) hdst.partitioned hregion.contains_eq m
    rw [region_leaf] at hfill
    -- the new table decides on the region of the rule, the old one elsewhere
    by_cases hd : Region.contains d m
    · have hroot : Region.contains dst.region m = true := (hregion.contains_eq m).trans hd
      obtain ⟨C', e, w', rfl, he, -⟩ := hdst.partitioned.exists_context hroot
      rw [hfill, if_pos hd, hdst.partitioned.policy_of_mem (C'.mem_leaves_fill_leaf e w') he,
        h.partitioned.policy_of_mem (C.mem_leaves_fill_leaf d w) hd, Option.map_some,
        Option.map_some, haction _ (C'.mem_leaves_fill_leaf e w')]
    · rw [hfill, if_neg hd]

/-- Changing what the optimiser counts in one rule keeps the policy. -/
theorem SamePolicy.of_used {C : Context MemoryRange Whisker} {d : MemoryRange} {w w' : Whisker}
    (h : WellFormed (C.fill (.leaf d w))) (haction : w'.action = w.action)
    (hbounds : w.domain.SameBounds w'.domain) :
    SamePolicy (C.fill (.leaf d w)) (C.fill (.leaf d w')) := by
  refine .of_fill h (.leaf ((h.domains _ (C.mem_leaves_fill_leaf d w)).trans hbounds)) (.refl _) ?_
  intro p hp
  rw [List.mem_singleton.mp hp]
  exact haction

theorem SamePolicy.symm {t t' : WhiskerTree} (h : SamePolicy t t') : SamePolicy t' t where
  wellFormed := h.wellFormed'
  wellFormed' := h.wellFormed
  region := h.region.symm
  action m := (h.action m).symm

theorem SamePolicy.trans {t t' t'' : WhiskerTree} (h : SamePolicy t t') (h' : SamePolicy t' t'') :
    SamePolicy t t'' where
  wellFormed := h.wellFormed
  wellFormed' := h'.wellFormed'
  region := h'.region.trans h.region
  action m := (h'.action m).trans (h.action m)

/-- **Using tables with the same policy**: both find a rule with the same action and keep the
same policy, or neither finds any. -/
theorem SamePolicy.useWhisker {t t' : WhiskerTree} (h : SamePolicy t t') (m : Memory)
    (track : Bool) :
    (t.useWhisker m track = .error (.exit 1) ∧ t'.useWhisker m track = .error (.exit 1)) ∨
    ∃ w w' s s', t.useWhisker m track = .ok (w, s) ∧ t'.useWhisker m track = .ok (w', s') ∧
      w'.action = w.action ∧ SamePolicy s s' := by
  by_cases hm : t.region.contains m
  · have hm' : t'.region.contains m := by rw [h.region.contains_eq]; exact hm
    obtain ⟨C, d, w, u, rfl, hd, hu, hub, hstep⟩ := h.wellFormed.useWhisker_spec hm track
    obtain ⟨C', d', w', u', rfl, hd', hu', hub', hstep'⟩ := h.wellFormed'.useWhisker_spec hm' track
    have hpolicy := h.action m
    rw [h.wellFormed.partitioned.policy_of_mem (C.mem_leaves_fill_leaf d w) hd,
      h.wellFormed'.partitioned.policy_of_mem (C'.mem_leaves_fill_leaf d' w') hd', Option.map_some,
      Option.map_some, Option.some.injEq] at hpolicy
    refine Or.inr ⟨u, u', _, _, hstep, hstep', by rw [hu, hu', hpolicy], ?_⟩
    exact (SamePolicy.of_used h.wellFormed hu hub).symm.trans
      (h.trans (SamePolicy.of_used h.wellFormed' hu' hub'))
  · have hm' : ¬ t'.region.contains m := by rw [h.region.contains_eq]; exact hm
    exact Or.inl ⟨WellFormed.useWhisker_of_not_contains hm track,
      WellFormed.useWhisker_of_not_contains hm' track⟩

/-- Tables with the same policy lead to the same windows and intersend times. -/
theorem SamePolicy.decisions_eq : ∀ (queries : List (Memory × Bool × UInt32)) {t t' : WhiskerTree},
    SamePolicy t t' → decisions t' queries = decisions t queries := by
  intro queries
  induction queries with
  | nil => intro t t' _; rfl
  | cons q queries ih =>
    obtain ⟨m, track, previousWindow⟩ := q
    intro t t' h
    rw [decisions, decisions]
    rcases h.useWhisker m track with ⟨hold, hnew⟩ | ⟨w, w', s, s', hold, hnew, haction, hs⟩
    · rw [hold, hnew]
    · have hintersend : w'.intersend = w.intersend := congrArg (fun a => a.2.2.1) haction
      rw [hold, hnew, ok_bind, ok_bind]
      simp only [Whisker.window_eq_of_action haction, ih hs, hintersend]

/-- **Splitting a rule never changes the policy.**  After `t.replace( w, WhiskerTree( w, true ) )`
for a leaf `w` with room on every axis each memory has a rule if and only if it had one, and
then one with the same action and generation; so every sequence of memories and previous
windows leads to the same windows and intersend times. -/
theorem split_same_policy [Platform] {t : WhiskerTree} (h : Reachable t) {d : MemoryRange}
    {w : Whisker} (mem : (d, w) ∈ t.leaves) (room : w.domain.Nonempty)
    (medians : w.domain.MediansInRange) :
    ∃ dst t', ofWhisker w true = .ok dst ∧ t.replaceTree w dst = .ok (true, t') ∧
      (∀ m, ∃ old new, t.whisker m = .ok old ∧ t'.whisker m = .ok new ∧
        new.map Whisker.action = old.map Whisker.action) ∧
      ∀ queries, decisions t' queries = decisions t queries := by
  obtain ⟨hwf, -⟩ := h.wellFormed
  obtain ⟨dst, hdst, hwf', hregion, haction⟩ := WellFormed.ofWhisker_bisect room medians
  obtain ⟨C, rfl, hstep⟩ := hwf.replaceAt_spec mem room (.refl _) fun _ => dst
  have hbounds : dst.region.SameBounds d := by
    rw [hregion]
    exact (hwf.domains _ mem).symm
  have hsame := SamePolicy.of_fill hwf hwf' hbounds haction
  refine ⟨dst, C.fill dst, hdst, hstep, fun m => ?_, fun queries => hsame.decisions_eq queries⟩
  exact ⟨_, _, hwf.whisker_eq m, hsame.wellFormed'.whisker_eq m, hsame.action m⟩

/-- Splitting the default rule after the memory `( 1, 2, 3, 4 )` was used three times: the medians
are its values on the four axes. -/
theorem split_same_policy_of_used : letI := gcc48
    ∃ (t dst t' : WhiskerTree) (w : Whisker) (d : MemoryRange), (d, w) ∈ t.leaves ∧ w.count = 3 ∧
      ofWhisker w true = .ok dst ∧ t.replaceTree w dst = .ok (true, t') ∧
      decisions t' [(.ofData 1 2 3 4, true, 5), (.ofData 9 0 0 9, true, 6)]
        = decisions t [(.ofData 1 2 3 4, true, 5), (.ofData 9 0 0 9, true, 6)] := by
  let _ := gcc48
  let m : Memory := .ofData 1 2 3 4
  let w : Whisker := (((Whisker.ofDomain rootDomain).use.track m).use.track m).use.track m
  let t : WhiskerTree := .leaf rootDomain w
  have hreach : Reachable t :=
    .useWhisker m true (.useWhisker m true (.useWhisker m true .init rfl) rfl) rfl
  have hmed : w.domain.MediansInRange := fun i => by fin_cases i <;> decide
  obtain ⟨dst, t', hdst, hstep, -, heq⟩ :=
    split_same_policy hreach (List.mem_singleton.mpr rfl) WellFormed.nonempty_rootDomain hmed
  exact ⟨t, dst, t', w, rootDomain, List.mem_singleton.mpr rfl, rfl, hdst, hstep, heq _⟩

end WhiskerTree

end SendReceive
