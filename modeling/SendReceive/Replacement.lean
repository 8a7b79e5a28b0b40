import SendReceive.Dna

/-!
# Replacing rules

The optimiser replaces a rule by another for the same domain, or by a table for that domain.  The
walk steers by the midpoint of the domain, through children that partition their parents, and so
comes to the rule's own leaf.

A tree keeps each leaf's box twice, at the node and in its rule, and an assertion compares the two
whenever a rule is replaced.  The operator it compares them with leaves one axis out.

## Main definitions

* `WhiskerTree.BoxesAgree` — each leaf's copy of its box is that of its rule.

## Main results

* `WhiskerTree.replace_updates` — **replacing updates the rule map, and nothing else**.
* `WhiskerTree.replace_boxesAgree_iff` — **a replacement that passes the assertion keeps the boxes
  equal if and only if the bounds on the axis left out are equal**.
-/

namespace SendReceive

namespace WhiskerTree

open RegionTree

/-! ### Replacing as an update -/

/-- Looking up in a partitioned tree computes its policy. -/
theorem whisker_eq_policy {t : WhiskerTree} (h : t.Partitioned) (m : Memory) :
    t.whisker m = .ok (t.policy m) :=
  h.lookup_eq Stop.assertFailed m

/-- **Replacing a leaf by a tree for its domain**: the walk comes to the leaf, and afterwards the
new tree decides on the domain and the old one elsewhere. -/
theorem WellFormed.replaceAt_updates {t dst : WhiskerTree} (h : WellFormed t)
    {d domain : MemoryRange} {leaf : Whisker} (hmem : (d, leaf) ∈ t.leaves)
    (hroom : leaf.domain.Nonempty)
    (hsame : domain.SameBounds leaf.domain) (change : MemoryRange → WhiskerTree)
    (hchange : change d = dst) (hdst : dst.Partitioned)
    (hregion : dst.region.SameBounds leaf.domain) :
    ∃ t', t.replaceAt domain change = .ok (true, t') ∧
      (dst.shape = .leaf d () → t'.shape = t.shape) ∧
      (∀ m, leaf.domain.contains m → t'.whisker m = dst.whisker m) ∧
      ∀ m, ¬ leaf.domain.contains m → t'.whisker m = t.whisker m := by
  obtain ⟨C, rfl, hstep⟩ := h.replaceAt_spec hmem hroom hsame change
  rw [hchange] at hstep
  have hbox : d.SameBounds leaf.domain := h.domains _ hmem
  have hcontains : ∀ m, dst.region.contains m = d.contains m :=
    (hregion.trans hbox.symm).contains_eq
  have hpart := h.partitioned.fill hdst hcontains
  have hpolicy := h.partitioned.policy_fill (.leaf d leaf) hdst hcontains
  refine ⟨C.fill dst, hstep, fun hshape => Context.mapLabels_fill_congr hshape, fun m hm => ?_,
    fun m hm => ?_⟩
  · have hd : Region.contains d m := (hbox.contains_eq m).trans hm
    rw [whisker_eq_policy hpart, hpolicy m, region_leaf, if_pos hd, whisker_eq_policy hdst]
  · have hd : ¬ Region.contains d m := fun hd => hm ((hbox.contains_eq m).symm.trans hd)
    rw [whisker_eq_policy hpart, hpolicy m, region_leaf, if_neg hd,
      whisker_eq_policy h.partitioned]

/-- A leaf looks up its rule on its range. -/
theorem whisker_leaf {d : MemoryRange} {w : Whisker} {m : Memory} (h : d.contains m) :
    whisker (.leaf d w) m = .ok (some w) := by
  rw [whisker_eq_policy (.leaf d w),
    (Partitioned.leaf d w).policy_of_mem (List.mem_singleton.mpr rfl) h]

/-- **Replacing updates the rule map, and nothing else.**  For a leaf with room on every axis and a
rule for its domain the walk finds the leaf, and afterwards each memory of the domain has the new
rule and each other the rule it had, in a tree of the same shape.  For a table for the domain the
same holds with the table's rules.  A rule whose midpoint lies outside the root's domain is not
found, and nothing changes. -/
theorem replace_updates {t : WhiskerTree} (h : WellFormed t) :
    (∀ d leaf, (d, leaf) ∈ t.leaves → leaf.domain.Nonempty →
      (∀ w : Whisker, w.domain.SameBounds leaf.domain →
        ∃ t', t.replace w = .ok (true, t') ∧ t'.shape = t.shape ∧
          (∀ m, leaf.domain.contains m → t'.whisker m = .ok (some w)) ∧
          ∀ m, ¬ leaf.domain.contains m → t'.whisker m = t.whisker m) ∧
      ∀ (src : Whisker) (dst : WhiskerTree), src.domain.SameBounds leaf.domain →
        dst.Partitioned → dst.region.SameBounds leaf.domain →
        ∃ t', t.replaceTree src dst = .ok (true, t') ∧
          (∀ m, leaf.domain.contains m → t'.whisker m = dst.whisker m) ∧
          ∀ m, ¬ leaf.domain.contains m → t'.whisker m = t.whisker m) ∧
    ∀ (w : Whisker) (dst : WhiskerTree), ¬ t.region.contains w.domain.rangeMedian →
      t.replace w = .ok (false, t) ∧ t.replaceTree w dst = .ok (false, t) := by
  refine ⟨fun d leaf hmem hroom => ⟨fun w hw => ?_, fun src dst hsrc hdst hregion => ?_⟩,
    fun w dst hout => ⟨?_, ?_⟩⟩
  · have hbox : d.SameBounds leaf.domain := h.domains _ hmem
    obtain ⟨t', hstep, hshape, hin, hout⟩ :=
      h.replaceAt_updates hmem hroom hw (fun d => .leaf d w) rfl (.leaf d w) hbox
    refine ⟨t', hstep, hshape rfl, fun m hm => ?_, hout⟩
    rw [hin m hm, whisker_leaf ((hbox.contains_eq m).trans hm)]
  · obtain ⟨t', hstep, -, hin, hout⟩ :=
      h.replaceAt_updates hmem hroom hsrc (fun _ => dst) rfl hdst hregion
    exact ⟨t', hstep, hin, hout⟩
  · rw [replace, replaceAt, visit_of_not_inside Stop.assertFailed hout]
    rfl
  · rw [replaceTree, replaceAt, visit_of_not_inside Stop.assertFailed hout]
    rfl

/-- The rule of the lower half is replaced by one that adds five packets, or by a table for the
pieces of it; the memories of the upper half keep their rule.  A rule for negative values is not
found. -/
theorem replace_updates_of_halved : letI := gcc48
    (∃ t', halved.replace (.make 5 1 1 lowHalf) = .ok (true, t') ∧
      t'.whisker (.ofData 1 2 3 4) = .ok (some (.make 5 1 1 lowHalf)) ∧
      t'.whisker (.ofData 90000 2 3 4) = halved.whisker (.ofData 90000 2 3 4)) ∧
    (∃ dst t', ofWhisker (.make 5 1 1 lowHalf) true = .ok dst ∧
      halved.replaceTree (.ofDomain lowHalf) dst = .ok (true, t') ∧
      t'.whisker (.ofData 1 2 3 4) = dst.whisker (.ofData 1 2 3 4) ∧
      t'.whisker (.ofData 90000 2 3 4) = halved.whisker (.ofData 90000 2 3 4)) ∧
    halved.replace (.make 5 1 1 (.make (.ofData (-2) 0 0 0) (.ofData (-1) 1 1 1)))
      = .ok (false, halved) := by
  let _ := gcc48
  have hmem : (lowHalf, Whisker.ofDomain lowHalf) ∈ halved.leaves := List.mem_cons_self
  have hlow : lowHalf.contains (.ofData 1 2 3 4) := by decide +kernel
  have hhigh : ¬ lowHalf.contains (.ofData 90000 2 3 4) := by decide +kernel
  obtain ⟨dst, hdst, hwf, hregion, -⟩ := WellFormed.ofWhisker_bisect
    (w := .make 5 1 1 lowHalf) WellFormed.nonempty_lowHalf fun i => by fin_cases i <;> decide
  obtain ⟨hfound, hout⟩ := replace_updates WellFormed.halved
  obtain ⟨hrule, htable⟩ := hfound _ _ hmem WellFormed.nonempty_lowHalf
  obtain ⟨t₁, hstep₁, -, hin₁, hother₁⟩ := hrule (.make 5 1 1 lowHalf) (.refl _)
  obtain ⟨t₂, hstep₂, hin₂, hother₂⟩ := htable (.ofDomain lowHalf) dst (.refl _) hwf.partitioned (by
    rw [hregion]
    exact .refl _)
  refine ⟨⟨t₁, hstep₁, hin₁ _ hlow, hother₁ _ hhigh⟩,
    ⟨dst, t₂, hdst, hstep₂, hin₂ _ hlow, hother₂ _ hhigh⟩, (hout _ halved ?_).1⟩
  decide +kernel

/-! ### The two copies of a box -/

/-- Each leaf's copy of its box is that of its rule, on all four axes. -/
def BoxesAgree (t : WhiskerTree) : Prop := ∀ p ∈ t.leaves, p.1.SameBounds p.2.domain

/-- A rule that is found is one for the memory. -/
theorem BoxesAgree.contains_of_whisker {t : WhiskerTree} (h : BoxesAgree t) {m : Memory}
    {w : Whisker} (hw : t.whisker m = .ok (some w)) : w.domain.contains m := by
  obtain ⟨C, d, rfl, -, hd⟩ := lookup_eq_some.mp hw
  have hbox : d.SameBounds w.domain := h _ (C.mem_leaves_fill_leaf d w)
  exact (hbox.contains_eq m).symm.trans hd

/-- What is saved of a leaf's box and of its rule's is the same. -/
theorem BoxesAgree.dna_eq {t : WhiskerTree} (h : BoxesAgree t) :
    ∀ p ∈ t.leaves, p.1.dna = p.2.domain.dna := by
  intro p hp
  exact MemoryRange.dna_eq_of_bounds_eq (MemoryRange.bounds_eq_iff.mpr (h p hp))

/-- Refilling a hole keeps the boxes equal when it does in the filling. -/
theorem BoxesAgree.fill_iff {C : Context MemoryRange Whisker} {s s' : WhiskerTree}
    (h : BoxesAgree (C.fill s)) : BoxesAgree (C.fill s') ↔ BoxesAgree s' := by
  constructor
  · exact fun hfill p hp => hfill p (Context.mem_leaves_fill hp)
  · intro hs' p hp
    rcases Context.mem_leaves_fill_cases hp with hfilling | hother
    · exact hs' p hfilling
    · exact h p (hother s)

/-- **What a replacement that finds its leaf did**: the leaf is the one that looking up the midpoint
finds, and the domains compare equal. -/
theorem replace_eq_true {t t' : WhiskerTree} {w : Whisker} (h : t.replace w = .ok (true, t')) :
    ∃ (C : Context MemoryRange Whisker) (d : MemoryRange) (leaf : Whisker),
      t = C.fill (.leaf d leaf) ∧ t.whisker w.domain.rangeMedian = .ok (some leaf) ∧
      w.domain.opEq leaf.domain ∧ t' = C.fill (.leaf d w) := by
  unfold replace replaceAt at h
  obtain ⟨found, hvisit, hfound⟩ := bind_eq_ok.mp h
  cases found with
  | none => cases hfound
  | some r =>
    obtain ⟨u, s⟩ := r
    obtain ⟨-, rfl⟩ := Prod.mk.inj (Except.ok.inj hfound)
    obtain ⟨C, d, leaf, s, rfl, hC, hd, hact, rfl⟩ := visit_eq_some _ hvisit
    split at hact
    · rename_i heq
      obtain ⟨-, rfl⟩ := Prod.mk.inj (Except.ok.inj hact)
      exact ⟨C, d, leaf, rfl, lookup_eq_some.mpr ⟨C, d, rfl, hC, hd⟩, heq, rfl⟩
    · cases hact

/-- The operator and the axis it leaves out decide whether two ranges have the same bounds. -/
theorem sameBounds_iff_of_opEq {r s : MemoryRange} (h : r.opEq s) :
    r.SameBounds s ↔
      r.lower.recRecEwma = s.lower.recRecEwma ∧ r.upper.recRecEwma = s.upper.recRecEwma := by
  rw [MemoryRange.opEq, Bool.and_eq_true, Memory.opEq_iff, Memory.opEq_iff] at h
  constructor
  · exact fun hsame => hsame 1
  · rintro haxis i
    rcases eq_or_ne i 1 with rfl | hi
    · exact haxis
    · exact ⟨h.1 i hi, h.2 i hi⟩

/-- **A replacement that passes the assertion keeps the boxes equal if and only if the bounds on the
axis left out are equal.**  Then all rules that are found are for the memories they are found
for, and what is saved of the boxes is the same. -/
theorem replace_boxesAgree_iff {t t' : WhiskerTree} {w : Whisker} (hboxes : BoxesAgree t)
    (hstep : t.replace w = .ok (true, t')) :
    (BoxesAgree t' ∧ (∀ m w', t'.whisker m = .ok (some w') → w'.domain.contains m) ∧
      ∀ p ∈ t'.leaves, p.1.dna = p.2.domain.dna) ↔
    ∀ leaf, t.whisker w.domain.rangeMedian = .ok (some leaf) →
      w.domain.lower.recRecEwma = leaf.domain.lower.recRecEwma ∧
        w.domain.upper.recRecEwma = leaf.domain.upper.recRecEwma := by
  obtain ⟨C, d, leaf, rfl, hfound, heq, rfl⟩ := replace_eq_true hstep
  have hbox : d.SameBounds leaf.domain := hboxes _ (C.mem_leaves_fill_leaf d leaf)
  have hagree : BoxesAgree (C.fill (.leaf d w)) ↔ d.SameBounds w.domain := by
    rw [hboxes.fill_iff]
    exact List.forall_mem_singleton
  have haxis : d.SameBounds w.domain ↔ w.domain.SameBounds leaf.domain :=
    ⟨fun h => h.symm.trans hbox, fun h => hbox.trans h.symm⟩
  rw [sameBounds_iff_of_opEq heq] at haxis
  constructor
  · rintro ⟨h, -⟩ leaf' hleaf'
    rw [hfound] at hleaf'
    obtain rfl := Option.some.inj (Except.ok.inj hleaf')
    exact haxis.mp (hagree.mp h)
  · intro h
    have h' : BoxesAgree (C.fill (.leaf d w)) := hagree.mpr (haxis.mpr (h leaf hfound))
    exact ⟨h', fun m w' hw' => h'.contains_of_whisker hw', h'.dna_eq⟩

theorem boxesAgree_init : BoxesAgree WhiskerTree.init := WellFormed.init.domains

/-- Replacing the only rule of the default tree. -/
theorem replace_init {w : Whisker} (hmedian : rootDomain.contains w.domain.rangeMedian)
    (heq : w.domain.opEq (Whisker.ofDomain rootDomain).domain) :
    WhiskerTree.init.replace w = .ok (true, .leaf rootDomain w) := by
  have hinside : Region.contains rootDomain w.domain.rangeMedian = true := hmedian
  rw [replace, replaceAt, WhiskerTree.init, visit, if_pos hinside, if_pos heq]
  rfl

/-- Replacing the rule of the lower half by one for the same domain. -/
theorem replace_boxesAgree_iff_of_halved : ∃ t',
    halved.replace (.make 5 1 1 lowHalf) = .ok (true, t') ∧ BoxesAgree t' := by
  have hmem : (lowHalf, Whisker.ofDomain lowHalf) ∈ halved.leaves := List.mem_cons_self
  obtain ⟨t', hstep⟩ : ∃ t', halved.replace (.make 5 1 1 lowHalf) = .ok (true, t') := by
    obtain ⟨C, -, hstep⟩ := WellFormed.halved.replaceAt_spec hmem WellFormed.nonempty_lowHalf
      (.refl _) fun d => .leaf d (.make 5 1 1 lowHalf)
    exact ⟨_, hstep⟩
  refine ⟨_, hstep, ((replace_boxesAgree_iff WellFormed.halved.domains hstep).mpr ?_).1⟩
  intro leaf hleaf
  have hfound : halved.whisker lowHalf.rangeMedian = .ok (some (.ofDomain lowHalf)) := by
    rw [whisker_eq_policy WellFormed.halved.partitioned,
      WellFormed.halved.partitioned.policy_of_mem hmem
        (MemoryRange.contains_rangeMedian WellFormed.nonempty_lowHalf)]
  obtain rfl := Option.some.inj (Except.ok.inj (hfound.symm.trans hleaf))
  exact ⟨rfl, rfl⟩

/-- The default rule is replaced by one for memories whose `_rec_rec_ewma` is at least one, and the
memory with zeros is mapped to it. -/
theorem replace_corrupts_box :
    ∃ (w : Whisker) (t' : WhiskerTree), BoxesAgree WhiskerTree.init ∧
      WhiskerTree.init.replace w = .ok (true, t') ∧ ¬ BoxesAgree t' ∧
      t'.whisker .init = .ok (some w) ∧ ¬ w.domain.contains .init := by
  let w : Whisker := .make 1 1 3 (.make (.ofData 0 1 0 0) maxMemory)
  have hstep := replace_init (w := w) (by decide +kernel) (by decide +kernel)
  have hfound : whisker (.leaf rootDomain w) .init = .ok (some w) := by
    apply whisker_leaf
    decide +kernel
  have hnot : ¬ w.domain.contains .init := by decide +kernel
  refine ⟨w, _, boxesAgree_init, hstep, fun hboxes => ?_, hfound, hnot⟩
  exact hnot (hboxes.contains_of_whisker hfound)

end WhiskerTree

end SendReceive
