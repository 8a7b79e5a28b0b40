import SendReceive.Dna

/-!
# Fields that the DNA does not mention

A bound that is missing from the DNA is loaded as zero, or as the largest value of the table's own
range, so that the resulting rule matches anything there.  It matches anything below that value:
a memory beyond it is matched by no rule of such a table.

## Main definitions

* `RemyBuffers.WhiskerTree.Lacks` — a message whose domains all lack a field.
* `WhiskerTree.SameLeaf` — two memories are led to the same leaf.

## Main results

* `WhiskerTree.bounds_of_lacks` — what is loaded for the field that is missing.
* `WhiskerTree.wildcard_iff` — **a missing field matters in telling apart the values below the
  limit from the others, and in nothing else**.
-/

namespace SendReceive

open Memory (datasize)

namespace RemyBuffers

/-- A field of a memory, by its axis. -/
def Memory.field (m : Memory) : Fin datasize → Option DataType
  | 0 => m.recSendEwma
  | 1 => m.recRecEwma
  | 2 => m.rttRatio
  | 3 => m.slowRecRecEwma

/-- The field is missing from both bounds of a range. -/
def MemoryRange.Lacks (f : Fin datasize) (r : MemoryRange) : Prop :=
  (r.lower.getD {}).field f = none ∧ (r.upper.getD {}).field f = none

/-- The field is missing from both bounds of every node's domain and every whisker's domain. -/
inductive WhiskerTree.Lacks (f : Fin datasize) : WhiskerTree → Prop
  | mk {domain : Option MemoryRange} {children : List WhiskerTree} {leaf : Option Whisker}
      (node : (domain.getD {}).Lacks f) (whisker : ∀ w ∈ leaf, (w.domain.getD {}).Lacks f)
      (sub : ∀ c ∈ children, WhiskerTree.Lacks f c) :
      WhiskerTree.Lacks f (.mk domain children leaf)

end RemyBuffers

theorem Memory.field_ofDNA (isLowerLimit : Bool) (dna : RemyBuffers.Memory) (i : Fin datasize) :
    (Memory.ofDNA isLowerLimit dna).field i = getValOrDefault (dna.field i) isLowerLimit := by
  fin_cases i <;> rfl

/-- The bounds that are loaded for a field that is missing. -/
theorem MemoryRange.bounds_of_lacks {dna : RemyBuffers.MemoryRange} {f : Fin datasize}
    (h : dna.Lacks f) :
    (MemoryRange.ofDNA dna).lower.field f = 0 ∧
      (MemoryRange.ofDNA dna).upper.field f = 163840 := by
  unfold MemoryRange.ofDNA
  rw [Memory.field_ofDNA, Memory.field_ofDNA, h.1, h.2]
  exact ⟨rfl, rfl⟩

namespace WhiskerTree

open RegionTree

/-- **What is loaded for a field that is missing**: every node has the whole range of the table's
root on that axis. -/
theorem bounds_of_lacks {dna : RemyBuffers.WhiskerTree} {f : Fin datasize} :
    ∀ {t : WhiskerTree}, ofDNA dna = .ok t → dna.Lacks f →
      ∀ d ∈ t.regions, d.lower.field f = 0 ∧ d.upper.field f = 163840 := by
  induction dna with
  | mk domain children leaf ih =>
    rintro t h ⟨hnode, -, hsub⟩ d hd
    rcases ofDNA_eq_ok.mp h with ⟨w, rfl, rfl, rfl⟩ | ⟨rfl, -, cs, rfl, hcs⟩
    · rw [regions_leaf, List.mem_singleton] at hd
      rw [hd]
      exact MemoryRange.bounds_of_lacks hnode
    · rcases mem_regions_node.mp hd with rfl | ⟨c, hc, hdc⟩
      · exact MemoryRange.bounds_of_lacks hnode
      · obtain ⟨x, hx, hxc⟩ := exists_of_forall₂ hcs c hc
        exact ih x hx hxc (hsub x hx) d hdc

/-- Two memories are led to the same leaf, or neither is led to any: whatever is done to the leaf
that the walk comes to, it is the same for both. -/
def SameLeaf (t : WhiskerTree) (m m' : Memory) : Prop :=
  ∀ (A : Type) (act : MemoryRange → Whisker → Except Stop (A × WhiskerTree)),
    t.visit .assertFailed (Region.contains · m) act
      = t.visit .assertFailed (Region.contains · m') act

theorem SameLeaf.whisker_eq {t : WhiskerTree} {m m' : Memory} (h : SameLeaf t m m') :
    t.whisker m = t.whisker m' :=
  congrArg (Except.map (Option.map Prod.fst)) (h Whisker fun d w => .ok (w, .leaf d w))

theorem SameLeaf.symm {t : WhiskerTree} {m m' : Memory} (h : SameLeaf t m m') : SameLeaf t m' m :=
  fun A act => (h A act).symm

/-- A memory of the root's domain and one outside it are not led to the same leaf. -/
theorem not_sameLeaf {t : WhiskerTree} {m m' : Memory} (hm : t.region.contains m)
    (hm' : ¬ t.region.contains m') : ¬ SameLeaf t m m' := by
  intro h
  have hvisit := h Unit fun d w => .ok ((), .leaf d w)
  have hnone : t.visit Stop.assertFailed (Region.contains · m')
      (fun d w => .ok ((), .leaf d w)) = .ok none :=
    visit_of_not_inside Stop.assertFailed hm'
  exact visit_ne_none Stop.assertFailed hm (hvisit.trans hnone)

/-- The memory lies between the bounds of the range on all axes but `f`. -/
def FitsElsewhere (f : Fin datasize) (r : MemoryRange) (m : Memory) : Prop :=
  ∀ i ≠ f, r.lower.field i ≤ m.field i ∧ m.field i < r.upper.field i

/-- What a range with the bounds of a missing field contains. -/
theorem contains_iff_of_bounds {r : MemoryRange} {f : Fin datasize} {m : Memory}
    (hr : r.lower.field f = 0 ∧ r.upper.field f = 163840) (hm : 0 ≤ m.field f) :
    r.contains m ↔ m.field f < 163840 ∧ FitsElsewhere f r m := by
  rw [MemoryRange.contains_iff_mem_box, HalfOpenBox.mem_box]
  constructor
  · intro h
    refine ⟨?_, fun i _ => h i⟩
    rw [← hr.2]
    exact (h f).2
  · rintro ⟨hlt, helse⟩ i
    rcases eq_or_ne i f with rfl | hi
    · rw [hr.1, hr.2]
      exact ⟨hm, hlt⟩
    · exact helse i hi

section Missing

variable {f : Fin datasize} {m m' : Memory}

theorem fitsElsewhere_congr (hsame : ∀ i ≠ f, m.field i = m'.field i) (r : MemoryRange) :
    FitsElsewhere f r m ↔ FitsElsewhere f r m' := by
  unfold FitsElsewhere
  refine forall₂_congr fun i hi => ?_
  rw [hsame i hi]

/-- **A missing field tells apart the values below the limit from the others, and nothing else.**
Two memories that differ in the field only are led to the same leaf of a tree that was loaded from
a DNA without the field, if and only if both values lie below 163840 or neither does, or the root's
domain contains neither memory for the other fields they have. -/
theorem wildcard_iff {dna : RemyBuffers.WhiskerTree} {t : WhiskerTree} (haccept : ofDNA dna = .ok t)
    (hlacks : dna.Lacks f) (hm : ∀ i, 0 ≤ m.field i) (hm' : ∀ i, 0 ≤ m'.field i)
    (hsame : ∀ i ≠ f, m.field i = m'.field i) :
    SameLeaf t m m' ↔
      ((m.field f < 163840 ↔ m'.field f < 163840) ∨ ¬ FitsElsewhere f t.region m) := by
  have hbounds := bounds_of_lacks haccept hlacks
  have hcontains : ∀ d ∈ t.regions, d.contains m ↔ m.field f < 163840 ∧ FitsElsewhere f d m :=
    fun d hd => contains_iff_of_bounds (hbounds d hd) (hm f)
  have hcontains' : ∀ d ∈ t.regions, d.contains m' ↔ m'.field f < 163840 ∧ FitsElsewhere f d m :=
    fun d hd => by
      rw [contains_iff_of_bounds (hbounds d hd) (hm' f), fitsElsewhere_congr hsame]
  have hroot := region_mem_regions t
  constructor
  · intro h
    by_contra hnot
    rw [not_or, not_not] at hnot
    obtain ⟨hside, hfits⟩ := hnot
    -- one of the memories lies in the root's domain and the other does not
    by_cases hlt : m.field f < 163840
    · refine not_sameLeaf ((hcontains _ hroot).mpr ⟨hlt, hfits⟩) (fun hin => hside ?_) h
      exact iff_of_true hlt ((hcontains' _ hroot).mp hin).1
    · have hlt' : m'.field f < 163840 := by
        by_contra hge'
        exact hside (iff_of_false hlt hge')
      refine not_sameLeaf ((hcontains' _ hroot).mpr ⟨hlt', hfits⟩) (fun hin => ?_) h.symm
      exact hlt ((hcontains _ hroot).mp hin).1
  · intro h A act
    rcases h with hside | hnot
    · -- every region contains both memories or neither
      apply visit_congr
      intro d hd
      show d.contains m = d.contains m'
      rw [Bool.eq_iff_iff, hcontains d hd, hcontains' d hd, hside]
    · have hout : ¬ t.region.contains m := fun hin => hnot ((hcontains _ hroot).mp hin).2
      have hout' : ¬ t.region.contains m' := fun hin => hnot ((hcontains' _ hroot).mp hin).2
      rw [visit_of_not_inside Stop.assertFailed hout, visit_of_not_inside Stop.assertFailed hout']

end Missing

/-- The message with nothing in it but a rule for the whole range. -/
def emptyDna : RemyBuffers.WhiskerTree := .mk none [] (some {})

theorem lacks_emptyDna (f : Fin datasize) : emptyDna.Lacks f := by
  have hempty : (({} : RemyBuffers.MemoryRange)).Lacks f := by
    fin_cases f <;> exact ⟨rfl, rfl⟩
  refine .mk hempty ?_ ?_
  · rintro w ⟨⟩
    exact hempty
  · intro c hc
    cases hc

theorem ofDNA_emptyDna : ofDNA emptyDna = .ok (.leaf (.ofDNA {}) (.ofDNA {})) :=
  ofDNA_eq_ok.mpr (Or.inl ⟨{}, rfl, rfl, rfl⟩)

/-- The values zero and 163839 of a field that is missing lead to the same leaf. -/
theorem wildcard_iff_of_below : ∃ t, ofDNA emptyDna = .ok t ∧
    SameLeaf t (.ofData 0 1 1 1) (.ofData 163839 1 1 1) := by
  have hm : ∀ i, 0 ≤ (Memory.ofData 0 1 1 1).field i := fun i => by fin_cases i <;> decide
  have hm' : ∀ i, 0 ≤ (Memory.ofData 163839 1 1 1).field i := fun i => by fin_cases i <;> decide
  have hsame : ∀ i ≠ 0, (Memory.ofData 0 1 1 1).field i = (Memory.ofData 163839 1 1 1).field i :=
    fun i hi => by fin_cases i <;> first | rfl | exact absurd rfl hi
  refine ⟨_, ofDNA_emptyDna, (wildcard_iff ofDNA_emptyDna (lacks_emptyDna 0) hm hm' hsame).mpr ?_⟩
  exact Or.inl (iff_of_true (by decide) (by decide))

/-- The value zero of a field that is missing is matched, and the value 163840 is not. -/
theorem missing_field_limited : ∃ t, ofDNA emptyDna = .ok t ∧ emptyDna.Lacks 0 ∧
    (∀ i, 0 ≤ (Memory.ofData 0 1 1 1).field i) ∧ (∀ i, 0 ≤ (Memory.ofData 163840 1 1 1).field i) ∧
    (∀ i ≠ 0, (Memory.ofData 0 1 1 1).field i = (Memory.ofData 163840 1 1 1).field i) ∧
    (∃ w, t.whisker (.ofData 0 1 1 1) = .ok (some w)) ∧
    t.whisker (.ofData 163840 1 1 1) = .ok none := by
  refine ⟨_, ofDNA_emptyDna, lacks_emptyDna 0, fun i => ?_, fun i => ?_, fun i hi => ?_,
    ⟨_, rfl⟩, rfl⟩
  · fin_cases i <;> decide
  · fin_cases i <;> decide
  · fin_cases i <;> first | rfl | exact absurd rfl hi

end WhiskerTree

end SendReceive
