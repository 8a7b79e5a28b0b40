import SendReceive.Dna

/-!
# The messages that are saved

All fields of a message are optional, and many messages are loaded as the same table.  What is saved
of the table is one of them, in which all fields are set: a field that was missing has the default
that it was read as.  The messages of this form are exactly those that `DNA()` makes.

## Main definitions

* `RemyBuffers.WhiskerTree.Accepted` — the messages that are loaded.
* `RemyBuffers.WhiskerTree.normal` — a message with all fields set.

## Main results

* `WhiskerTree.ofDNA_eq_error_iff` — which messages fail, and how.
* `WhiskerTree.dna_of_ofDNA` — what is saved of a table that was loaded.
* `WhiskerTree.normal_form` — **loading and saving is a retraction** onto the saved messages.
-/

namespace SendReceive

/-! ### Messages with all fields set -/

namespace RemyBuffers

/-- All fields set: those that are missing to the end of the axis that the limit stands for. -/
def Memory.normal (isLowerLimit : Bool) (dna : Memory) : Memory where
  recSendEwma := some (getValOrDefault dna.recSendEwma isLowerLimit)
  recRecEwma := some (getValOrDefault dna.recRecEwma isLowerLimit)
  rttRatio := some (getValOrDefault dna.rttRatio isLowerLimit)
  slowRecRecEwma := some (getValOrDefault dna.slowRecRecEwma isLowerLimit)

/-- Both limits set, with all their fields. -/
def MemoryRange.normal (dna : MemoryRange) : MemoryRange where
  lower := some (.normal true (dna.lower.getD {}))
  upper := some (.normal false (dna.upper.getD {}))

/-- All fields set: numbers that are missing to zero. -/
def Whisker.normal (dna : Whisker) : Whisker where
  windowIncrement := some (dna.windowIncrement.getD 0)
  windowMultiple := some (dna.windowMultiple.getD 0)
  intersend := some (dna.intersend.getD 0)
  domain := some (.normal (dna.domain.getD {}))

namespace WhiskerTree

mutual

/-- All fields of all nodes set. -/
def normal : WhiskerTree → WhiskerTree
  | .mk domain children leaf =>
    .mk (some (.normal (domain.getD {}))) (normals children) (leaf.map .normal)

/-- The messages of a list with all fields set. -/
def normals : List WhiskerTree → List WhiskerTree
  | [] => []
  | x :: xs => normal x :: normals xs

end

theorem normals_eq_map (xs : List WhiskerTree) : normals xs = xs.map normal := by
  induction xs with
  | nil => rfl
  | cons x xs ih => rw [normals, ih, List.map_cons]

@[simp] theorem normal_mk (domain : Option MemoryRange) (children : List WhiskerTree)
    (leaf : Option Whisker) : normal (.mk domain children leaf)
      = .mk (some (.normal (domain.getD {}))) (children.map normal) (leaf.map .normal) := by
  rw [normal, normals_eq_map]

/-- The messages that are loaded: each node has a leaf or children, and not both. -/
inductive Accepted : WhiskerTree → Prop
  | leaf (domain : Option MemoryRange) (w : Whisker) : Accepted (.mk domain [] (some w))
  | node (domain : Option MemoryRange) {children : List WhiskerTree} (hne : children ≠ [])
      (hchildren : ∀ c ∈ children, Accepted c) : Accepted (.mk domain children none)

/-- A message with all fields set is left as it is. -/
theorem normal_normal (dna : WhiskerTree) : dna.normal.normal = dna.normal := by
  induction dna with
  | mk domain children leaf ih =>
    rw [normal_mk, normal_mk, List.map_map, Option.map_map]
    have hchildren : children.map (normal ∘ normal) = children.map normal :=
      List.map_congr_left ih
    rw [hchildren]
    rfl

end WhiskerTree

end RemyBuffers

/-! ### Loading -/

open RemyBuffers.WhiskerTree (normal Accepted)

theorem MemoryRange.ofDNA_normal (dna : RemyBuffers.MemoryRange) : ofDNA dna.normal = ofDNA dna :=
  rfl

theorem MemoryRange.dna_ofDNA (dna : RemyBuffers.MemoryRange) : (ofDNA dna).dna = dna.normal := rfl

theorem Whisker.ofDNA_normal (dna : RemyBuffers.Whisker) : ofDNA dna.normal = ofDNA dna := rfl

theorem Whisker.dna_ofDNA (dna : RemyBuffers.Whisker) : (ofDNA dna).dna = dna.normal := rfl

namespace WhiskerTree

open RegionTree

/-- Each member of a list has a result. -/
theorem exists_forall₂ {α β : Type*} {R : α → β → Prop} {l : List α} (h : ∀ a ∈ l, ∃ b, R a b) :
    ∃ l', List.Forall₂ R l l' := by
  induction l with
  | nil => exact ⟨[], .nil⟩
  | cons a l ih =>
    obtain ⟨⟨b, hb⟩, hl⟩ := List.forall_mem_cons.mp h
    obtain ⟨l', hl'⟩ := ih hl
    exact ⟨b :: l', .cons hb hl'⟩

/-- **Which messages are loaded.** -/
theorem exists_ofDNA_iff {dna : RemyBuffers.WhiskerTree} :
    (∃ t, ofDNA dna = .ok t) ↔ Accepted dna := by
  induction dna with
  | mk domain children leaf ih =>
    constructor
    · rintro ⟨t, ht⟩
      rcases ofDNA_eq_ok.mp ht with ⟨w, rfl, rfl, -⟩ | ⟨rfl, hne, cs, -, hcs⟩
      · exact .leaf domain w
      · refine .node domain hne fun c hc => (ih c hc).mp ?_
        obtain ⟨t, -, hct⟩ := exists_of_forall₂ hcs.flip c hc
        exact ⟨t, hct⟩
    · intro h
      cases h with
      | leaf _ w => exact ⟨_, ofDNA_eq_ok.mpr (Or.inl ⟨w, rfl, rfl, rfl⟩)⟩
      | node _ hne hchildren =>
        obtain ⟨cs, hcs⟩ := exists_forall₂ fun c hc => (ih c hc).mpr (hchildren c hc)
        exact ⟨_, ofDNA_eq_ok.mpr (Or.inr ⟨rfl, hne, cs, rfl, hcs⟩)⟩

/-- Loading a message fails in an assertion only. -/
theorem assertFailed_of_ofDNA {dna : RemyBuffers.WhiskerTree} :
    ∀ {why : Stop}, ofDNA dna = .error why → why = .assertFailed := by
  induction dna with
  | mk domain children leaf ih =>
    have hchildren : ∀ {xs : List RemyBuffers.WhiskerTree} {why : Stop}, (∀ x ∈ xs, x ∈ children) →
        ofDNAs xs = .error why → why = .assertFailed := by
      intro xs
      induction xs with
      | nil =>
        intro why _ h
        cases h
      | cons x xs ihxs =>
        intro why hxs h
        obtain ⟨hx, hxs⟩ := List.forall_mem_cons.mp hxs
        rcases bind_eq_error.mp h with h | ⟨t, -, h⟩
        · exact ih x hx h
        · rcases bind_eq_error.mp h with h | ⟨ts, -, h⟩
          · exact ihxs hxs h
          · cases h
    intro why h
    cases leaf with
    | some w =>
      rw [ofDNA] at h
      split at h
      · cases h
      · exact (Except.error.inj h).symm
    | none =>
      rw [ofDNA] at h
      split at h
      · rcases bind_eq_error.mp h with h | ⟨cs, -, h⟩
        · exact hchildren (fun _ hx => hx) h
        · cases h
      · exact (Except.error.inj h).symm

/-- A message that is not accepted fails in an assertion. -/
theorem ofDNA_eq_error_iff {dna : RemyBuffers.WhiskerTree} :
    ofDNA dna = .error .assertFailed ↔ ¬ Accepted dna := by
  rw [← exists_ofDNA_iff]
  constructor
  · rintro h ⟨t, ht⟩
    rw [h] at ht
    cases ht
  · intro h
    cases hload : ofDNA dna with
    | ok t => exact absurd ⟨t, hload⟩ h
    | error why => rw [assertFailed_of_ofDNA hload]

/-- The fields that are set to their defaults make no difference. -/
theorem ofDNA_normal (dna : RemyBuffers.WhiskerTree) : ofDNA dna.normal = ofDNA dna := by
  induction dna with
  | mk domain children leaf ih =>
    have hchildren : ofDNAs (children.map normal) = ofDNAs children := by
      induction children with
      | nil => rfl
      | cons x xs ihxs =>
        obtain ⟨hx, hxs⟩ := List.forall_mem_cons.mp ih
        rw [List.map_cons, ofDNAs, ofDNAs, hx, ihxs hxs]
    rw [RemyBuffers.WhiskerTree.normal_mk]
    cases leaf with
    | some w =>
      rw [Option.map_some, ofDNA, ofDNA, List.length_map, Option.getD_some,
        MemoryRange.ofDNA_normal, Whisker.ofDNA_normal]
    | none =>
      rw [Option.map_none, ofDNA, ofDNA, List.length_map, hchildren, Option.getD_some,
        MemoryRange.ofDNA_normal]

/-- **What is saved of a table that was loaded**: the message with all fields set. -/
theorem dna_of_ofDNA {dna : RemyBuffers.WhiskerTree} :
    ∀ {t : WhiskerTree}, ofDNA dna = .ok t → t.dna = dna.normal := by
  induction dna with
  | mk domain children leaf ih =>
    intro t h
    rcases ofDNA_eq_ok.mp h with ⟨w, rfl, rfl, rfl⟩ | ⟨rfl, hne, cs, rfl, hcs⟩
    · rw [dna_leaf, MemoryRange.dna_ofDNA, Whisker.dna_ofDNA]
      rfl
    · have hmap : cs.map WhiskerTree.dna = children.map normal := by
        clear h hne
        induction hcs with
        | nil => rfl
        | cons hxc _ ihcs =>
          obtain ⟨hx, hxs⟩ := List.forall_mem_cons.mp ih
          rw [List.map_cons, List.map_cons, hx hxc, ihcs hxs]
      rw [dna_node, MemoryRange.dna_ofDNA, RemyBuffers.WhiskerTree.normal_mk, hmap, Option.map_none]

/-- A tree that was loaded has a child at every interior node. -/
theorem populated_of_ofDNA {dna : RemyBuffers.WhiskerTree} :
    ∀ {t : WhiskerTree}, ofDNA dna = .ok t → t.Populated := by
  induction dna with
  | mk domain children leaf ih =>
    intro t h
    rcases ofDNA_eq_ok.mp h with ⟨w, rfl, rfl, rfl⟩ | ⟨rfl, hne, cs, rfl, hcs⟩
    · intro d cs hsub
      cases hsub
    · intro d bs hsub
      cases hsub with
      | refl =>
        rintro rfl
        exact hne (List.forall₂_nil_right_iff.mp hcs)
      | child hc hsub =>
        obtain ⟨x, hx, hxc⟩ := exists_of_forall₂ hcs _ hc
        exact ih x hx hxc d bs hsub

/-- **Loading and saving is a retraction.**  A message is loaded if and only if each of its nodes
has a leaf or children and not both, and fails in an assertion otherwise.  What is saved of the
table is the message with all fields set, and this is loaded as the same table.  The messages that
can be saved, of a tree with a child at every interior node, are those that are accepted and have
all fields set; setting them twice makes no difference. -/
theorem normal_form (dna : RemyBuffers.WhiskerTree) :
    ((∃ t, ofDNA dna = .ok t) ↔ Accepted dna) ∧
    (ofDNA dna = .error .assertFailed ↔ ¬ Accepted dna) ∧
    (∀ t, ofDNA dna = .ok t → t.Populated ∧ t.dna = dna.normal ∧ ofDNA dna.normal = .ok t) ∧
    ((∃ t : WhiskerTree, t.Populated ∧ t.dna = dna) ↔ Accepted dna ∧ dna.normal = dna) ∧
    dna.normal.normal = dna.normal := by
  refine ⟨exists_ofDNA_iff, ofDNA_eq_error_iff, fun t ht => ?_, ?_,
    RemyBuffers.WhiskerTree.normal_normal dna⟩
  · exact ⟨populated_of_ofDNA ht, dna_of_ofDNA ht, (ofDNA_normal dna).trans ht⟩
  · constructor
    · rintro ⟨t, ht, rfl⟩
      have hload := ofDNA_dna ht
      refine ⟨exists_ofDNA_iff.mp ⟨_, hload⟩, (dna_of_ofDNA hload).symm.trans ?_⟩
      exact dna_map (f := fun d => .ofDNA d.dna) (g := fun w => .ofDNA w.dna) (fun _ => rfl)
        (fun _ => rfl) t
    · rintro ⟨haccepted, hnormal⟩
      obtain ⟨t, ht⟩ := exists_ofDNA_iff.mpr haccepted
      exact ⟨t, populated_of_ofDNA ht, (dna_of_ofDNA ht).trans hnormal⟩

end WhiskerTree

end SendReceive
