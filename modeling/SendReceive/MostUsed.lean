import SendReceive.Lib.LastMax
import SendReceive.WhiskerTree

/-!
# The rule that is used most

The optimiser improves the rule that was used most, among those of a generation it has not passed
yet.  `most_used` looks for it from the leaves up: every node takes the best of what its children
found, and of two that are equally good the later one.

A pointer into a tree is the path of children that lead to a leaf, with the rule of the leaf.

## Main definitions

* `Pointer`, `WhiskerTree.located` — the leaves of a tree from left to right, with their paths.
* `WhiskerTree.mostUsed` — the search.

## Main results

* `WhiskerTree.mem_located_iff` — a path leads to one leaf.
* `WhiskerTree.mostUsed_spec` — **the search finds the last of the rules used most**.
-/

namespace SendReceive

open RegionTree LastMax

/-- A pointer to a rule of a tree: the children to go into, from the root on, and the rule. -/
abbrev Pointer := List ℕ × Whisker

/-- A pointer into the child with the index `i`, as a pointer into the tree. -/
def Pointer.under (i : ℕ) (p : Pointer) : Pointer := (i :: p.1, p.2)

namespace WhiskerTree

/-- One turn of the loop over the children, from `count_max` and `ret` before it. -/
def mostUsedTurn (maxGeneration : UInt32) (s : UInt32 × Option Pointer) :
    Option Pointer → UInt32 × Option Pointer
  | some candidate =>
    if candidate.2.generation ≤ maxGeneration ∧ s.1 ≤ candidate.2.count then
      (candidate.2.count, some candidate)
    else s
  | none => s

/-- `WhiskerTree::most_used`. -/
def mostUsed (maxGeneration : UInt32) : WhiskerTree → Option Pointer :=
  fold
    (fun _ leaf =>
      if leaf.generation ≤ maxGeneration ∧ 0 < leaf.count then some ([], leaf) else none)
    fun _ found =>
      ((found.zipIdx.map fun x => x.1.map (.under x.2)).foldl (mostUsedTurn maxGeneration)
        (0, none)).2

theorem mostUsed_node (maxGeneration : UInt32) (d : MemoryRange) (cs : List WhiskerTree) :
    mostUsed maxGeneration (.node d cs)
      = ((cs.zipIdx.map fun x => (mostUsed maxGeneration x.1).map (.under x.2)).foldl
          (mostUsedTurn maxGeneration) (0, none)).2 := by
  rw [mostUsed, fold_node, List.zipIdx_map, List.map_map]
  rfl

/-! ### Where the leaves are -/

/-- The pointers to the leaves of a tree, from left to right. -/
def located : WhiskerTree → List Pointer :=
  fold (fun _ leaf => [([], leaf)]) fun _ found =>
    found.zipIdx.flatMap fun x => x.1.map (.under x.2)

@[simp] theorem located_leaf (d : MemoryRange) (w : Whisker) :
    located (.leaf d w) = [([], w)] := rfl

theorem located_node (d : MemoryRange) (cs : List WhiskerTree) :
    located (.node d cs) = cs.zipIdx.flatMap fun x => (located x.1).map (.under x.2) := by
  rw [located, fold_node, List.zipIdx_map, List.flatMap_map]
  rfl

/-- Following a path down a tree to a leaf. -/
def leafAt : List ℕ → WhiskerTree → Option Whisker
  | [], .leaf _ w => some w
  | i :: path, .node _ cs => cs[i]?.bind (leafAt path)
  | _, _ => none

/-- A pointer into a node is a pointer into one of its children. -/
theorem mem_located_node {d : MemoryRange} {cs : List WhiskerTree} {p : Pointer} :
    p ∈ located (.node d cs) ↔ ∃ i c, cs[i]? = some c ∧ ∃ q ∈ located c, p = .under i q := by
  rw [located_node, List.mem_flatMap]
  constructor
  · rintro ⟨⟨c, i⟩, hc, hp⟩
    obtain ⟨q, hq, rfl⟩ := List.mem_map.mp hp
    exact ⟨i, c, List.mem_zipIdx_iff_getElem?.mp hc, q, hq, rfl⟩
  · rintro ⟨i, c, hc, q, hq, rfl⟩
    exact ⟨(c, i), List.mem_zipIdx_iff_getElem?.mpr hc, List.mem_map_of_mem hq⟩

/-- **A path leads to one leaf**, that of the pointer. -/
theorem mem_located_iff {t : WhiskerTree} : ∀ {path : List ℕ} {w : Whisker},
    (path, w) ∈ t.located ↔ leafAt path t = some w := by
  induction t using RegionTree.induct with
  | leaf d w₀ =>
    intro path w
    cases path with
    | nil => simp [leafAt, eq_comm]
    | cons i path => simp [leafAt]
  | node d cs ih =>
    intro path w
    rw [mem_located_node]
    cases path with
    | nil => simp [leafAt, Pointer.under]
    | cons i path =>
      rw [leafAt, Option.bind_eq_some_iff]
      constructor
      · rintro ⟨j, c, hc, q, hq, hp⟩
        obtain ⟨hpath, rfl⟩ := Prod.mk.inj hp
        obtain ⟨rfl, rfl⟩ := List.cons.inj hpath
        exact ⟨c, hc, (ih c (List.mem_of_getElem? hc)).mp hq⟩
      · rintro ⟨c, hc, hleaf⟩
        exact ⟨i, c, hc, (path, w), (ih c (List.mem_of_getElem? hc)).mpr hleaf, rfl⟩

/-- The pointers are to the rules of the leaves, in their order. -/
theorem map_snd_located (t : WhiskerTree) : t.located.map Prod.snd = t.leaves.map Prod.snd := by
  induction t using RegionTree.induct with
  | leaf d w => rfl
  | node d cs ih =>
    have hcs : cs.zipIdx.map Prod.fst = cs := List.zipIdx_map_fst 0 cs
    rw [located_node, leaves_node, List.map_flatMap, List.map_flatMap]
    conv_rhs => rw [← hcs, List.flatMap_map]
    refine List.flatMap_congr fun x hx => ?_
    have hmem : x.1 ∈ cs := by
      rw [← hcs]
      exact List.mem_map_of_mem hx
    rw [List.map_map, ← ih x.1 hmem]
    rfl

/-! ### The search -/

/-- The rules the search is for. -/
def Candidate (maxGeneration : UInt32) (p : Pointer) : Prop :=
  p.2.generation ≤ maxGeneration ∧ 0 < p.2.count

/-- How often the rule was used. -/
def uses (p : Pointer) : ℕ := p.2.count.toNat

/-- The greatest count so far belongs to the result so far. -/
def countMax (r : Option Pointer) : UInt32 := r.elim 0 fun p => p.2.count

variable {maxGeneration : UInt32}

/-- A turn of the loop takes the better of the results, the second one when they are equally
good. -/
theorem mostUsedTurn_eq (r : Option Pointer) {s : Option Pointer}
    (hs : ∀ p ∈ s, Candidate maxGeneration p) :
    mostUsedTurn maxGeneration (countMax r, r) s = (countMax (later uses r s), later uses r s) := by
  cases s with
  | none => cases r <;> rfl
  | some q =>
    -- the generation is checked a second time
    have hgen : q.2.generation ≤ maxGeneration := (hs q rfl).1
    unfold mostUsedTurn
    dsimp only
    cases r with
    | none =>
      rw [if_pos ⟨hgen, UInt32.zero_le⟩]
      rfl
    | some p =>
      unfold later
      dsimp only
      by_cases hle : uses p ≤ uses q
      · rw [if_pos hle, if_pos ⟨hgen, UInt32.le_iff_toNat_le.mpr hle⟩]
        rfl
      · rw [if_neg hle, if_neg fun h => hle (UInt32.le_iff_toNat_le.mp h.2)]

/-- **The loop over the children** combines their results. -/
theorem foldl_mostUsedTurn {found : List (Option Pointer)} : ∀ (r : Option Pointer),
    (∀ s ∈ found, ∀ p ∈ s, Candidate maxGeneration p) →
      (found.foldl (mostUsedTurn maxGeneration) (countMax r, r)).2 = found.foldl (later uses) r := by
  induction found with
  | nil => intro r _; rfl
  | cons s found ih =>
    intro r h
    obtain ⟨hs, hfound⟩ := List.forall_mem_cons.mp h
    rw [List.foldl_cons, List.foldl_cons, mostUsedTurn_eq r hs]
    exact ih _ hfound

/-- The search finds the last of the rules used most. -/
theorem isLastMax_mostUsed (t : WhiskerTree) :
    IsLastMax (Candidate maxGeneration) uses t.located (mostUsed maxGeneration t) := by
  induction t using RegionTree.induct with
  | leaf d w =>
    show IsLastMax _ _ [([], w)] (if w.generation ≤ maxGeneration ∧ 0 < w.count then _ else _)
    by_cases hw : w.generation ≤ maxGeneration ∧ 0 < w.count
    · rw [if_pos hw]
      exact ⟨hw, [], [], rfl, by simp, by simp⟩
    · rw [if_neg hw]
      intro p hp
      rw [List.mem_singleton.mp hp]
      exact hw
  | node d cs ih =>
    have hpart : ∀ x ∈ cs.zipIdx, IsLastMax (Candidate maxGeneration) uses
        ((located x.1).map (.under x.2)) ((mostUsed maxGeneration x.1).map (.under x.2)) := by
      intro x hx
      have hmem := List.mem_of_getElem? (List.mem_zipIdx_iff_getElem?.mp hx)
      exact (ih x.1 hmem).map (g := Pointer.under x.2) (fun p => Iff.rfl) fun p => rfl
    have hcandidates : ∀ s ∈ cs.zipIdx.map fun x => (mostUsed maxGeneration x.1).map (.under x.2),
        ∀ p ∈ s, Candidate maxGeneration p := by
      intro s hs p hp
      obtain ⟨x, hx, rfl⟩ := List.mem_map.mp hs
      have hfound := hpart x hx
      rw [Option.mem_def.mp hp] at hfound
      exact hfound.1
    have hloop : mostUsed maxGeneration (.node d cs) = (cs.zipIdx.map fun x =>
        (mostUsed maxGeneration x.1).map (.under x.2)).foldl (later uses) none :=
      (mostUsed_node _ _ _).trans (foldl_mostUsedTurn none hcandidates)
    rw [hloop, located_node]
    exact IsLastMax.flatten hpart (IsLastMax.nil _ uses)

/-- **The search finds the last of the rules used most.**  It finds nothing only when no leaf has
a rule of an admitted generation that was used; otherwise it finds the leaf of such a rule, before
which no such rule was used more, and after which none was used as much. -/
theorem mostUsed_spec (t : WhiskerTree) (maxGeneration : UInt32) :
    (mostUsed maxGeneration t = none ↔
      ∀ p ∈ t.leaves, ¬ (p.2.generation ≤ maxGeneration ∧ 0 < p.2.count)) ∧
    (∀ path w, mostUsed maxGeneration t = some (path, w) ↔
      (w.generation ≤ maxGeneration ∧ 0 < w.count) ∧
      ∃ before after, t.located = before ++ (path, w) :: after ∧
        (∀ q ∈ before, q.2.generation ≤ maxGeneration ∧ 0 < q.2.count → q.2.count ≤ w.count) ∧
        ∀ q ∈ after, q.2.generation ≤ maxGeneration ∧ 0 < q.2.count → q.2.count < w.count) ∧
    t.located.map Prod.snd = t.leaves.map Prod.snd ∧
    ∀ path w, (path, w) ∈ t.located ↔ leafAt path t = some w := by
  have hspec : IsLastMax (Candidate maxGeneration) uses (located t) (mostUsed maxGeneration t) :=
    isLastMax_mostUsed t
  refine ⟨?_, fun path w => ?_, map_snd_located t, fun path w => mem_located_iff⟩
  · rw [hspec.eq_none_iff]
    have hleaves : ∀ w, (∃ p ∈ t.located, p.2 = w) ↔ ∃ p ∈ t.leaves, p.2 = w := by
      intro w
      have hmap := congrArg (w ∈ ·) (map_snd_located t)
      simpa only [List.mem_map, eq_iff_iff] using hmap
    constructor
    · intro h p hp hcand
      obtain ⟨q, hq, hqp⟩ := (hleaves p.2).mpr ⟨p, hp, rfl⟩
      refine h q hq ?_
      rw [Candidate, hqp]
      exact hcand
    · intro h q hq hcand
      obtain ⟨p, hp, hpq⟩ := (hleaves q.2).mp ⟨q, hq, rfl⟩
      refine h p hp ?_
      rw [hpq]
      exact hcand
  · rw [hspec.eq_some_iff]
    exact Iff.rfl

end WhiskerTree

end SendReceive
