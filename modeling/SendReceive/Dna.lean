import SendReceive.Lib.RegionTreeMap
import SendReceive.WhiskerTree
import Mathlib.Data.List.Forall2

/-!
# The DNA of a rule table

A rule table is saved as a protobuf message, and the client loads the table it uses from one.
Trees, whiskers, ranges and memories each have a `DNA()` method and a constructor from a message.

All fields of the messages are optional.  A message is taken as the record of its fields, each
set or missing; reading a field that is missing gives the default of its type, that is zero or
a message with all fields missing.

## Main definitions

* `RemyBuffers.Memory`, `MemoryRange`, `Whisker`, `WhiskerTree` — the messages.
* `Memory.dna`, `Memory.ofDNA`, and the same for the other classes.
* `WhiskerTree.table` — what is saved of a tree.
* `WhiskerTree.Populated` — every interior node has a child.

## Main results

* `WhiskerTree.ofDNA_dna` — what loading makes of a tree that was saved.
* `WhiskerTree.dna_round_trip` — **saving and loading keeps the table**.
-/

namespace SendReceive

open Memory (datasize)

/-! ### The messages -/

namespace RemyBuffers

/-- `message Memory`. -/
structure Memory where
  recSendEwma : Option DataType := none
  recRecEwma : Option DataType := none
  rttRatio : Option DataType := none
  slowRecRecEwma : Option DataType := none
  deriving DecidableEq, Repr

/-- `message MemoryRange`. -/
structure MemoryRange where
  lower : Option Memory := none
  upper : Option Memory := none
  deriving DecidableEq, Repr

/-- `message Whisker`. -/
structure Whisker where
  windowIncrement : Option Int32 := none
  windowMultiple : Option DataType := none
  intersend : Option DataType := none
  domain : Option MemoryRange := none
  deriving DecidableEq, Repr

/-- `message WhiskerTree`, without the fields that no constructor reads. -/
inductive WhiskerTree where
  | mk (domain : Option MemoryRange) (children : List WhiskerTree) (leaf : Option Whisker)

/-- Induction over a message, with the hypothesis for every child. -/
@[elab_as_elim, induction_eliminator]
theorem WhiskerTree.induct {P : WhiskerTree → Prop}
    (mk : ∀ domain children leaf, (∀ c ∈ children, P c) → P (.mk domain children leaf))
    (dna : WhiskerTree) : P dna :=
  @WhiskerTree.rec P (fun children => ∀ c ∈ children, P c)
    (fun domain children leaf ih => mk domain children leaf ih)
    (fun _ hc => absurd hc List.not_mem_nil)
    (fun _ _ hc hcs => List.forall_mem_cons.mpr ⟨hc, hcs⟩) dna

end RemyBuffers

/-! ### Memories -/

/-- `get_val_or_default`.  If fields are missing in the DNA, we want to wildcard the resulting
rule to match anything. -/
def getValOrDefault (field : Option DataType) (limit : Bool) : DataType :=
  match field with
  | some v => v
  | none => if limit then 0 else 163840

namespace Memory

/-- `Memory::DNA`. -/
def dna (m : Memory) : RemyBuffers.Memory where
  recSendEwma := some m.recSendEwma
  recRecEwma := some m.recRecEwma
  rttRatio := some m.rttRatio
  slowRecRecEwma := some m.slowRecRecEwma

/-- The constructor from a message. -/
def ofDNA (isLowerLimit : Bool) (dna : RemyBuffers.Memory) : Memory where
  recSendEwma := getValOrDefault dna.recSendEwma isLowerLimit
  recRecEwma := getValOrDefault dna.recRecEwma isLowerLimit
  rttRatio := getValOrDefault dna.rttRatio isLowerLimit
  slowRecRecEwma := getValOrDefault dna.slowRecRecEwma isLowerLimit
  lastTickSent := 0
  lastTickReceived := 0
  minRtt := 0

/-- Loading what was saved gives the fields back, whichever limit it is loaded as. -/
@[simp] theorem field_ofDNA_dna (isLowerLimit : Bool) (m : Memory) :
    (ofDNA isLowerLimit m.dna).field = m.field := by
  funext i
  fin_cases i <;> rfl

/-- What is saved is a matter of the fields. -/
theorem dna_eq_of_field_eq {m m' : Memory} (h : m.field = m'.field) : m.dna = m'.dna := by
  have h0 : m.recSendEwma = m'.recSendEwma := congrFun h 0
  have h1 : m.recRecEwma = m'.recRecEwma := congrFun h 1
  have h2 : m.rttRatio = m'.rttRatio := congrFun h 2
  have h3 : m.slowRecRecEwma = m'.slowRecRecEwma := congrFun h 3
  rw [dna, dna, h0, h1, h2, h3]

end Memory

/-! ### Ranges -/

/-- The lower and upper bounds on all axes. -/
abbrev Bounds := (Fin datasize → DataType) × (Fin datasize → DataType)

namespace MemoryRange

/-- `MemoryRange::DNA`. -/
def dna (r : MemoryRange) : RemyBuffers.MemoryRange where
  lower := some r.lower.dna
  upper := some r.upper.dna

/-- The constructor from a message. -/
def ofDNA (dna : RemyBuffers.MemoryRange) : MemoryRange where
  lower := .ofDNA true (dna.lower.getD {})
  upper := .ofDNA false (dna.upper.getD {})
  acc := fun _ => []
  count := 0

/-- The bounds on all four axes. -/
def bounds (r : MemoryRange) : Bounds := (r.lower.field, r.upper.field)

theorem bounds_eq_iff {r s : MemoryRange} : r.bounds = s.bounds ↔ r.SameBounds s := by
  rw [bounds, bounds, Prod.mk.injEq, funext_iff, funext_iff, ← forall_and]
  exact Iff.rfl

@[simp] theorem bounds_ofDNA_dna (r : MemoryRange) : (ofDNA r.dna).bounds = r.bounds :=
  Prod.ext (Memory.field_ofDNA_dna true r.lower) (Memory.field_ofDNA_dna false r.upper)

/-- What is saved is a matter of the bounds. -/
theorem dna_eq_of_bounds_eq {r s : MemoryRange} (h : r.bounds = s.bounds) : r.dna = s.dna := by
  obtain ⟨hl, hu⟩ := Prod.mk.inj h
  rw [dna, dna, Memory.dna_eq_of_field_eq hl, Memory.dna_eq_of_field_eq hu]

theorem contains_ofDNA_dna (r : MemoryRange) (m : Memory) :
    (ofDNA r.dna).contains m = r.contains m :=
  (bounds_eq_iff.mp (bounds_ofDNA_dna r)).contains_eq m

end MemoryRange

/-! ### Whiskers -/

namespace Whisker

/-- `Whisker::DNA`. -/
def dna (w : Whisker) : RemyBuffers.Whisker where
  windowIncrement := some w.windowIncrement
  windowMultiple := some w.windowMultiple
  intersend := some w.intersend
  domain := some w.domain.dna

/-- The constructor from a message. -/
def ofDNA (dna : RemyBuffers.Whisker) : Whisker where
  generation := 0
  windowIncrement := dna.windowIncrement.getD 0
  windowMultiple := dna.windowMultiple.getD 0
  intersend := dna.intersend.getD 0
  domain := .ofDNA (dna.domain.getD {})

/-- What is saved of a rule: how windows and intersend times are computed, and the bounds of
the domain. -/
def rule (w : Whisker) : (Int32 × DataType × DataType) × Bounds :=
  ((w.windowIncrement, w.windowMultiple, w.intersend), w.domain.bounds)

@[simp] theorem rule_ofDNA_dna (w : Whisker) : (ofDNA w.dna).rule = w.rule :=
  Prod.ext rfl (MemoryRange.bounds_ofDNA_dna w.domain)

end Whisker

/-! ### Trees -/

namespace WhiskerTree

open RegionTree

/-- `WhiskerTree::DNA`. -/
def dna : WhiskerTree → RemyBuffers.WhiskerTree :=
  fold (fun domain leaf => .mk (some domain.dna) [] (some leaf.dna))
    fun domain children => .mk (some domain.dna) children none

@[simp] theorem dna_leaf (d : MemoryRange) (w : Whisker) :
    dna (.leaf d w) = .mk (some d.dna) [] (some w.dna) := rfl

@[simp] theorem dna_node (d : MemoryRange) (cs : List WhiskerTree) :
    dna (.node d cs) = .mk (some d.dna) (cs.map dna) none := by
  rw [dna, fold_node]

mutual

/-- The constructor from a message. -/
def ofDNA : RemyBuffers.WhiskerTree → Except Stop WhiskerTree
  | .mk domain children (some w) =>
    if children.length = 0 then .ok (.leaf (.ofDNA (domain.getD {})) (.ofDNA w))
    else .error .assertFailed
  | .mk domain children none =>
    if 0 < children.length then do
      return .node (.ofDNA (domain.getD {})) (← ofDNAs children)
    else .error .assertFailed

/-- The trees from a list of messages. -/
def ofDNAs : List RemyBuffers.WhiskerTree → Except Stop (List WhiskerTree)
  | [] => .ok []
  | x :: xs => do return (← ofDNA x) :: (← ofDNAs xs)

end

/-- Each result of a list comes from a member of the list. -/
theorem exists_of_forall₂ {α β : Type*} {R : α → β → Prop} {l : List α} {l' : List β}
    (h : List.Forall₂ R l l') : ∀ b ∈ l', ∃ a ∈ l, R a b := by
  induction h with
  | nil => intro b hb; cases hb
  | @cons a b l l' hab _ ih =>
    rw [List.forall_mem_cons]
    refine ⟨⟨a, List.mem_cons_self, hab⟩, fun b' hb' => ?_⟩
    obtain ⟨a', ha', h'⟩ := ih b' hb'
    exact ⟨a', List.mem_cons_of_mem _ ha', h'⟩

theorem ofDNAs_eq_ok {xs : List RemyBuffers.WhiskerTree} : ∀ {ts : List WhiskerTree},
    ofDNAs xs = .ok ts ↔ List.Forall₂ (fun x t => ofDNA x = .ok t) xs ts := by
  induction xs with
  | nil =>
    intro ts
    rw [ofDNAs, Except.ok.injEq, List.forall₂_nil_left_iff, eq_comm]
  | cons x xs ih =>
    intro ts
    rw [ofDNAs, bind_eq_ok, List.forall₂_cons_left_iff]
    constructor
    · rintro ⟨t, ht, h⟩
      obtain ⟨us, hus, h⟩ := bind_eq_ok.mp h
      exact ⟨t, us, ht, ih.mp hus, (Except.ok.inj h).symm⟩
    · rintro ⟨t, us, ht, hus, rfl⟩
      exact ⟨t, ht, bind_eq_ok.mpr ⟨us, ih.mpr hus, rfl⟩⟩

/-- **What loading makes of a message**: a leaf of a message with a leaf and no children, a node
of one with children and no leaf. -/
theorem ofDNA_eq_ok {domain : Option RemyBuffers.MemoryRange}
    {children : List RemyBuffers.WhiskerTree} {leaf : Option RemyBuffers.Whisker}
    {t : WhiskerTree} :
    ofDNA (.mk domain children leaf) = .ok t ↔
      (∃ w, leaf = some w ∧ children = [] ∧ t = .leaf (.ofDNA (domain.getD {})) (.ofDNA w)) ∨
      (leaf = none ∧ children ≠ [] ∧ ∃ cs, t = .node (.ofDNA (domain.getD {})) cs ∧
        List.Forall₂ (fun x c => ofDNA x = .ok c) children cs) := by
  cases leaf with
  | some w =>
    rw [ofDNA]
    by_cases hc : children = []
    · simp [hc, eq_comm]
    · simp [hc]
  | none =>
    rw [ofDNA]
    by_cases hc : children = []
    · simp [hc]
    · have hpos : 0 < children.length := List.length_pos_iff.mpr hc
      rw [if_pos hpos, bind_eq_ok]
      simp only [ofDNAs_eq_ok]
      constructor
      · rintro ⟨cs, hcs, ht⟩
        exact Or.inr ⟨trivial, hc, cs, (Except.ok.inj ht).symm, hcs⟩
      · rintro (⟨w, hw, -⟩ | ⟨-, -, cs, rfl, hcs⟩)
        · cases hw
        · exact ⟨cs, hcs, rfl⟩

/-- Every interior node has a child. -/
def Populated (t : WhiskerTree) : Prop := ∀ d cs, Subtree (.node d cs) t → cs ≠ []

theorem Populated.child {d : MemoryRange} {cs : List WhiskerTree} (h : Populated (.node d cs))
    {c : WhiskerTree} (hc : c ∈ cs) : Populated c :=
  fun e bs hsub => h e bs (.child hc hsub)

theorem populated_leaf (d : MemoryRange) (w : Whisker) : Populated (.leaf d w) := by
  intro e cs h
  cases h

theorem populated_node {d : MemoryRange} {cs : List WhiskerTree} :
    Populated (.node d cs) ↔ cs ≠ [] ∧ ∀ c ∈ cs, Populated c := by
  constructor
  · intro h
    exact ⟨h d cs (.refl _), fun c hc => h.child hc⟩
  · rintro ⟨hne, hchildren⟩ e bs h
    cases h with
    | refl => exact hne
    | child hc hsub => exact hchildren _ hc e bs hsub

/-- What is saved of a tree: its shape, the bounds of all domains and the rules. -/
def table (t : WhiskerTree) : RegionTree Bounds ((Int32 × DataType × DataType) × Bounds) :=
  t.map MemoryRange.bounds Whisker.rule

/-- **What loading makes of a tree that was saved**: each range and each whisker is replaced by
what loading makes of its own message. -/
theorem ofDNA_dna {t : WhiskerTree} (h : t.Populated) :
    ofDNA t.dna = .ok (t.map (fun d => .ofDNA d.dna) fun w => .ofDNA w.dna) := by
  induction t using RegionTree.induct with
  | leaf d w => rfl
  | node d cs ih =>
    have hcs : cs ≠ [] := h d cs (.refl _)
    rw [dna_node, map_node, ofDNA_eq_ok]
    refine Or.inr ⟨rfl, by simpa using hcs, _, rfl, ?_⟩
    rw [List.forall₂_map_left_iff, List.forall₂_map_right_iff, List.forall₂_same]
    exact fun c hc => ih c hc (h.child hc)

/-- A map that keeps what is saved of ranges and whiskers keeps what is saved of a tree. -/
theorem dna_map {f : MemoryRange → MemoryRange} {g : Whisker → Whisker}
    (hf : ∀ d, (f d).dna = d.dna) (hg : ∀ w, (g w).dna = w.dna) (t : WhiskerTree) :
    dna (t.map f g) = dna t := by
  induction t using RegionTree.induct with
  | leaf d w => rw [map_leaf, dna_leaf, dna_leaf, hf, hg]
  | node d cs ih =>
    rw [map_node, dna_node, dna_node, hf, List.map_map]
    exact congrArg (RemyBuffers.WhiskerTree.mk _ · none) (List.map_congr_left ih)

/-- Loading again what was loaded and saved gives the same tree. -/
theorem ofDNA_dna_of_ofDNA {dna : RemyBuffers.WhiskerTree} :
    ∀ {t : WhiskerTree}, ofDNA dna = .ok t → ofDNA t.dna = .ok t := by
  induction dna with
  | mk domain children leaf ih =>
    intro t h
    rcases ofDNA_eq_ok.mp h with ⟨w, rfl, rfl, rfl⟩ | ⟨rfl, hne, cs, rfl, hcs⟩
    · exact ofDNA_eq_ok.mpr (Or.inl ⟨_, rfl, rfl, rfl⟩)
    · rw [dna_node, ofDNA_eq_ok]
      refine Or.inr ⟨rfl, ?_, cs, rfl, ?_⟩
      · have hlen : children.length = cs.length := hcs.length_eq
        intro hnil
        rw [List.map_eq_nil_iff.mp hnil, List.length_nil] at hlen
        exact hne (List.length_eq_zero_iff.mp hlen)
      · -- each child was loaded from a child of the message
        rw [List.forall₂_map_left_iff, List.forall₂_same]
        intro c hc
        obtain ⟨x, hx, hxc⟩ := exists_of_forall₂ hcs c hc
        exact ih x hx hxc

/-- **Saving and loading keeps the table.**  A tree all of whose interior nodes have a child is
loaded, from the message that was saved, with the same shape, the same bounds at every node and
the same rules, new counts and generations; each memory is mapped to the same rule, and what is
saved again is the same message.  A tree that was loaded from any message is loaded as it is from
what is saved of it. -/
theorem dna_round_trip :
    (∀ t : WhiskerTree, t.Populated → ∃ t', ofDNA t.dna = .ok t' ∧ t'.table = t.table ∧
      (∀ p ∈ t'.leaves, p.2.generation = 0 ∧ p.2.count = 0) ∧
      (∀ m, (t'.whisker m).map (Option.map Whisker.rule)
        = (t.whisker m).map (Option.map Whisker.rule)) ∧
      t'.dna = t.dna) ∧
    ∀ dna t, ofDNA dna = .ok t → ofDNA t.dna = .ok t := by
  refine ⟨fun t ht => ⟨_, ofDNA_dna ht, ?_, ?_, fun m => ?_, ?_⟩, fun _ _ => ofDNA_dna_of_ofDNA⟩
  · rw [table, table, map_map]
    exact map_congr (fun d _ => MemoryRange.bounds_ofDNA_dna d)
      fun p _ => Whisker.rule_ofDNA_dna p.2
  · intro p hp
    rw [leaves_map] at hp
    obtain ⟨q, -, rfl⟩ := List.mem_map.mp hp
    exact ⟨rfl, rfl⟩
  · rw [whisker, lookup_map _ _ fun d _ => MemoryRange.contains_ofDNA_dna d m, whisker]
    rcases t.lookup Stop.assertFailed m with why | _ | w
    · rfl
    · rfl
    · simp [Except.map]
  · exact dna_map (f := fun d => .ofDNA d.dna) (g := fun w => .ofDNA w.dna) (fun _ => rfl)
      (fun _ => rfl) t

theorem populated_halved : halved.Populated := by
  rw [halved, populated_node]
  refine ⟨List.cons_ne_nil _ _, fun c hc => ?_⟩
  rcases List.mem_pair.mp hc with rfl | rfl <;> exact populated_leaf _ _

/-- The table in two leaves, and a message for two rules: one that adds seven packets below the
middle of the first axis, and one with nothing set. -/
theorem dna_round_trip_of_halved :
    (∃ t', ofDNA halved.dna = .ok t' ∧ t'.table = halved.table) ∧
    ∃ t, ofDNA (.mk none [.mk none [] (some {
        windowIncrement := some 7
        domain := some { upper := some { recSendEwma := some 81920 } } }),
      .mk none [] (some {})] none) = .ok t ∧ ofDNA t.dna = .ok t := by
  let seven : RemyBuffers.Whisker := {
    windowIncrement := some 7
    domain := some { upper := some { recSendEwma := some 81920 } } }
  have hload : ∀ w, ofDNA (.mk none [] (some w)) = .ok (.leaf (.ofDNA {}) (.ofDNA w)) :=
    fun w => ofDNA_eq_ok.mpr (Or.inl ⟨w, rfl, rfl, rfl⟩)
  have hnode : ofDNA (.mk none [.mk none [] (some seven), .mk none [] (some {})] none)
      = .ok (.node (.ofDNA {}) [.leaf (.ofDNA {}) (.ofDNA seven), .leaf (.ofDNA {}) (.ofDNA {})]) :=
    ofDNA_eq_ok.mpr (Or.inr ⟨rfl, List.cons_ne_nil _ _, _, rfl,
      .cons (hload _) (.cons (hload _) .nil)⟩)
  obtain ⟨t', ht', htable, -⟩ := dna_round_trip.1 _ populated_halved
  exact ⟨⟨t', ht', htable⟩, _, hnode, dna_round_trip.2 _ _ hnode⟩

end WhiskerTree

end SendReceive
