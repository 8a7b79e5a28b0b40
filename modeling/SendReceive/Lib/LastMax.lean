import Mathlib.Data.List.Flatten
import Mathlib.Order.Lattice

/-!
# The last maximum of a list

Among the members of a list that have a property, the last one whose value is the
greatest.  A program that searches a structure for it keeps the best member so far
and gives it up for one that is at least as good; what it finds in the parts of the
list is combined in the same way.

## Main definitions

* `IsLastMax P f l r` — `r` is the last of the greatest members of `l` with `P`.
* `later f r s` — of the results for two parts, the one for the whole.

## Main results

* `IsLastMax.append` — the results for two parts combine.
* `IsLastMax.flatten` — **so do those for any number of parts**.
* `IsLastMax.eq_some_iff` — there is only one such result.
-/

namespace LastMax

variable {α α' β : Type*} [LinearOrder β]

/-- `r` is the last of the members of `l` with `P` whose value under `f` is the greatest, or nothing
when there are none with `P`. -/
def IsLastMax (P : α → Prop) (f : α → β) (l : List α) : Option α → Prop
  | none => ∀ a ∈ l, ¬ P a
  | some a => P a ∧ ∃ before after, l = before ++ a :: after ∧
      (∀ b ∈ before, P b → f b ≤ f a) ∧ ∀ b ∈ after, P b → f b < f a

/-- The better of two results, the second one when they are equally good. -/
def later (f : α → β) : Option α → Option α → Option α
  | r, none => r
  | none, some b => some b
  | some a, some b => if f a ≤ f b then some b else some a

variable {P : α → Prop} {f : α → β} {l l' : List α}

theorem IsLastMax.nil (P : α → Prop) (f : α → β) : IsLastMax P f [] none :=
  fun _ h => absurd h List.not_mem_nil

/-- What a result says of the members. -/
theorem IsLastMax.le {a b : α} (h : IsLastMax P f l (some a)) (hb : b ∈ l) (hP : P b) :
    f b ≤ f a := by
  obtain ⟨-, before, after, rfl, hbefore, hafter⟩ := h
  rcases List.mem_append.mp hb with hmem | hmem
  · exact hbefore b hmem hP
  · rcases List.mem_cons.mp hmem with rfl | hmem
    · exact le_rfl
    · exact (hafter b hmem hP).le

theorem IsLastMax.mem {a : α} (h : IsLastMax P f l (some a)) : a ∈ l := by
  obtain ⟨-, before, after, rfl, -⟩ := h
  simp

/-- **The results for two parts combine.** -/
theorem IsLastMax.append {r s : Option α} (hr : IsLastMax P f l r) (hs : IsLastMax P f l' s) :
    IsLastMax P f (l ++ l') (later f r s) := by
  cases s with
  | none =>
    cases r with
    | none =>
      intro a ha
      exact (List.mem_append.mp ha).elim (hr a) (hs a)
    | some a =>
      obtain ⟨hP, before, after, rfl, hbefore, hafter⟩ := hr
      refine ⟨hP, before, after ++ l', List.append_assoc _ _ _, hbefore, fun b hb hPb => ?_⟩
      exact (List.mem_append.mp hb).elim (hafter b · hPb) fun hmem => absurd hPb (hs b hmem)
  | some b =>
    have hmax := hs
    obtain ⟨hP, before, after, rfl, hbefore, hafter⟩ := hs
    cases r with
    | none =>
      refine ⟨hP, l ++ before, after, (List.append_assoc _ _ _).symm, fun c hc hPc => ?_, hafter⟩
      exact (List.mem_append.mp hc).elim (fun hmem => absurd hPc (hr c hmem)) (hbefore c · hPc)
    | some a =>
      unfold later
      dsimp only
      by_cases hle : f a ≤ f b
      · -- the second result is at least as good
        rw [if_pos hle]
        refine ⟨hP, l ++ before, after, (List.append_assoc _ _ _).symm, fun c hc hPc => ?_, hafter⟩
        exact (List.mem_append.mp hc).elim (fun hmem => (hr.le hmem hPc).trans hle)
          (hbefore c · hPc)
      · rw [if_neg hle]
        obtain ⟨hPa, first, last, rfl, hfirst, hlast⟩ := hr
        refine ⟨hPa, first, last ++ (before ++ b :: after), List.append_assoc _ _ _, hfirst,
          fun c hc hPc => ?_⟩
        exact (List.mem_append.mp hc).elim (hlast c · hPc)
          fun hmem => (hmax.le hmem hPc).trans_lt (not_le.mp hle)

/-- The result for the image of a list. -/
theorem IsLastMax.map {P' : α' → Prop} {f' : α' → β} {g : α → α'} (hP : ∀ a, P' (g a) ↔ P a)
    (hf : ∀ a, f' (g a) = f a) {r : Option α} (h : IsLastMax P f l r) :
    IsLastMax P' f' (l.map g) (r.map g) := by
  cases r with
  | none =>
    intro a' ha'
    obtain ⟨a, ha, rfl⟩ := List.mem_map.mp ha'
    exact fun hPa => h a ha ((hP a).mp hPa)
  | some a =>
    obtain ⟨hPa, before, after, rfl, hbefore, hafter⟩ := h
    refine ⟨(hP a).mpr hPa, before.map g, after.map g, by simp, ?_, ?_⟩
    · rintro b' hb' hPb
      obtain ⟨b, hb, rfl⟩ := List.mem_map.mp hb'
      rw [hf, hf]
      exact hbefore b hb ((hP b).mp hPb)
    · rintro b' hb' hPb
      obtain ⟨b, hb, rfl⟩ := List.mem_map.mp hb'
      rw [hf, hf]
      exact hafter b hb ((hP b).mp hPb)

/-- **The results for any number of parts combine**, from the first to the last. -/
theorem IsLastMax.flatten {γ : Type*} {part : γ → List α} {result : γ → Option α} {cs : List γ}
    (h : ∀ c ∈ cs, IsLastMax P f (part c) (result c)) {l : List α} {r : Option α}
    (hr : IsLastMax P f l r) :
    IsLastMax P f (l ++ cs.flatMap part) ((cs.map result).foldl (later f) r) := by
  induction cs generalizing l r with
  | nil => simpa using hr
  | cons c cs ih =>
    obtain ⟨hc, hcs⟩ := List.forall_mem_cons.mp h
    rw [List.flatMap_cons, ← List.append_assoc, List.map_cons, List.foldl_cons]
    exact ih hcs (hr.append hc)

/-- There is a result only when a member has the property. -/
theorem IsLastMax.eq_none_iff {r : Option α} (h : IsLastMax P f l r) :
    r = none ↔ ∀ a ∈ l, ¬ P a := by
  cases r with
  | none => exact iff_of_true rfl h
  | some a => exact iff_of_false (by simp) fun hnone => hnone a h.mem h.1

/-- **There is only one result.** -/
theorem IsLastMax.eq_some_iff {r : Option α} (h : IsLastMax P f l r) {a : α} :
    r = some a ↔ IsLastMax P f l (some a) := by
  constructor
  · rintro rfl
    exact h
  · intro ha
    cases r with
    | none => exact absurd ha.1 (h a ha.mem)
    | some b =>
      have hle : f a = f b := le_antisymm (h.le ha.mem ha.1) (ha.le h.mem h.1)
      obtain ⟨hPb, first, last, hsplit, -, hlast⟩ := h
      obtain ⟨hPa, before, after, rfl, -, hafter⟩ := ha
      -- of two members that are equally good and in different places one comes after the other
      rcases List.append_eq_append_iff.mp hsplit with ⟨mid, rfl, hmid⟩ | ⟨mid, rfl, hmid⟩
      · cases mid with
        | nil => exact congrArg some (List.cons.inj hmid).1.symm
        | cons c mid =>
          obtain ⟨rfl, rfl⟩ := List.cons.inj hmid
          exact absurd hle.symm (hafter b (by simp) hPb).ne
      · cases mid with
        | nil => exact congrArg some (List.cons.inj hmid).1
        | cons c mid =>
          obtain ⟨rfl, rfl⟩ := List.cons.inj hmid
          exact absurd hle (hlast a (by simp) hPa).ne

end LastMax
