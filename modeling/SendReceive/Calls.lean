import SendReceive.RetiredActions

/-!
# Which actions are called

A call of `Poller::poll` goes through the actions in the order in which they were added.  The loop
ends at the first descriptor with an error, and at the first callback that ends the program or
asks it to exit; what it comes to before that is called once each, for an event that came and was
asked for.  What was asked for was settled before the loop, by the callbacks that asked to be
cancelled in earlier calls and by what the program was interested in when the poller was called.

## Main definitions

* `Poller.CancelledBy` — a callback that was called asked to be cancelled.
* `PollerRun.Comes`, `PollerRun.Due` — the loop comes to an action, and calls it then.

## Main results

* `Poller.mem_positions_dispatchRound` — which callbacks a loop calls.
* `PollerRun.inactive_iff` — an action is not active when its callback has asked to be cancelled.
* `PollerRun.calls_exact` — **which actions are called**, in whole runs of a program.
-/

namespace SendReceive

namespace Poller

variable {σ : Type}

/-! ### The calls of one loop -/

/-- The positions of the callbacks that a round calls. -/
def Round.positions (x : Round σ) : List ℕ := x.1.map Call.position

@[simp] theorem positions_after (cs : List Call) (a : Action σ) (x : Round σ) :
    (x.after cs a).positions = cs.map Call.position ++ x.positions := by
  simp [Round.after, Round.positions]

/-- The callbacks are called in the order of the actions, and once each. -/
theorem pairwise_dispatchRound (polled : List (Action σ × UInt16)) : ∀ (i : ℕ)
    (revents : List UInt16) (s : σ),
    (∀ j ∈ (dispatchRound i polled revents s).positions, i ≤ j) ∧
      (dispatchRound i polled revents s).positions.Pairwise (· < ·) := by
  induction polled with
  | nil => intro i revents s; simp [dispatchRound, Round.positions]
  | cons entry rest ih =>
    obtain ⟨a, events⟩ := entry
    intro i revents s
    have hcall : ∀ s', (∀ j ∈ i :: (dispatchRound (i + 1) rest revents.tail s').positions, i ≤ j) ∧
        (i :: (dispatchRound (i + 1) rest revents.tail s').positions).Pairwise (· < ·) := by
      intro s'
      obtain ⟨hle, hpairwise⟩ := ih (i + 1) revents.tail s'
      refine ⟨?_, List.pairwise_cons.mpr ⟨hle, hpairwise⟩⟩
      exact List.forall_mem_cons.mpr ⟨le_refl i, fun j hj => (Nat.le_succ i).trans (hle j hj)⟩
    have hturn := dispatchRound_turn i a events rest revents s
    generalize dispatchRound i ((a, events) :: rest) revents s = x at hturn
    cases hturn with
    | error herror | dies hevent hcallback | exits hevent hcallback hexit => simp [Round.positions]
    | cancels hevent hcallback hresult | continues hevent hcallback hresult =>
      rw [positions_after]
      exact hcall _
    | skips =>
      rw [positions_after]
      obtain ⟨hle, hpairwise⟩ := List.pairwise_cons.mp (hcall s).2
      exact ⟨fun j hj => (hle j hj).le, hpairwise⟩

/-- The rest of the loop does not call the callback at the position before. -/
theorem not_mem_positions_dispatchRound (polled : List (Action σ × UInt16)) (i : ℕ)
    (revents : List UInt16) (s : σ) : i ∉ (dispatchRound (i + 1) polled revents s).positions :=
  fun h => Nat.not_succ_le_self i ((pairwise_dispatchRound polled (i + 1) revents s).1 i h)

section Passes

variable {a : Action σ} {events : UInt16} {rest : List (Action σ × UInt16)} {revents : List UInt16}
  {s : σ}

theorem passes_error (herror : reportsError (revents.headD 0)) :
    passes ((a, events) :: rest) revents s = false := by
  rw [passes, if_pos herror]

theorem passes_skip (herror : ¬ reportsError (revents.headD 0))
    (hevent : revents.headD 0 &&& events = 0) :
    passes ((a, events) :: rest) revents s = passes rest revents.tail s := by
  rw [passes, if_neg herror, if_neg (not_not.mpr hevent)]

theorem passes_call (herror : ¬ reportsError (revents.headD 0))
    (hevent : revents.headD 0 &&& events ≠ 0) :
    passes ((a, events) :: rest) revents s =
      match a.callback s with
      | .error _ => false
      | .ok (result, s) => result.result ≠ .exit && passes rest revents.tail s := by
  rw [passes, if_neg herror]
  refine (if_pos hevent).trans ?_
  cases a.callback s <;> rfl

end Passes

/-- An entry further on in a list. -/
theorem headD_eq_getD (revents : List UInt16) : revents.headD 0 = revents.getD 0 0 := by
  cases revents <;> rfl

theorem getD_tail (revents : List UInt16) (j : ℕ) :
    revents.tail.getD j 0 = revents.getD (j + 1) 0 := by
  cases revents <;> simp

/-- The callback of an entry that the loop calls is called. -/
theorem mem_positions_of_call {i : ℕ} {a : Action σ} {events : UInt16}
    {rest : List (Action σ × UInt16)} {revents : List UInt16} {s : σ}
    (herror : ¬ reportsError (revents.headD 0)) (hevent : revents.headD 0 &&& events ≠ 0) :
    i ∈ (dispatchRound i ((a, events) :: rest) revents s).positions := by
  rw [dispatchRound_call revents herror hevent]
  cases a.callback s with
  | error why => simp [Round.positions]
  | ok r =>
    obtain ⟨⟨result, status⟩, s'⟩ := r
    cases result <;> simp [Round.positions, Round.after]

/-- **Which callbacks a loop calls**: those of the entries that it comes to, on which no error is
reported and an event came that was asked for. -/
theorem mem_positions_dispatchRound (polled : List (Action σ × UInt16)) : ∀ (i j : ℕ)
    (revents : List UInt16) (s : σ), i + j ∈ (dispatchRound i polled revents s).positions ↔
      passes (polled.take j) revents s ∧ ¬ reportsError (revents.getD j 0) ∧
        ∃ entry, polled[j]? = some entry ∧ revents.getD j 0 &&& entry.2 ≠ 0 := by
  induction polled with
  | nil =>
    intro i j revents s
    simp [dispatchRound, Round.positions]
  | cons entry rest ih =>
    obtain ⟨a, events⟩ := entry
    intro i j revents s
    cases j with
    | zero =>
      -- the entry itself: the rest of the loop does not call it
      rw [← headD_eq_getD, List.take_zero, Nat.add_zero]
      by_cases herror : reportsError (revents.headD 0)
      · rw [dispatchRound_error revents herror]
        simp only [Round.positions, List.map_nil, List.not_mem_nil, false_iff]
        exact fun h => h.2.1 herror
      · by_cases hevent : revents.headD 0 &&& events = 0
        · rw [dispatchRound_skip revents herror hevent, positions_after]
          refine iff_of_false (not_mem_positions_dispatchRound rest i _ s) ?_
          rintro ⟨-, -, entry, hentry, hne⟩
          obtain rfl := Option.some.inj hentry
          exact hne hevent
        · exact iff_of_true (mem_positions_of_call herror hevent) ⟨rfl, herror, _, rfl, hevent⟩
    | succ j =>
      have hrest : ∀ {s' : σ} {cs : List Call} {a' : Action σ}, (∀ c ∈ cs, c.position = i) →
          (i + (j + 1) ∈ ((dispatchRound (i + 1) rest revents.tail s').after cs a').positions ↔
            passes (rest.take j) revents.tail s' ∧ ¬ reportsError (revents.getD (j + 1) 0) ∧
              ∃ entry, rest[j]? = some entry ∧ revents.getD (j + 1) 0 &&& entry.2 ≠ 0) := by
        intro s' cs a' hcs
        have hpos : i + (j + 1) ∉ cs.map Call.position := by
          intro h
          obtain ⟨c, hc, hci⟩ := List.mem_map.mp h
          have heq := hcs c hc
          omega
        rw [positions_after, List.mem_append, or_iff_right hpos, Nat.add_comm j 1, ← Nat.add_assoc,
          ih, getD_tail, Nat.add_comm 1 j]
      have hone : ∀ {r : Option ActionResult}, ∀ c ∈ [Call.mk i r], c.position = i := by
        intro r c hc
        rw [List.mem_singleton.mp hc]
      have hnot : ∀ {r : Option ActionResult}, i + (j + 1) ∉ [Call.mk i r].map Call.position := by
        intro r
        simp
      rw [List.take_succ_cons, List.getElem?_cons_succ]
      by_cases herror : reportsError (revents.headD 0)
      · rw [dispatchRound_error revents herror, passes_error herror]
        simp [Round.positions]
      · by_cases hevent : revents.headD 0 &&& events = 0
        · rw [dispatchRound_skip revents herror hevent, passes_skip herror hevent]
          exact hrest fun c hc => by cases hc
        · rw [dispatchRound_call revents herror hevent, passes_call herror hevent]
          cases hcall : a.callback s with
          | error why =>
            refine iff_of_false hnot ?_
            rintro ⟨hpasses, -⟩
            cases hpasses
          | ok r =>
            obtain ⟨⟨result, status⟩, s'⟩ := r
            cases result with
            | exit =>
              refine iff_of_false hnot ?_
              rintro ⟨hpasses, -⟩
              cases hpasses
            | cancel | continue_ => exact hrest hone

/-- The loop comes to its end when it comes past all entries. -/
theorem dispatchRound_success_iff (polled : List (Action σ × UInt16)) : ∀ {i : ℕ}
    {revents : List UInt16} {s : σ},
    (∃ as s', (dispatchRound i polled revents s).2 = .ok ({ result := .success }, as, s')) ↔
      passes polled revents s := by
  induction polled with
  | nil =>
    intro i revents s
    exact iff_of_true ⟨_, _, rfl⟩ rfl
  | cons entry rest ih =>
    obtain ⟨a, events⟩ := entry
    intro i revents s
    have hrest : ∀ {s' : σ} {cs : List Call} {a' : Action σ},
        (∃ as s'', ((dispatchRound (i + 1) rest revents.tail s').after cs a').2
          = .ok ({ result := .success }, as, s'')) ↔ passes rest revents.tail s' := by
      intro s' cs a'
      rw [← ih (i := i + 1)]
      constructor
      · rintro ⟨as, s'', h⟩
        obtain ⟨as', h, -⟩ := Round.after_eq_ok h
        exact ⟨as', s'', h⟩
      · rintro ⟨as, s'', h⟩
        exact ⟨a' :: as, s'', by rw [Round.after, h]; rfl⟩
    by_cases herror : reportsError (revents.headD 0)
    · rw [dispatchRound_error revents herror, passes_error herror]
      refine iff_of_false ?_ Bool.false_ne_true
      rintro ⟨as, s', h⟩
      cases h
    · by_cases hevent : revents.headD 0 &&& events = 0
      · rw [dispatchRound_skip revents herror hevent, passes_skip herror hevent]
        exact hrest
      · rw [dispatchRound_call revents herror hevent, passes_call herror hevent]
        cases hcall : a.callback s with
        | error why =>
          refine iff_of_false ?_ Bool.false_ne_true
          rintro ⟨as, s', h⟩
          cases h
        | ok r =>
          obtain ⟨⟨result, status⟩, s'⟩ := r
          cases result with
          | exit =>
            refine iff_of_false ?_ Bool.false_ne_true
            rintro ⟨as, s', h⟩
            cases h
          | cancel | continue_ => exact hrest

/-- A loop that comes to its end comes to all entries. -/
theorem passes_take (polled : List (Action σ × UInt16)) : ∀ {revents : List UInt16} {s : σ} (i : ℕ),
    passes polled revents s → passes (polled.take i) revents s := by
  induction polled with
  | nil =>
    intro revents s i h
    rw [List.take_nil]
    exact h
  | cons entry rest ih =>
    obtain ⟨a, events⟩ := entry
    intro revents s i h
    cases i with
    | zero => rfl
    | succ i =>
      rw [List.take_succ_cons]
      by_cases herror : reportsError (revents.headD 0)
      · rw [passes_error herror] at h
        cases h
      · by_cases hevent : revents.headD 0 &&& events = 0
        · rw [passes_skip herror hevent] at h ⊢
          exact ih i h
        · rw [passes_call herror hevent] at h ⊢
          cases hcall : a.callback s with
          | error why =>
            rw [hcall] at h
            cases h
          | ok r =>
            obtain ⟨result, s'⟩ := r
            rw [hcall] at h
            simp only [Bool.and_eq_true] at h ⊢
            exact ⟨h.1, ih i h.2⟩

/-! ### The actions that were cancelled -/

/-- One of the calls is of the action at the position `i`, and it asked to be cancelled. -/
def CancelledBy (cs : List Call) (i : ℕ) : Prop :=
  ∃ c ∈ cs, c.position = i ∧ ∃ r ∈ c.returned, r.result = .cancel

/-- **What is not active after a loop** was not before, or was cancelled in it. -/
theorem inactive_of_dispatchRound (polled : List (Action σ × UInt16)) : ∀ {i : ℕ}
    {revents : List UInt16} {s s' : σ} {result : Result} {as : List (Action σ)},
    (dispatchRound i polled revents s).2 = .ok (result, as, s') → ∀ {j : ℕ} {a' : Action σ},
    as[j]? = some a' → a'.active = false →
      (∃ entry, polled[j]? = some entry ∧ entry.1.active = false) ∨
        CancelledBy (dispatchRound i polled revents s).1 (i + j) := by
  induction polled with
  | nil =>
    intro i revents s s' result as h j a' ha'
    obtain ⟨-, rfl, -⟩ : _ ∧ [] = as ∧ _ := by simpa [dispatchRound] using h
    cases ha'
  | cons entry rest ih =>
    obtain ⟨a, events⟩ := entry
    intro i revents s s' result as h j a' ha' hinactive
    -- the loop ended here: the entries are as before
    have hsame : as = a :: rest.map Prod.fst →
        ∃ entry, ((a, events) :: rest)[j]? = some entry ∧ entry.1.active = false := by
      rintro rfl
      cases j with
      | zero => exact ⟨(a, events), rfl, Option.some.inj ha' ▸ hinactive⟩
      | succ j =>
        rw [List.getElem?_cons_succ, List.getElem?_map, Option.map_eq_some_iff] at ha'
        obtain ⟨entry, hentry, rfl⟩ := ha'
        exact ⟨entry, hentry, hinactive⟩
    -- it goes on, after this entry became `b`
    have hrest : ∀ {s₀ : σ} {b : Action σ} {cs : List Call},
        ((dispatchRound (i + 1) rest revents.tail s₀).after cs b).2 = .ok (result, as, s') →
        (b.active = false → a.active = false ∨ CancelledBy cs i) →
          (∃ entry, ((a, events) :: rest)[j]? = some entry ∧ entry.1.active = false) ∨
            CancelledBy ((dispatchRound (i + 1) rest revents.tail s₀).after cs b).1 (i + j) := by
      intro s₀ b cs hafter hb
      obtain ⟨as', hloop, rfl⟩ := Round.after_eq_ok hafter
      cases j with
      | zero =>
        obtain rfl := Option.some.inj ha'
        rcases hb hinactive with ha | ⟨c, hc, hcancelled⟩
        · exact Or.inl ⟨(a, events), rfl, ha⟩
        · exact Or.inr ⟨c, List.mem_append_left _ hc, hcancelled⟩
      | succ j =>
        rcases ih hloop ha' hinactive with hentry | ⟨c, hc, hpos, hcancelled⟩
        · exact Or.inl hentry
        · exact Or.inr ⟨c, List.mem_append_right _ hc, by omega, hcancelled⟩
    have hturn := dispatchRound_turn i a events rest revents s
    generalize dispatchRound i ((a, events) :: rest) revents s = x at h hturn
    cases hturn with
    | error herror =>
      obtain ⟨-, hactions, -⟩ : _ ∧ a :: rest.map Prod.fst = as ∧ _ := by simpa using h
      exact Or.inl (hsame hactions.symm)
    | dies hevent hcall => cases h
    | exits hevent hcall hexit =>
      obtain ⟨-, hactions, -⟩ : _ ∧ a :: rest.map Prod.fst = as ∧ _ := by simpa using h
      exact Or.inl (hsame hactions.symm)
    | cancels hevent hcall hresult =>
      exact hrest h fun _ => Or.inr ⟨_, List.mem_singleton_self _, rfl, _, rfl, hresult⟩
    | continues hevent hcall hresult | skips => exact hrest h Or.inl

/-- What is not active after a round. -/
theorem inactive_of_round {actions actions' : List (Action σ)} {outcome : SysPoll} {s s' : σ}
    {result : Result} (h : (round actions outcome s).2 = .ok (result, actions', s')) {i : ℕ}
    {a' : Action σ} (ha' : actions'[i]? = some a') (hinactive : a'.active = false) :
    (∃ a, actions[i]? = some a ∧ a.active = false) ∨ CancelledBy (round actions outcome s).1 i := by
  rcases round_cases actions outcome s with ⟨-, hactions⟩ | ⟨revents, hround⟩
  · obtain rfl : actions' = actions := hactions _ h
    exact Or.inl ⟨a', ha', hinactive⟩
  · rw [hround] at h ⊢
    rcases inactive_of_dispatchRound _ h ha' hinactive with ⟨entry, hentry, hactive⟩ | hcancelled
    · exact Or.inl ⟨entry.1, (getElem?_polled hentry).1, hactive⟩
    · exact Or.inr (Nat.zero_add i ▸ hcancelled)

/-- An event came that was asked for an action. -/
theorem requested_iff {a : Action σ} {s : σ} {revents : UInt16} :
    revents &&& requested s a ≠ 0 ↔ a.active ∧ ¬ (a.direction = .in_ ∧ a.eof s) ∧
      a.whenInterested s ∧ revents &&& a.direction.events ≠ 0 := by
  unfold requested
  by_cases heof : a.direction = .in_ ∧ a.eof s
  · simp [heof]
  · by_cases hasked : a.active ∧ a.whenInterested s
    · rw [if_neg heof, if_pos hasked]
      simp only [hasked, heof, not_false_eq_true, true_and]
    · rw [if_neg heof, if_neg hasked]
      refine iff_of_false (by simp) ?_
      rintro ⟨hactive, -, hinterested, -⟩
      exact hasked ⟨hactive, hinterested⟩

end Poller

/-! ### Whole runs -/

open Poller

namespace PollerRun

variable {σ : Type} {r₀ r : PollerRun σ} {es : List (Event σ)} {i : ℕ}

/-- What was cancelled before an event, or is in it. -/
theorem hasCancelled_snoc (hrun : Transition.exec step r₀ es = some r) {e : Event σ} :
    HasCancelled r₀ (es ++ [e]) i ↔ HasCancelled r₀ es i ∨ CancelledBy (r.calls e) i := by
  constructor
  · rintro ⟨before, e', after, m, c, result, hes, hbefore, hc, hpos, hreturned, hcancel⟩
    rcases List.eq_nil_or_concat after with rfl | ⟨after, last, rfl⟩
    · obtain ⟨rfl, he⟩ := List.append_inj' hes rfl
      obtain rfl := List.singleton_inj.mp he
      obtain rfl := Option.some.inj (hrun.symm.trans hbefore)
      exact Or.inr ⟨c, hc, hpos, result, hreturned, hcancel⟩
    · rw [List.concat_eq_append, ← List.cons_append, ← List.append_assoc] at hes
      obtain ⟨hes, -⟩ := List.append_inj' hes rfl
      exact Or.inl ⟨before, e', after, m, c, result, hes, hbefore, hc, hpos, hreturned, hcancel⟩
  · rintro (⟨before, e', after, m, c, result, rfl, h⟩ | ⟨c, hc, hpos, result, hreturned, hcancel⟩)
    · exact ⟨before, e', after ++ [e], m, c, result, by simp, h⟩
    · exact ⟨es, e, [], r, c, result, rfl, hrun, hc, hpos, hreturned, hcancel⟩

/-- **An action is not active when its callback has asked to be cancelled**, and only then. -/
theorem inactive_iff (hactive : ∀ a ∈ r₀.actions, a.active)
    (hrun : Transition.exec step r₀ es = some r) {a : Action σ} (ha : r.actions[i]? = some a) :
    a.active = false ↔ HasCancelled r₀ es i := by
  revert i a
  refine Transition.exec_induct (P := fun es r => ∀ {i : ℕ} {a : Action σ}, r.actions[i]? = some a →
    (a.active = false ↔ HasCancelled r₀ es i)) ?_ ?_ es r hrun
  · intro i a ha
    refine iff_of_false (by simp [hactive a (List.mem_of_getElem? ha)]) ?_
    rintro ⟨before, e, after, m, c, result, hes, -⟩
    simp at hes
  · intro es r e r' hexec ih hstep i a ha
    rw [hasCancelled_snoc hexec]
    have hnone : ¬ CancelledBy [] i := by
      rintro ⟨c, hc, -⟩
      cases hc
    cases step_effect hstep with
    | @add action hnew =>
      rw [show r.calls (.add action) = [] from rfl, or_iff_left hnone]
      by_cases hlt : i < r.actions.length
      · exact ih ((List.getElem?_append_left hlt).symm.trans ha)
      · -- the new action has not been called yet
        have ha' : a = action := by
          rw [List.getElem?_append_right (not_lt.mp hlt)] at ha
          exact List.mem_singleton.mp (List.mem_of_getElem? ha)
        refine iff_of_false (by simp [ha', hnew]) fun h => ?_
        obtain ⟨b, hb, -⟩ := h.retired hexec
        exact hlt (List.getElem?_eq_some_iff.mp hb).1
    | @work state heof =>
      rw [show r.calls (.work state) = [] from rfl, or_iff_left hnone]
      exact ih ha
    | poll hround heof =>
      obtain ⟨hkept, hcancels⟩ := kept_of_round hround
      constructor
      · intro hinactive
        rcases inactive_of_round hround ha hinactive with ⟨b, hb, hbefore⟩ | hcancelled
        · exact Or.inl ((ih hb).mp hbefore)
        · exact Or.inr hcancelled
      · rintro (hbefore | ⟨c, hc, rfl, result, hreturned, hcancel⟩)
        · obtain ⟨hlt', hget'⟩ := List.getElem?_eq_some_iff.mp ha
          have hlt : i < r.actions.length := hkept.length_eq ▸ hlt'
          have hb := (ih (List.getElem?_eq_getElem hlt)).mpr hbefore
          have hi : Kept r.actions[i] r'.actions[i] := hkept.get hlt hlt'
          rw [hget'] at hi
          rcases hi with hsame | hsame
          · rw [hsame]
            exact hb
          · rw [hsame]
        · obtain ⟨b, hb, hinactive⟩ := hcancels c hc result hreturned hcancel
          obtain rfl := Option.some.inj (hb.symm.trans ha)
          exact hinactive

/-- The loop comes to the action at the position `i`: before it no error is reported on
a descriptor, and no callback that is called ends the round or the program. -/
def Comes (r : PollerRun σ) (revents : List UInt16) (i : ℕ) : Prop :=
  passes ((polled r.actions r.state).take i) revents r.state

/-- After the events `es` the action at the position `i` has not asked to be cancelled, the program
is interested in it, its descriptor has not had the end of file when it waits for input, and what is
reported on the descriptor is no error but an event it waits for. -/
def Due (r₀ : PollerRun σ) (es : List (Event σ)) (r : PollerRun σ) (revents : List UInt16) (i : ℕ) :
    Prop :=
  ∃ a, r.actions[i]? = some a ∧ ¬ HasCancelled r₀ es i ∧ ¬ (a.direction = .in_ ∧ a.eof r.state) ∧
    a.whenInterested r.state ∧ ¬ reportsError (revents.getD i 0) ∧
    revents.getD i 0 &&& a.direction.events ≠ 0

/-- The actions that a call of the poller calls. -/
theorem mem_calls_iff (hactive : ∀ a ∈ r₀.actions, a.active)
    (hrun : Transition.exec step r₀ es = some r) (timeoutMs : Int32) (revents : List UInt16) :
    i ∈ (r.calls (.poll timeoutMs (.ready revents))).map Call.position ↔
      Comes r revents i ∧ Due r₀ es r revents i := by
  have hcalls : r.calls (.poll timeoutMs (.ready revents))
      = (Poller.round r.actions (.ready revents) r.state).1 := rfl
  rw [hcalls]
  by_cases hnone : (r.actions.map (requested r.state)).all (· == 0)
  · -- nothing was asked for, and nothing is called
    have hround : (Poller.round r.actions (.ready revents) r.state).1 = [] := by
      unfold Poller.round
      dsimp only
      rw [if_pos hnone]
    rw [hround]
    refine iff_of_false List.not_mem_nil ?_
    rintro ⟨-, a, ha, hcancelled, heof, hinterested, -, hevent⟩
    have hasked : a.active := by
      cases hflag : a.active with
      | true => rfl
      | false => exact absurd ((inactive_iff hactive hrun ha).mp hflag) hcancelled
    have hzero : requested r.state a = 0 := by
      simpa using List.all_eq_true.mp hnone _ (List.mem_map_of_mem (List.mem_of_getElem? ha))
    have hne := requested_iff.mpr ⟨hasked, heof, hinterested, hevent⟩
    rw [hzero] at hne
    exact hne UInt16.and_zero
  · have hpositions := mem_positions_dispatchRound (polled r.actions r.state) 0 i revents r.state
    rw [round_ready hnone]
    rw [Nat.zero_add] at hpositions
    refine hpositions.trans (and_congr_right fun _ => ?_)
    constructor
    · rintro ⟨herror, entry, hentry, hevent⟩
      obtain ⟨ha, hrequested⟩ := getElem?_polled hentry
      rw [hrequested] at hevent
      obtain ⟨hasked, heof, hinterested, hevent⟩ := requested_iff.mp hevent
      refine ⟨entry.1, ha, fun hcancelled => ?_, heof, hinterested, herror, hevent⟩
      have hflag := (inactive_iff hactive hrun ha).mpr hcancelled
      rw [hasked] at hflag
      cases hflag
    · rintro ⟨a, ha, hcancelled, heof, hinterested, herror, hevent⟩
      have hasked : a.active := by
        cases hflag : a.active with
        | true => rfl
        | false => exact absurd ((inactive_iff hactive hrun ha).mp hflag) hcancelled
      refine ⟨herror, (a, requested r.state a), ?_, ?_⟩
      · exact List.getElem?_zip_eq_some.mpr ⟨ha, by rw [List.getElem?_map, ha]; rfl⟩
      · exact requested_iff.mpr ⟨hasked, heof, hinterested, hevent⟩

/-- A call of the poller comes back with success when something was asked for and the loop comes to
its end. -/
theorem success_iff (timeoutMs : Int32) (revents : List UInt16) :
    (∃ as s, Poller.poll r.actions timeoutMs (fun _ _ => .ready revents) r.state
        = .ok ({ result := .success }, as, s)) ↔
      (∃ a ∈ r.actions, requested r.state a ≠ 0) ∧ Comes r revents r.actions.length := by
  have hall : (∃ a ∈ r.actions, requested r.state a ≠ 0) ↔
      ¬ (r.actions.map (requested r.state)).all (· == 0) := by
    simp
  rw [hall, ← round_snd]
  by_cases hnone : (r.actions.map (requested r.state)).all (· == 0)
  · refine iff_of_false ?_ fun h => h.1 hnone
    rintro ⟨as, s, h⟩
    unfold Poller.round at h
    dsimp only at h
    rw [if_pos hnone] at h
    cases h
  · rw [round_ready hnone, dispatchRound_success_iff, and_iff_right hnone, Comes,
      List.take_of_length_le (length_polled _ _).le]

/-- **Which actions are called**, in any run of a program that uses a poller whose actions were
active when it began: once each and in the order in which they were added, those to which the loop
comes and which are due.  The call comes back with success if and only if something was asked for
and the loop comes to its end, and then every action that was due has been called. -/
theorem calls_exact (hactive : ∀ a ∈ r₀.actions, a.active)
    (hrun : Transition.exec step r₀ es = some r) (timeoutMs : Int32) (revents : List UInt16) :
    ((r.calls (.poll timeoutMs (.ready revents))).map Call.position).Pairwise (· < ·) ∧
    (∀ i, i ∈ (r.calls (.poll timeoutMs (.ready revents))).map Call.position ↔
      Comes r revents i ∧ Due r₀ es r revents i) ∧
    ((∃ as s, Poller.poll r.actions timeoutMs (fun _ _ => .ready revents) r.state
        = .ok ({ result := .success }, as, s)) ↔
      (∃ a ∈ r.actions, requested r.state a ≠ 0) ∧ Comes r revents r.actions.length) ∧
    (Comes r revents r.actions.length → ∀ i,
      i ∈ (r.calls (.poll timeoutMs (.ready revents))).map Call.position ↔
        Due r₀ es r revents i) := by
  refine ⟨?_, fun i => mem_calls_iff hactive hrun timeoutMs revents,
    success_iff timeoutMs revents, fun hcomes i => ?_⟩
  · show (Poller.round r.actions (.ready revents) r.state).positions.Pairwise (· < ·)
    by_cases hnone : (r.actions.map (requested r.state)).all (· == 0)
    · unfold Poller.round
      dsimp only
      rw [if_pos hnone]
      exact .nil
    · rw [round_ready hnone]
      exact (pairwise_dispatchRound _ 0 revents r.state).2
  · rw [mem_calls_iff hactive hrun]
    refine and_iff_right ?_
    -- the loop came past all of the entries
    rw [Comes, List.take_of_length_le (length_polled _ _).le] at hcomes
    exact passes_take _ i hcomes

/-- Two actions, of which the first was cancelled in the call before: only the second is called,
though input has come for both. -/
theorem calls_exact_of_cancelled :
    (∀ i, i ∈ (cancelled.calls (.poll 1000 (.ready [pollIn, pollIn]))).map Call.position ↔
        Due cancelling [.poll 1000 (.ready [pollIn, 0])] cancelled [pollIn, pollIn] i) ∧
      (cancelled.calls (.poll 1000 (.ready [pollIn, pollIn]))).map Call.position = [1] := by
  have hactive : ∀ a ∈ cancelling.actions, a.active := by
    intro a ha
    rcases List.mem_cons.mp ha with rfl | ha
    · rfl
    · rw [List.mem_singleton.mp ha]
      rfl
  obtain ⟨-, -, -, hdue⟩ := calls_exact hactive exec_cancelling 1000 [pollIn, pollIn]
  exact ⟨hdue rfl, by decide⟩

end PollerRun

end SendReceive
