import SendReceive.Indistinguishable
import SendReceive.Programs
import SendReceive.SearchSpace

/-!
# From the optimiser to the process of a client

A rule table is made from the default one: its rules are used and counted, promoted and demoted,
split, and replaced by rules of their next generation, in any order.  It is saved, and a client
loads it from a file and runs against the server.

All its rules have parameters in the optimiser's ranges, in whole hundredths and twentieths, and it
has a rule for the empty memory.  So neither loading it nor running with it fails by itself: the
process ends by a refused call of the system or at the end of the loops.

## Main definitions

* `WhiskerTree.Optimised` — the tables that are made.
* `Whisker.Tuned` — what holds of their rules.

## Main results

* `WhiskerTree.Optimised.sound` — **what every operation keeps**.
* `WhiskerTree.optimised_process` — **a table that is made is safe to run**.
-/

namespace SendReceive

open Transition (exec)

/-! ### The rules -/

namespace Whisker

/-- The parameters are in range, and whole hundredths and twentieths. -/
structure Tuned (w : Whisker) : Prop where
  inRange : w.InRange
  windowMultiple : ∃ n : ℤ, w.windowMultiple = n / 100
  intersend : ∃ n : ℤ, w.intersend = n / 20

/-- Being tuned is a matter of how the rule computes. -/
theorem Tuned.of_decision {w w' : Whisker} (h : w.Tuned) (hdecision : w'.decision = w.decision) :
    w'.Tuned := by
  obtain ⟨hin, hmultiple, hintersend⟩ := h
  simp only [decision, Prod.mk.injEq] at hdecision
  obtain ⟨hw, hm, hi⟩ := hdecision
  refine ⟨?_, hm ▸ hmultiple, hi ▸ hintersend⟩
  unfold InRange
  rw [hw, hm, hi]
  exact hin

theorem decision_eq_of_action {w w' : Whisker} (h : w'.action = w.action) :
    w'.decision = w.decision := by
  simp only [action, Prod.mk.injEq] at h
  rw [decision, decision, h.1, h.2.1, h.2.2.1]

/-- The default rule. -/
theorem tuned_default : (ofDomain WhiskerTree.rootDomain).Tuned :=
  ⟨by decide +kernel, ⟨100, by decide +kernel⟩, 60, by decide +kernel⟩

/-- Whole numbers of steps are rounded. -/
theorem rounded_steps {d : DataType} {q : ℤ} (hd : d * q = 10000) (n : ℤ) :
    rounded (n / d) = n / d := by
  have hq : (q : DataType) ≠ 0 := right_ne_zero_of_mul (hd.trans_ne (by norm_num))
  have hsteps : (n : DataType) / d = ((n * q : ℤ) : DataType) / 10000 := by
    rw [← hd, Int.cast_mul, mul_div_mul_right _ _ hq]
  rw [hsteps, rounded_div]

/-- **The rules of the next generation are tuned** when the rule is, and have its domain. -/
theorem Tuned.of_next {w w' : Whisker} (h : w.Tuned) {turns : ℕ} (hturns : 3 ≤ turns)
    {ws : List Whisker} (hws : w.nextGeneration turns = .ok ws) (hmem : w' ∈ ws) :
    w'.Tuned ∧ w'.domain = w.domain := by
  obtain ⟨ws', hws', hchildren⟩ := mem_nextGeneration_iff h.inRange hturns
  obtain rfl := Except.ok.inj (hws.symm.trans hws')
  obtain ⟨a, m, i, -, hm, hi, rfl⟩ := (hchildren w').mp hmem
  have hself : Descendant turns w 0 w := .self
  have hbred := (hself.bred h.inRange hturns).next hturns hws hmem
  obtain ⟨n, hn⟩ := h.windowMultiple
  obtain ⟨n', hn'⟩ := h.intersend
  obtain ⟨k, rfl⟩ := hm.exists_steps
  obtain ⟨k', rfl⟩ := hi.exists_steps
  refine ⟨⟨hbred.inRange, ⟨n + k, ?_⟩, n' + k', ?_⟩, rfl⟩
  · show rounded _ = _
    rw [hn, ← add_div, ← Int.cast_add, rounded_steps (q := 100) (by norm_num)]
  · show rounded _ = _
    rw [hn', ← add_div, ← Int.cast_add, rounded_steps (q := 500) (by norm_num)]

end Whisker

/-! ### The trees -/

namespace WhiskerTree

open RegionTree

/-- Changing rules takes no children away. -/
theorem Populated.mapLabels {t : WhiskerTree} (h : t.Populated) (f : Whisker → Whisker) :
    Populated (t.mapLabels f) := by
  induction t using RegionTree.induct with
  | leaf d w => exact populated_leaf d (f w)
  | node d cs ih =>
    obtain ⟨hne, hchildren⟩ := populated_node.mp h
    rw [mapLabels_node, populated_node]
    refine ⟨by simpa using hne, ?_⟩
    rw [List.forall_mem_map]
    exact fun c hc => ih c hc (hchildren c hc)

/-- Nor does replacing a subtree by a tree that has its own. -/
theorem Populated.fill {C : Context MemoryRange Whisker} {s s' : WhiskerTree}
    (h : Populated (C.fill s)) (hs' : s'.Populated) : Populated (C.fill s') := by
  induction C with
  | hole => exact hs'
  | node d left C right ih =>
    obtain ⟨-, hchildren⟩ := populated_node.mp h
    rw [Context.fill_node, populated_node]
    refine ⟨by simp, fun c hc => ?_⟩
    rcases List.mem_append.mp hc with hleft | hright
    · exact hchildren c (List.mem_append_left _ hleft)
    · rcases List.mem_cons.mp hright with rfl | hright
      · exact ih (hchildren _ (List.mem_append_right _ List.mem_cons_self))
      · exact hchildren c (List.mem_append_right _ (List.mem_cons_of_mem _ hright))

section Operations

variable [Platform]

/-- The tree that a split builds has children, or an assertion fails. -/
theorem populated_ofWhisker {w : Whisker} {dst : WhiskerTree}
    (bisected : ofWhisker w true = .ok dst) : dst.Populated := by
  have hnode : (w.bisect >>= fun ws =>
      Except.ok (.node w.domain (ws.map fun x => .leaf x.domain x))) = .ok dst := bisected
  obtain ⟨ws, hws, hdst⟩ := bind_eq_ok.mp hnode
  obtain rfl := Except.ok.inj hdst
  unfold Whisker.bisect at hws
  obtain ⟨ret, hret, hws⟩ := bind_eq_ok.mp hws
  obtain rfl := Except.ok.inj hws
  unfold MemoryRange.bisect at hret
  obtain ⟨ret', -, hret⟩ := bind_eq_ok.mp hret
  have hne : ret ≠ [] := by
    split at hret
    · cases hret
    · rename_i hempty
      obtain rfl := Except.ok.inj hret
      exact fun h => hempty (List.isEmpty_iff.mpr h)
  rw [populated_node]
  refine ⟨by simpa using hne, ?_⟩
  simp only [List.map_map, List.forall_mem_map]
  exact fun x _ => populated_leaf _ _

/-- The tables that are made from the default one.  Rules are split when there is room in their
domain and its medians lie between the bounds. -/
inductive Optimised (turns : ℕ) : WhiskerTree → Prop
  /-- The default constructor. -/
  | init : Optimised turns init
  /-- `use_whisker( memory, track )`. -/
  | useWhisker {t t' : WhiskerTree} {w : Whisker} (memory : Memory) (track : Bool)
      (made : Optimised turns t) (step : t.useWhisker memory track = .ok (w, t')) :
      Optimised turns t'
  /-- `reset_counts()`. -/
  | resetCounts {t : WhiskerTree} (made : Optimised turns t) : Optimised turns t.resetCounts
  /-- `promote( generation )`. -/
  | promote {t : WhiskerTree} (generation : UInt32) (made : Optimised turns t) :
      Optimised turns (t.promote generation)
  /-- `reset_generation()`. -/
  | resetGeneration {t : WhiskerTree} (made : Optimised turns t) :
      Optimised turns t.resetGeneration
  /-- `replace( w )` for a rule `w` of the next generation of a leaf. -/
  | improve {t t' : WhiskerTree} {d : MemoryRange} {leaf w : Whisker} {ws : List Whisker}
      {found : Bool} (made : Optimised turns t) (mem : (d, leaf) ∈ t.leaves)
      (room : leaf.domain.Nonempty) (generation : leaf.nextGeneration turns = .ok ws)
      (better : w ∈ ws) (step : t.replace w = .ok (found, t')) : Optimised turns t'
  /-- `replace( src, WhiskerTree( src, true ) )` for a leaf. -/
  | split {t t' dst : WhiskerTree} {d : MemoryRange} {src : Whisker} {found : Bool}
      (made : Optimised turns t) (mem : (d, src) ∈ t.leaves) (room : src.domain.Nonempty)
      (medians : src.domain.MediansInRange) (bisected : ofWhisker src true = .ok dst)
      (step : t.replaceTree src dst = .ok (found, t')) : Optimised turns t'

/-- What every operation keeps. -/
structure Sound (t : WhiskerTree) : Prop where
  reachable : Reachable t
  populated : t.Populated
  tuned : ∀ p ∈ t.leaves, p.2.Tuned

/-- Changing rules without changing how they compute. -/
theorem Sound.mapLabels {t : WhiskerTree} (h : Sound t) {f : Whisker → Whisker}
    (hreach : Reachable (t.mapLabels f)) (hf : ∀ w, (f w).decision = w.decision) :
    Sound (t.mapLabels f) := by
  refine ⟨hreach, h.populated.mapLabels f, ?_⟩
  rw [leaves_mapLabels, List.forall_mem_map]
  exact fun p hp => (h.tuned p hp).of_decision (hf p.2)

/-- Replacing a subtree. -/
theorem Sound.fill {C : Context MemoryRange Whisker} {s s' : WhiskerTree} (h : Sound (C.fill s))
    (hreach : Reachable (C.fill s')) (hpopulated : s'.Populated)
    (htuned : ∀ p ∈ s'.leaves, p.2.Tuned) : Sound (C.fill s') := by
  refine ⟨hreach, h.populated.fill hpopulated, fun p hp => ?_⟩
  rcases Context.mem_leaves_fill_cases hp with hnew | hold
  · exact htuned p hnew
  · exact h.tuned p (hold s)

/-- **What every operation keeps**, by induction along the operations. -/
theorem Optimised.sound {turns : ℕ} (hturns : 3 ≤ turns) {t : WhiskerTree}
    (h : Optimised turns t) : Sound t := by
  have hleaf : ∀ {d : MemoryRange} {w : Whisker}, w.Tuned →
      ∀ p ∈ (RegionTree.leaf d w).leaves, p.2.Tuned := by
    intro d w hw p hp
    rw [List.mem_singleton.mp hp]
    exact hw
  induction h with
  | init => exact ⟨.init, populated_leaf _ _, hleaf Whisker.tuned_default⟩
  | @useWhisker t t' w memory track _ step ih =>
    have hreach := Reachable.useWhisker memory track ih.reachable step
    obtain ⟨hwf, -⟩ := ih.reachable.wellFormed
    by_cases hm : t.region.contains memory
    · obtain ⟨C, d, w₀, w₁, rfl, -, haction, -, hstep⟩ := hwf.useWhisker_spec hm track
      rw [hstep, Except.ok.injEq, Prod.mk.injEq] at step
      obtain ⟨-, rfl⟩ := step
      have hw₁ : w₁.Tuned := (ih.tuned _ (C.mem_leaves_fill_leaf d w₀)).of_decision
        (Whisker.decision_eq_of_action haction)
      exact ih.fill hreach (populated_leaf _ _) (hleaf hw₁)
    · rw [WellFormed.useWhisker_of_not_contains hm] at step
      cases step
  | resetCounts _ ih => exact ih.mapLabels (.resetCounts ih.reachable) fun _ => rfl
  | promote generation _ ih =>
    exact ih.mapLabels (.promote generation ih.reachable) fun _ => rfl
  | resetGeneration _ ih => exact ih.mapLabels (.resetGeneration ih.reachable) fun _ => rfl
  | @improve t t' d leaf w ws found _ mem room generation better step ih =>
    obtain ⟨hw, hdomain⟩ := (ih.tuned _ mem).of_next hturns generation better
    have hsame : w.domain.SameBounds leaf.domain := hdomain ▸ .refl _
    have hreach := Reachable.replace ih.reachable mem room hsame step
    obtain ⟨C, rfl, hstep⟩ :=
      ih.reachable.wellFormed.1.replaceAt_spec mem room hsame fun d => .leaf d w
    rw [WhiskerTree.replace, hstep, Except.ok.injEq, Prod.mk.injEq] at step
    obtain ⟨-, rfl⟩ := step
    exact ih.fill hreach (populated_leaf _ _) (hleaf hw)
  | @split t t' dst d src found _ mem room medians bisected step ih =>
    have hreach := Reachable.split ih.reachable mem room (.refl _) medians bisected step
    obtain ⟨C, rfl, hstep⟩ :=
      ih.reachable.wellFormed.1.replaceAt_spec mem room (.refl _) fun _ => dst
    rw [replaceTree, hstep, Except.ok.injEq, Prod.mk.injEq] at step
    obtain ⟨-, rfl⟩ := step
    -- the pieces of the rule compute as it does
    obtain ⟨dst', hdst', -, -, haction⟩ := WellFormed.ofWhisker_bisect room medians
    obtain rfl := Except.ok.inj (bisected.symm.trans hdst')
    exact ih.fill hreach (populated_ofWhisker bisected) fun p hp =>
      (ih.tuned _ mem).of_decision (Whisker.decision_eq_of_action (haction p hp))

/-- A table that is made has a rule for the empty memory, and loading it from what was saved gives a
table with such a rule. -/
theorem Optimised.exists_loaded {turns : ℕ} (hturns : 3 ≤ turns) {t : WhiskerTree}
    (h : Optimised turns t) :
    ∃ t' w, ofDNA t.dna = .ok t' ∧ t'.whisker .init = .ok (some w) ∧ w.Tuned := by
  obtain ⟨hreach, hpopulated, htuned⟩ := h.sound hturns
  obtain ⟨hwf, hroot⟩ := hreach.wellFormed
  have hload := ofDNA_dna hpopulated
  have hinit : t.region.contains .init := by
    rw [hroot.contains_eq]
    decide
  obtain ⟨C, d, w, rfl, hd, -⟩ := hwf.partitioned.exists_context hinit
  have hmem := C.mem_leaves_fill_leaf d w
  have hw : whisker (C.fill (.leaf d w)) .init = .ok (some w) := by
    rw [hwf.whisker_eq, hwf.partitioned.policy_of_mem hmem hd]
  -- the loaded table decides alike
  have halike := Alike.of_loaded hpopulated hload .init
  rw [decisionFor, decisionFor, hw] at halike
  obtain ⟨found, hfound, hdecision⟩ := map_eq_ok.mp halike
  obtain ⟨w', rfl, hdecision⟩ := Option.map_eq_some_iff.mp hdecision
  exact ⟨_, w', hload, hfound, (htuned _ hmem).of_decision (Option.some.inj hdecision)⟩

/-! ### The process -/

omit [Platform] in
/-- Why no socket was made. -/
theorem socket_of_makeSocket_error {h : Host} {why : Stop} (hwhy : h.makeSocket = .error why) :
    h.socket = none ∨ ∃ fd ∈ h.socket, fd ≤ 2 := by
  rcases bind_eq_error.mp hwhy with hcall | ⟨fd, hfd, hcheck⟩
  · cases hsocket : h.socket with
    | none => exact Or.inl rfl
    | some fd =>
      rw [hsocket] at hcall
      cases hcall
  · rw [systemCall_eq_ok] at hfd
    split at hcheck
    · rename_i hle
      exact Or.inr ⟨fd, hfd, hle⟩
    · cases hcheck

/-- **A table that is made is safe to run.**  All its rules are tuned.  Saved to a file, it is
loaded by any client that can read the file: the client fails to come to its loops only when the
address is not resolved or no socket is made.  With a clock that does not run backwards, in every
run against the server its process has ended with `EXIT_FAILURE` if and only if a call of the system
was refused, with `EXIT_SUCCESS` if and only if the loops were left, and in no other way. -/
theorem optimised_process {turns : ℕ} (hturns : 3 ≤ turns) {t : WhiskerTree}
    (ht : Optimised turns t) {h : Host} {filename : String} {bytes : ByteString}
    (hfile : h.files filename = some bytes) (hparse : h.parse bytes = some t.dna)
    (program destAddress destService : String) :
    (∀ p ∈ t.leaves, p.2.Tuned) ∧
    (∀ why, clientMain h [program, destAddress, destService, filename] = .error why →
      h.getaddrinfo destAddress destService = none ∨ h.socket = none ∨ ∃ fd ∈ h.socket, fd ≤ 2) ∧
    ∀ r, clientMain h [program, destAddress, destService, filename] = .ok r →
      ∀ (server : Socket) (es : List System.Event) (s : System),
        exec (System.step numTotalPackets server) ⟨r, []⟩ es = some s →
        (System.clientReadings es).Pairwise (· ≤ ·) →
        (s.run.processEnd = some (.exits exitFailure) ↔ ∃ e ∈ es, e.refused) ∧
        (s.run.processEnd = some (.exits 0) ↔ ∃ e ∈ System.clientEvents es, e.leaves) ∧
        ∀ how ∈ s.run.processEnd, how = .exits exitFailure ∨ how = .exits 0 := by
  obtain ⟨t', w, hload, hw, htuned⟩ := ht.exists_loaded hturns
  have hbytes : systemCall program (h.files filename) = .ok bytes := systemCall_eq_ok.mpr hfile
  have hdna : systemCall program (h.parse bytes) = .ok t.dna := systemCall_eq_ok.mpr hparse
  refine ⟨(ht.sound hturns).tuned, fun why hwhy => ?_, fun r hr server es s hrun hclock => ?_⟩
  · rw [clientMain, hbytes, ok_bind, hdna, ok_bind, hload, ok_bind] at hwhy
    rcases bind_eq_error.mp hwhy with haddr | ⟨addr, -, hwhy⟩
    · cases hresolved : h.getaddrinfo destAddress destService with
      | none => exact Or.inl rfl
      | some addr =>
        rw [hresolved] at haddr
        cases haddr
    · rcases bind_eq_error.mp hwhy with hsock | ⟨sock, -, hwhy⟩
      · exact Or.inr (socket_of_makeSocket_error hsock)
      · cases hwhy
  · obtain ⟨t'', addr, sock, ⟨_, hname, bytes', hbytes', dna, hdna', hloads⟩, rfl⟩ :=
      clientMain_ok hr
    -- it is the table that was saved
    obtain rfl := Option.some.inj hname
    obtain rfl := Option.some.inj (hfile.symm.trans hbytes')
    obtain rfl := Option.some.inj (hparse.symm.trans hdna')
    obtain rfl := Except.ok.inj (hload.symm.trans hloads)
    obtain ⟨hfails, hreturns, -, hends⟩ :=
      System.processEnd_spec hw htuned.inRange.lasting hrun hclock
    exact ⟨hfails, hreturns, hends⟩

end Operations

/-- A host on which the client finds the default table. -/
def defaultHost : Host := { emptyRuleHost with parse := fun _ => some WhiskerTree.init.dna }

/-- The default table, saved; a packet is sent, and `::poll` fails. -/
theorem optimised_process_of_default : letI := gcc48
    ∃ (r : ClientRun) (s : System),
      clientMain defaultHost ["client", "server", "9", "rule"] = .ok r ∧
      exec (System.step numTotalPackets ⟨⟨1, 9⟩⟩) ⟨r, []⟩ [.client (.enter 1),
        .client (.send 5 5 true), .client (.leave 6), .client (.poll .error none [])] = some s ∧
      s.run.processEnd = some (.exits exitFailure) := by
  let _ := gcc48
  let t : WhiskerTree :=
    .leaf (.ofDNA rootDomain.dna) (.ofDNA (Whisker.ofDomain rootDomain).dna)
  have hmain : clientMain defaultHost ["client", "server", "9", "rule"]
      = .ok (.start ⟨1, 9⟩ ⟨⟨2, 8⟩⟩ t true) := rfl
  have hexec : (exec (System.step numTotalPackets ⟨⟨1, 9⟩⟩) ⟨.start ⟨1, 9⟩ ⟨⟨2, 8⟩⟩ t true, []⟩
      [.client (.enter 1), .client (.send 5 5 true), .client (.leave 6),
        .client (.poll .error none [])]).isSome := by
    decide +kernel
  obtain ⟨s, hrun⟩ := Option.isSome_iff_exists.mp hexec
  have hfile : defaultHost.files "rule" = some [0x1a, 0x00] := rfl
  obtain ⟨-, -, hruns⟩ := optimised_process (le_refl 3) .init hfile rfl "client" "server" "9"
  refine ⟨_, s, hmain, hrun, (hruns _ hmain _ _ s hrun (by decide +kernel)).1.mpr ?_⟩
  exact ⟨.client (.poll .error none []), by simp, rfl⟩

end WhiskerTree

end SendReceive
