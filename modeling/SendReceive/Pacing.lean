import SendReceive.ClientRun

/-!
# The time between two packets

A rule says how long to wait between two packets, as a double.  The client keeps it in an integer,
and sends the next packet when the clock has come that far: what the rule asks for on top of whole
milliseconds is lost.

The rule of the last lookup is not a part of the client.  It is followed along a run by a ghost
variable.

## Main definitions

* `ClientRun.lastRule` — the rule that was looked up last in a run.
* `ClientRun.SentAfter` — two packets of a run that are sent one after the other.
* `ClientRun.Paced` — the packets of a run keep the distance of the rules.
* `ClientRun.Ruled` — what holds of a client and the rule that was looked up last.

## Main results

* `ClientRun.due_of_sentAfter` — what the client waits for.
* `ClientRun.paced_iff` — **when packets keep the distance**.
* `ClientRun.paced_of_whole` — rules for whole milliseconds are kept.
-/

namespace SendReceive

open Transition (exec ghost ghost_eq_some exec_append_eq_some)

namespace Client

/-- The rule that `set_window_intersend` selects in the memory `m`. -/
def selected (c : Client) (m : Memory) : Option Whisker :=
  (c.whiskers.useWhisker m c.track).toOption.map Prod.fst

end Client

/-- What a conversion that is defined gives. -/
theorem toNat_of_toUInt64 {x : DataType} {u : UInt64} (h : toUInt64 x = .ok u) :
    u.toNat = ⌊x⌋₊ := by
  unfold toUInt64 at h
  split at h
  · rename_i hrange
    obtain rfl := Except.ok.inj h
    have hsize : UInt64.size = 2 ^ 64 := rfl
    rw [UInt64.toNat_ofNat_of_lt' (by omega)]
    rcases le_total 0 x with hx | hx
    · rw [truncate_of_nonneg hx]
      exact Int.floor_toNat x
    · have hceil : ⌈x⌉ ≤ 0 := Int.ceil_le.mpr (by exact_mod_cast hx)
      rw [truncate_of_nonpos hx, Nat.floor_of_nonpos hx]
      exact Int.toNat_of_nonpos hceil
  · cases h

/-- How long a wait for the whole part of `x` is. -/
theorem le_sub_iff_of_due {a b i : UInt64} {x : DataType} (hx : 0 ≤ x) (hi : i.toNat = ⌊x⌋₊)
    (hdue : a + i ≤ b) :
    x ≤ b.toNat - a.toNat ↔
      a.toNat + ⌊x⌋₊ < 2 ^ 64 ∧ (b.toNat = a.toNat + ⌊x⌋₊ → x = ⌊x⌋₊) := by
  have hfloor : (⌊x⌋₊ : DataType) ≤ x := Nat.floor_le hx
  have hb := b.toNat_lt
  constructor
  · intro h
    have hle : a.toNat + ⌊x⌋₊ ≤ b.toNat := by
      have hcast : (a.toNat + ⌊x⌋₊ : DataType) ≤ b.toNat := by linarith
      exact_mod_cast hcast
    refine ⟨by omega, fun heq => le_antisymm ?_ hfloor⟩
    rw [heq] at h
    push_cast at h
    linarith
  · rintro ⟨hsum, hwhole⟩
    have hle : a.toNat + ⌊x⌋₊ ≤ b.toNat := by
      rw [UInt64.le_iff_toNat_le, UInt64.toNat_add, hi, Nat.mod_eq_of_lt hsum] at hdue
      exact hdue
    rcases hle.eq_or_lt with heq | hlt
    · rw [hwhole heq.symm, ← heq]
      push_cast
      linarith
    · have hcast : (a.toNat + ⌊x⌋₊ + 1 : DataType) ≤ b.toNat := by exact_mod_cast hlt
      have hlt := Nat.lt_floor_add_one x
      linarith

namespace ClientRun

/-- A packet is sent, or the system refuses it. -/
def Event.isSend : Event → Bool
  | .send _ _ _ => true
  | _ => false

/-- The rule that was selected last, after an event: a reception selects one in the memory that it
makes. -/
def selectRule (r : ClientRun) (e : Event) (r' : ClientRun) (rule : Option Whisker) :
    Option Whisker :=
  if e.received.isSome then r.client.selected r'.client.memory else rule

/-- The rule that was looked up last when the events `es` have happened. -/
def lastRule [Platform] (numTotalPackets : UInt64) (addr : Address) (sock : Socket)
    (whiskers : WhiskerTree) (track : Bool) (es : List Event) : Option Whisker :=
  (exec (ghost (step numTotalPackets) selectRule) (start addr sock whiskers track,
    (Client.make addr sock whiskers track).selected .init) es).bind Prod.snd

/-- After the events `upto` of `es` a packet is sent at the time `b`, and the one before it was sent
at the time `a`. -/
def SentAfter (es upto : List Event) (a b : UInt64) : Prop :=
  ∃ before sa mid sb after, upto = before ++ .send a sa true :: mid ∧ (∀ e ∈ mid, ¬ e.isSend) ∧
    es = upto ++ .send b sb true :: after

/-- The packets keep the distance of the rule that was looked up last before the second one. -/
def Paced [Platform] (numTotalPackets : UInt64) (addr : Address) (sock : Socket)
    (whiskers : WhiskerTree) (track : Bool) (es : List Event) : Prop :=
  ∀ upto a b, SentAfter es upto a b →
    ∃ w, lastRule numTotalPackets addr sock whiskers track upto = some w ∧
      w.intersend ≤ b.toNat - a.toNat

/-- An intersend time in the range of the optimiser. -/
def Spaced (x : DataType) : Prop := 1 / 4 ≤ x ∧ x ≤ 3

/-- The table has intersend times with `P` only. -/
def RulesHave (P : DataType → Prop) (whiskers : WhiskerTree) : Prop :=
  ∀ p ∈ whiskers.leaves, P p.2.intersend

/-- The client `c` waits for the whole milliseconds of the rule, whose intersend time has `P`. -/
def Waits (P : DataType → Prop) (c : Client) (rule : Option Whisker) : Prop :=
  ∃ w, rule = some w ∧ P w.intersend ∧ c.intersendTime.toNat = ⌊w.intersend⌋₊

/-- What holds of a client and the rule that was selected last. -/
structure Ruled (P : DataType → Prop) (s : ClientRun × Option Whisker) : Prop where
  rules : RulesHave P s.1.client.whiskers
  waits : (∀ why, s.1.pc ≠ .stopped why) → Waits P s.1.client s.2

variable {P : DataType → Prop}

/-- **A lookup** selects a rule of the table, and the client waits for its whole milliseconds. -/
theorem waits_of_setWindowIntersend {c c' : Client} (hrules : RulesHave P c.whiskers)
    (h : c.setWindowIntersend = .ok c') :
    RulesHave P c'.whiskers ∧ Waits P c' (c.selected c.memory) := by
  obtain ⟨w, whiskers, window, intersend, hused, -, hintersend, rfl⟩ :=
    Client.setWindowIntersend_parts h
  have haction : ∀ w w' : Whisker, P w.intersend → w'.action = w.action → P w'.intersend := by
    intro w w' hw h
    rw [Whisker.intersend_eq_of_action h]
    exact hw
  obtain ⟨hw, hleaves⟩ := WhiskerTree.forall_of_useWhisker haction hrules hused
  have hselected : c.selected c.memory = some w := by
    rw [Client.selected, hused]
    rfl
  exact ⟨hleaves, w, hselected, hw, toNat_of_toUInt64 hintersend⟩

variable {addr : Address} {sock : Socket} {whiskers : WhiskerTree} {track : Bool}

theorem Ruled.start (hrules : RulesHave P whiskers) :
    Ruled P (start addr sock whiskers track,
      (Client.make addr sock whiskers track).selected .init) := by
  unfold ClientRun.start
  cases hset : (Client.make addr sock whiskers track).setWindowIntersend with
  | error why => exact ⟨hrules, fun h => absurd rfl (h why)⟩
  | ok c =>
    obtain ⟨hleaves, hwaits⟩ :=
      waits_of_setWindowIntersend (c := .make addr sock whiskers track) hrules hset
    exact ⟨hleaves, fun _ => hwaits⟩

/-- **What a reception does** to the time of the last packet and to the time to wait. -/
theorem waits_of_receive {c c' : Client} {d : Datagram} {clock clock' : Clock}
    (h : c.receive (some d) clock = .ok (c', clock')) :
    c'.lastPacketSent = c.lastPacketSent ∧ (RulesHave P c.whiskers →
      RulesHave P c'.whiskers ∧ Waits P c' (c.selected c'.memory)) := by
  obtain ⟨_, p, memory, rest, c₀, c₁, rest', utility, -, -, -, hset, htimeout, rfl⟩ :=
    Client.receive_parts h
  -- the timeout and the utility touch nothing of what is said here
  obtain ⟨srtt, rttvar, rto, rfl⟩ := Client.updateTimeout_eq_ok htimeout
  obtain ⟨-, intersend, hc₀⟩ := Client.setWindowIntersend_eq_ok hset
  have hmemory : c₀.memory = memory := by rw [hc₀]
  refine ⟨?_, fun hrules => ?_⟩
  · show c₀.lastPacketSent = c.lastPacketSent
    rw [hc₀]
  · let c₂ : Client :=
      { c with largestAck := max p.sequenceNumber c.largestAck, memory := memory }
    have hwaits := waits_of_setWindowIntersend (c := c₂) hrules hset
    have hselected : c₂.selected c₂.memory = c.selected c₀.memory := by
      rw [hmemory]
      rfl
    exact hselected ▸ hwaits

/-- A client that has stopped has no time to wait. -/
theorem Ruled.of_stopped {r : ClientRun} {rule : Option Whisker} {why : Stop}
    (hrules : RulesHave P r.client.whiskers) (hpc : r.pc = .stopped why) : Ruled P (r, rule) :=
  ⟨hrules, fun h => absurd hpc (h why)⟩

/-- A step without a lookup. -/
theorem Ruled.of_eq {r r' : ClientRun} {e : Event} {rule : Option Whisker} (h : Ruled P (r, rule))
    (hrunning : ∀ why, r.pc ≠ .stopped why) (he : e.received = none)
    (hrules : r'.client.whiskers = r.client.whiskers)
    (hintersend : r'.client.intersendTime = r.client.intersendTime) :
    Ruled P (r', selectRule r e r' rule) := by
  refine ⟨?_, fun _ => ?_⟩
  · rw [hrules]
    exact h.rules
  · unfold selectRule
    rw [he]
    obtain ⟨w, hw, hP, hwaits⟩ := h.waits hrunning
    exact ⟨w, hw, hP, hintersend ▸ hwaits⟩

section Run

variable [Platform] {n : UInt64} {r r' : ClientRun} {e : Event}

/-- The time of the last packet is that of the last packet. -/
theorem lastPacketSent_of_step (h : step n r e = some r') (he : ¬ e.isSend) :
    r'.client.lastPacketSent = r.client.lastPacketSent := by
  cases step_effect h with
  | receive hpc hread hp hreceived =>
    exact (waits_of_receive (P := fun _ => True) (receive_of_step hpc hread h rfl)).1
  | send hpc hmay hdue => exact absurd rfl he
  | _ => rfl

theorem lastPacketSent_of_exec {es : List Event} (h : exec (step n) r es = some r')
    (hes : ∀ e ∈ es, ¬ e.isSend) : r'.client.lastPacketSent = r.client.lastPacketSent := by
  refine Transition.exec_invariant_of
    (I := fun s => s.client.lastPacketSent = r.client.lastPacketSent) rfl ?_ h hes
  intro _ _ _ he ih hstep
  exact (lastPacketSent_of_step hstep he).trans ih

/-- **Every step keeps the invariant.** -/
theorem Ruled.step {s t : ClientRun × Option Whisker} (h : Ruled P s)
    (hghost : ghost (ClientRun.step n) selectRule s e = some t) : Ruled P t := by
  obtain ⟨r, rule⟩ := s
  obtain ⟨r', rule'⟩ := t
  obtain ⟨hstep, hrule⟩ := ghost_eq_some.mp hghost
  dsimp only at hstep hrule
  subst hrule
  have hrunning := (step_effect hstep).not_stopped
  cases step_effect hstep with
  | receive hpc hread hp hreceived =>
    obtain ⟨-, hwaits⟩ := waits_of_receive (receive_of_step hpc hread hstep rfl)
    obtain ⟨hleaves, hselected⟩ := hwaits h.rules
    refine ⟨hleaves, fun _ => ?_⟩
    unfold selectRule
    rw [Event.received, if_pos hread]
    exact hselected
  | refused | pollFails | dies => exact .of_stopped h.rules rfl
  | idle hpc herror hread => exact h.of_eq hrunning (if_neg hread) rfl rfl
  | pollError hpc herror =>
    have hread : ¬ Poller.readable _ := fun hread => Poller.readable_not_error hread herror
    exact h.of_eq hrunning (if_neg hread) rfl rfl
  | _ => exact h.of_eq hrunning rfl rfl rfl

/-- **The client waits for the whole milliseconds** of the rule after each packet, if the sum does
not wrap around. -/
theorem due_of_sentAfter {es upto : List Event} {a b : UInt64}
    (hrules : RulesHave P whiskers)
    (hrun : exec (step n) (start addr sock whiskers track) es = some r)
    (h : SentAfter es upto a b) :
    ∃ w intersend, lastRule n addr sock whiskers track upto = some w ∧
      P w.intersend ∧ intersend.toNat = ⌊w.intersend⌋₊ ∧ a + intersend ≤ b := by
  obtain ⟨before, sa, mid, sb, after, hupto, hmid, rfl⟩ := h
  obtain ⟨r₂, hrun₂, hrest⟩ := exec_append_eq_some.mp hrun
  obtain ⟨r₃, hstep₃, -⟩ := Option.bind_eq_some_iff.mp hrest
  -- the time of the last packet is `a`
  have hlast : r₂.client.lastPacketSent = a := by
    rw [hupto] at hrun₂
    obtain ⟨r₀, -, hrest⟩ := exec_append_eq_some.mp hrun₂
    obtain ⟨r₁, hstep₁, hrun₁⟩ := Option.bind_eq_some_iff.mp hrest
    rw [lastPacketSent_of_exec hrun₁ hmid]
    cases step_effect hstep₁ with
    | send hpc hmay hdue => rfl
  -- the time to wait is that of the rule
  obtain ⟨rule, hghost⟩ : ∃ rule, exec (ghost (step n) selectRule) (start addr sock whiskers track,
      (Client.make addr sock whiskers track).selected .init) upto = some (r₂, rule) :=
    Transition.exists_ghost _ hrun₂
  have hruled : Ruled P (r₂, rule) := by
    refine Transition.exec_invariant (Ruled.start hrules) ?_ hghost
    intro _ _ _ ih hstep
    exact ih.step hstep
  obtain ⟨w, hw, hspaced, hintersend⟩ := hruled.waits (step_effect hstep₃).not_stopped
  refine ⟨w, r₂.client.intersendTime, ?_, hspaced, hintersend, ?_⟩
  · rw [lastRule, hghost]
    exact hw
  · cases step_effect hstep₃ with
    | send hpc hmay hdue =>
      rw [← hlast]
      exact hdue

/-- **When packets keep the distance**: if no packet is sent in the first millisecond that the
client allows under a rule that asks for more than whole milliseconds, and no sum wraps around. -/
theorem paced_iff {es : List Event} (hrules : RulesHave Spaced whiskers)
    (hrun : exec (step n) (start addr sock whiskers track) es = some r) :
    Paced n addr sock whiskers track es ↔
      ∀ upto a b, SentAfter es upto a b →
        ∃ w, lastRule n addr sock whiskers track upto = some w ∧
          a.toNat + ⌊w.intersend⌋₊ < 2 ^ 64 ∧
          (b.toNat = a.toNat + ⌊w.intersend⌋₊ → w.intersend = ⌊w.intersend⌋₊) := by
  refine forall_congr' fun upto => forall_congr' fun a => forall_congr' fun b =>
    forall_congr' fun h => ?_
  obtain ⟨w, intersend, hlast, hspaced, hintersend, hdue⟩ := due_of_sentAfter hrules hrun h
  simp only [hlast, Option.some.injEq, exists_eq_left']
  exact le_sub_iff_of_due (le_trans (by norm_num) hspaced.1) hintersend hdue

/-- **Rules for whole milliseconds are kept**, by a client that does not live to the end of the
clock. -/
theorem paced_of_whole {es : List Event}
    (hrules : RulesHave (fun x => Spaced x ∧ ∃ k : ℕ, x = k) whiskers)
    (hrun : exec (step n) (start addr sock whiskers track) es = some r)
    (hsmall : ∀ now sa, .send now sa true ∈ es → now.toNat + 3 < 2 ^ 64) :
    Paced n addr sock whiskers track es := by
  intro upto a b h
  obtain ⟨w, intersend, hlast, ⟨hspaced, k, hk⟩, hintersend, hdue⟩ :=
    due_of_sentAfter hrules hrun h
  refine ⟨w, hlast, (le_sub_iff_of_due (le_trans (by norm_num) hspaced.1) hintersend hdue).mpr ?_⟩
  rw [hk, Nat.floor_natCast]
  refine ⟨?_, fun _ => rfl⟩
  obtain ⟨before, sa, mid, sb, after, rfl, -, rfl⟩ := h
  have hle : k ≤ 3 := by
    have hcast := hspaced.2
    rw [hk] at hcast
    exact_mod_cast hcast
  have hlt := hsmall a sa (by simp)
  omega

end Run

/-- Two packets under a rule for three milliseconds. -/
theorem paced_iff_of_three : letI := gcc48
    ∃ (whiskers : WhiskerTree) (es : List Event) (r : ClientRun),
      RulesHave Spaced whiskers ∧ exec (step 2) (start ⟨1, 9⟩ ⟨⟨2, 8⟩⟩ whiskers true) es = some r ∧
      (∃ upto, SentAfter es upto 10 13) ∧ Paced 2 ⟨1, 9⟩ ⟨⟨2, 8⟩⟩ whiskers true es := by
  let _ := gcc48
  let whiskers : WhiskerTree :=
    .leaf WhiskerTree.rootDomain (.make 4 1 3 WhiskerTree.rootDomain)
  let es : List Event := [.enter 10, .send 10 10 true, .wait 12, .send 13 13 true]
  have hthree : RulesHave (fun x => x = 3) whiskers := by
    intro p hp
    rw [List.mem_singleton.mp hp]
    rfl
  have hspaced : RulesHave Spaced whiskers := by
    intro p hp
    rw [hthree p hp]
    exact ⟨by norm_num, le_rfl⟩
  have hexec : (exec (step 2) (start ⟨1, 9⟩ ⟨⟨2, 8⟩⟩ whiskers true) es).map (·.sent.length)
      = some 2 := by
    decide +kernel
  obtain ⟨r, hrun, -⟩ := Option.map_eq_some_iff.mp hexec
  refine ⟨whiskers, es, r, hspaced, hrun, ⟨_, [.enter 10], 10, [.wait 12], 13, [], rfl, ?_, rfl⟩,
    (paced_iff hspaced hrun).mpr fun upto a b h => ?_⟩
  · simp [Event.isSend]
  · obtain ⟨w, intersend, hlast, hw, -, -⟩ := due_of_sentAfter hthree hrun h
    have hfloor : ⌊(3 : DataType)⌋₊ = 3 := by exact_mod_cast Nat.floor_natCast (R := DataType) 3
    refine ⟨w, hlast, ?_, fun _ => ?_⟩
    · obtain ⟨before, sa, mid, sb, after, hupto, -, hes⟩ := h
      have hsend : Event.send a sa true ∈ es := by simp [hes, hupto]
      simp only [es, List.mem_cons, reduceCtorEq, Event.send.injEq, List.not_mem_nil, or_false,
        false_or] at hsend
      rw [hw, hfloor]
      rcases hsend with ⟨rfl, -⟩ | ⟨rfl, -⟩ <;> decide
    · rw [hw, hfloor]
      rfl

/-- Two packets under a rule for two and a half milliseconds: the second one is sent after two. -/
theorem paced_too_early : letI := gcc48
    ∃ (whiskers : WhiskerTree) (es : List Event) (r : ClientRun),
      RulesHave Spaced whiskers ∧ es = [.enter 10, .send 10 10 true, .send 12 12 true] ∧
      exec (step 2) (start ⟨1, 9⟩ ⟨⟨2, 8⟩⟩ whiskers true) es = some r ∧
      ¬ Paced 2 ⟨1, 9⟩ ⟨⟨2, 8⟩⟩ whiskers true es := by
  let _ := gcc48
  let whiskers : WhiskerTree :=
    .leaf WhiskerTree.rootDomain (.make 4 1 (5 / 2) WhiskerTree.rootDomain)
  let es : List Event := [.enter 10, .send 10 10 true, .send 12 12 true]
  have hspaced : RulesHave Spaced whiskers := by
    intro p hp
    rw [List.mem_singleton.mp hp]
    exact ⟨by decide +kernel, by decide +kernel⟩
  have hexec : (exec (step 2) (start ⟨1, 9⟩ ⟨⟨2, 8⟩⟩ whiskers true) es).map (·.sent.length)
      = some 2 := by
    decide +kernel
  obtain ⟨r, hrun, -⟩ := Option.map_eq_some_iff.mp hexec
  refine ⟨whiskers, es, r, hspaced, rfl, hrun, fun hpaced => ?_⟩
  obtain ⟨w, hlast, hle⟩ :=
    hpaced [.enter 10, .send 10 10 true] 10 12 ⟨[.enter 10], 10, [], 12, [], rfl, by simp, rfl⟩
  have hrule : (lastRule 2 ⟨1, 9⟩ ⟨⟨2, 8⟩⟩ whiskers true [.enter 10, .send 10 10 true]).map
      (·.intersend) = some (5 / 2) := by
    decide +kernel
  rw [hlast, Option.map_some, Option.some.injEq] at hrule
  rw [hrule] at hle
  revert hle
  decide +kernel

end ClientRun

end SendReceive
