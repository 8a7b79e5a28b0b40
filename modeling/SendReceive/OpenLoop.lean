import SendReceive.Indistinguishable
import SendReceive.Window

/-!
# The control loop of the two programs is open

The client is meant to adapt to what it receives: each acknowledgement changes its memory, and the
memory selects the rule for the next window.  The server's acknowledgements have the flow id zero
and the client waits for packets of the flow one, so that its memory never changes.  Between the
two programs of this repository every lookup is made in the empty memory, and the window is
what one and the same rule makes of the windows before, once for each acknowledgement.

## Main definitions

* `Whisker.windows` — the windows that one rule gives, one after the other.
* `Client.Selects` — a lookup, with all that it sets.
* `System.receptions` — the number of acknowledgements that were received.
* `System.OneRule` — the client went by one rule.

## Main results

* `System.open_loop` — **the client goes by the rule for the empty memory only**.
* `System.default_window` — the default table opens the window by one for each acknowledgement.
-/

namespace SendReceive

open Transition (exec)

/-! ### One rule over and over -/

/-- The windows a rule gives one after the other, from the window zero. -/
def Whisker.windows (w : Whisker) : ℕ → Except Stop UInt32
  | 0 => .ok 0
  | k + 1 => w.windows k >>= w.window

/-- A table gives, in each memory, a rule that computes as it decides. -/
theorem WhiskerTree.decisionFor_of_useWhisker {t t' : WhiskerTree} {m : Memory} {track : Bool}
    {w : Whisker} (h : t.useWhisker m track = .ok (w, t')) :
    t.decisionFor m = .ok (some w.decision) := by
  rw [useWhisker_eq] at h
  obtain ⟨found, hvisit, hfound⟩ := bind_eq_ok.mp h
  cases found with
  | none => cases hfound
  | some r =>
    obtain rfl := Except.ok.inj hfound
    rw [decisionFor_eq_visit t m track, hvisit]
    rfl

theorem WhiskerTree.useAll_concat (t : WhiskerTree) (queries : List (Memory × Bool))
    (q : Memory × Bool) :
    t.useAll (queries ++ [q])
      = t.useAll queries >>= fun t => (t.useWhisker q.1 q.2).map Prod.snd :=
  foldlM_concat _ _ _ _

namespace Client

/-- **A lookup with all that it sets**: `c'` has the table, the window and the intersend time after
the table of `c` was asked for the rule of the memory `m`. -/
def Selects (c : Client) (m : Memory) (c' : Client) : Prop :=
  ∃ w window, c.whiskers.useWhisker m c.track = .ok (w, c'.whiskers) ∧
    w.window c.theWindow.toUInt32 = .ok window ∧ c'.theWindow = window.toUInt64 ∧
    toUInt64 w.intersend = .ok c'.intersendTime

theorem selects_of_setWindowIntersend {c c' : Client} (h : c.setWindowIntersend = .ok c') :
    c.Selects c.memory c' := by
  obtain ⟨w, whiskers, window, intersend, hused, hwindow, hintersend, rfl⟩ :=
    setWindowIntersend_parts h
  exact ⟨w, window, hused, hwindow, rfl, hintersend⟩

/-- A reception looks the rule up in the memory after the update. -/
theorem selects_of_receive {c c' : Client} {incoming : Option Datagram} {clock clock' : Clock}
    (h : c.receive incoming clock = .ok (c', clock')) : c.Selects c'.memory c' := by
  obtain ⟨d, p, memory, rest, c₀, c₁, rest', utility, -, -, -, hset, htimeout, rfl⟩ :=
    receive_parts h
  obtain ⟨srtt, rttvar, rto, rfl⟩ := updateTimeout_eq_ok htimeout
  obtain ⟨-, intersend, hc₀⟩ := setWindowIntersend_eq_ok hset
  have hmemory : c₀.memory = memory := by rw [hc₀]
  obtain ⟨w, window, hused, hwindow, htheWindow, hintersend⟩ := selects_of_setWindowIntersend hset
  refine ⟨w, window, ?_, hwindow, htheWindow, hintersend⟩
  show c.whiskers.useWhisker c₀.memory c.track = .ok (w, c₀.whiskers)
  rw [hmemory]
  exact hused

/-- The client went by the rule `w` of the table `t` only, `k` times after the first. -/
structure OneRule (t : WhiskerTree) (w : Whisker) (track : Bool) (k : ℕ) (c : Client) : Prop where
  tracks : c.track = track
  table : t.useAll (List.replicate (k + 1) (.init, track)) = .ok c.whiskers
  window : (w.windows (k + 1)).map UInt32.toUInt64 = .ok c.theWindow
  intersend : toUInt64 w.intersend = .ok c.intersendTime

section OneRule

variable {t : WhiskerTree} {w : Whisker} {track : Bool} {k : ℕ} {c c' : Client}

/-- The windows of a rule are narrowed and widened without a loss. -/
theorem toUInt32_theWindow {window : UInt32} (h : c.theWindow = window.toUInt64) :
    c.theWindow.toUInt32 = window := by
  rw [h]
  exact UInt32.toUInt32_toUInt64 window

/-- **One more lookup in the empty memory.** -/
theorem OneRule.selects (hw : t.decisionFor .init = .ok (some w.decision))
    (h : OneRule t w track k c) (hc' : c'.track = c.track) (hselects : c.Selects .init c') :
    OneRule t w track (k + 1) c' := by
  obtain ⟨w', window, hused, hwindow, htheWindow, hintersend⟩ := hselects
  -- the table still decides as it did at first
  have hdecision : w'.decision = w.decision := by
    have hused' := WhiskerTree.decisionFor_of_useWhisker hused
    rw [WhiskerTree.Alike.of_useAll h.table .init, hw, Except.ok.injEq, Option.some.injEq] at hused'
    exact hused'.symm
  obtain ⟨previous, hprevious, hold⟩ := map_eq_ok.mp h.window
  rw [toUInt32_theWindow hold.symm, Whisker.window_eq_of_decision hdecision] at hwindow
  rw [Whisker.intersend_eq_of_decision hdecision] at hintersend
  refine ⟨hc'.trans h.tracks, ?_, ?_, hintersend⟩
  · rw [h.tracks] at hused
    rw [List.replicate_succ', WhiskerTree.useAll_concat, h.table, ok_bind, hused]
    rfl
  · rw [Whisker.windows, hprevious, ok_bind, hwindow, htheWindow]
    rfl

/-- The first lookup. -/
theorem OneRule.first (hw : t.decisionFor .init = .ok (some w.decision)) {addr : Address}
    {sock : Socket} (h : (Client.make addr sock t track).setWindowIntersend = .ok c) :
    OneRule t w track 0 c := by
  obtain ⟨w', window, hused, hwindow, htheWindow, hintersend⟩ := selects_of_setWindowIntersend h
  have htrack : c.track = track := by
    obtain ⟨-, intersend, hc⟩ := setWindowIntersend_eq_ok h
    rw [hc]
    rfl
  have hused : t.useWhisker .init track = .ok (w', c.whiskers) := hused
  have hdecision : w'.decision = w.decision := by
    have hused' := WhiskerTree.decisionFor_of_useWhisker hused
    rw [hw, Except.ok.injEq, Option.some.injEq] at hused'
    exact hused'.symm
  rw [Whisker.window_eq_of_decision hdecision] at hwindow
  rw [Whisker.intersend_eq_of_decision hdecision] at hintersend
  refine ⟨htrack, ?_, ?_, hintersend⟩
  · show t.useAll [(.init, track)] = _
    rw [WhiskerTree.useAll, List.foldlM_cons, hused]
    rfl
  · have hzero : w.windows 1 = w.window 0 := rfl
    have hwindow : w.window 0 = .ok window := hwindow
    rw [hzero, hwindow, htheWindow]
    rfl

end OneRule

end Client

namespace System

/-! ### Runs -/

/-- The client receives a datagram. -/
def Event.isReception : Event → Bool
  | .client e => e.received.isSome
  | .serve _ _ _ => false

/-- The number of acknowledgements that were received. -/
def receptions (es : List Event) : ℕ := es.countP Event.isReception

theorem receptions_concat (es : List Event) (e : Event) :
    receptions (es ++ [e]) = receptions es + e.isReception.toNat :=
  Transition.countP_concat _ es e

section Runs

variable [Platform] {n : UInt64} {server : Socket} {addr : Address} {sock : Socket}
  {t : WhiskerTree} {w : Whisker} {track : Bool}

/-- A step of the client in the system is a step of the client. -/
theorem clientStep_of_step {s s' : System} {e : ClientRun.Event}
    (h : step n server s (.client e) = some s') : ClientRun.step n s.run e = some s'.run := by
  simp only [step] at h
  split at h
  · obtain ⟨r, hr, rfl⟩ := Option.map_eq_some_iff.mp h
    exact hr
  · cases h

/-- What a step does that receives nothing. -/
theorem selection_of_not_reception {r r' : ClientRun} {e : ClientRun.Event}
    (h : ClientRun.Effect n r e r') (he : e.received = none) :
    r'.client.track = r.client.track ∧ r'.client.whiskers = r.client.whiskers ∧
      r'.client.theWindow = r.client.theWindow ∧
      r'.client.intersendTime = r.client.intersendTime := by
  cases h with
  | receive hpc hread hp hreceived =>
    rw [ClientRun.Event.received, if_pos hread] at he
    cases he
  | _ => exact ⟨rfl, rfl, rfl, rfl⟩

/-- What a step does that receives a datagram, and does not stop the client. -/
theorem selection_of_reception {r r' : ClientRun} {e : ClientRun.Event}
    (h : ClientRun.step n r e = some r') (he : e.received ≠ none)
    (hrunning : ∀ why, r'.pc ≠ .stopped why) :
    r'.client.track = r.client.track ∧ r.client.Selects r'.client.memory r'.client := by
  have heff := ClientRun.step_effect h
  cases heff with
  | receive hpc hread hp hreceived =>
    exact ⟨hreceived.track, Client.selects_of_receive (ClientRun.receive_of_step hpc hread h rfl)⟩
  | dies => exact absurd rfl (hrunning _)
  | idle hpc herror hread =>
    rw [ClientRun.Event.received, if_neg hread] at he
    exact absurd rfl he
  | pollError hpc herror =>
    rw [ClientRun.Event.received, if_neg fun hread => Poller.readable_not_error hread herror] at he
    exact absurd rfl he
  | _ => exact absurd rfl he

/-- **The client goes by one rule** as long as it runs. -/
theorem oneRule_of_exec (hw : t.decisionFor .init = .ok (some w.decision)) {es : List Event}
    {s : System} (hrun : exec (step n server) (start addr sock t track) es = some s)
    (hrunning : s.Running) : s.run.client.OneRule t w track (receptions es) := by
  refine Transition.exec_induct
    (P := fun es s => s.Running → s.run.client.OneRule t w track (receptions es)) ?_ ?_ es s hrun
    hrunning
  · intro hrunning
    show Client.OneRule t w track 0 (ClientRun.start addr sock t track).client
    have hrunning : ∀ why, (ClientRun.start addr sock t track).pc ≠ .stopped why := hrunning
    unfold ClientRun.start at hrunning ⊢
    cases hset : (Client.make addr sock t track).setWindowIntersend with
    | error why =>
      rw [hset] at hrunning
      exact absurd rfl (hrunning why)
    | ok c => exact .first hw hset
  · intro es s e s' hes ih hstep hrunning
    have h := ih ((step_effect hstep).running hrunning)
    rw [receptions_concat]
    cases e with
    | serve request printedAt sentAt =>
      cases step_effect hstep with
      | serve now hmem hp => exact h
    | client e =>
      by_cases he : e.received = none
      · obtain ⟨htrack, htable, hwindow, hintersend⟩ :=
          selection_of_not_reception (step_effect hstep).of_client.2 he
        have hcount : (Event.client e).isReception = false := by
          rw [Event.isReception, he]
          rfl
        rw [hcount]
        exact ⟨htrack.trans h.tracks, htable ▸ h.table, hwindow ▸ h.window, hintersend ▸ h.intersend⟩
      · obtain ⟨htrack, hselects⟩ :=
          selection_of_reception (clientStep_of_step hstep) he hrunning
        have hcount : (Event.client e).isReception = true := Option.isSome_iff_ne_none.mpr he
        -- the memory is the empty one, before and after
        have hmemory := (Inv.exec (Transition.exec_snoc.mpr ⟨s, hes, hstep⟩)).memory
        rw [hmemory] at hselects
        rw [hcount]
        exact h.selects hw htrack hselects

/-- **The client goes by the rule for the empty memory only.**  In every run against the server, as
long as the client runs, its memory is the empty one; its window is the one that the rule `w` for it
gives when it is asked over and over, once at the start and once for each acknowledgement; the time
between two packets is that of `w`; and the table is the one it started with, after as many queries
for the empty memory. -/
theorem open_loop (hw : t.whisker .init = .ok (some w)) {es : List Event} {s : System}
    (hrun : exec (step n server) (start addr sock t track) es = some s) (hrunning : s.Running) :
    s.run.client.memory = .init ∧
      (w.windows (receptions es + 1)).map UInt32.toUInt64 = .ok s.run.client.theWindow ∧
      toUInt64 w.intersend = .ok s.run.client.intersendTime ∧
      t.useAll (List.replicate (receptions es + 1) (.init, track))
        = .ok s.run.client.whiskers := by
  have hdecision : t.decisionFor .init = .ok (some w.decision) := by
    rw [WhiskerTree.decisionFor, hw]
    rfl
  have h := oneRule_of_exec hdecision hrun hrunning
  exact ⟨(Inv.exec hrun).memory, h.window, h.intersend, h.table⟩

end Runs

end System

/-! ### The default rule -/

/-- The default rule adds one packet at a time, up to the clamp. -/
theorem Whisker.windows_ofDomain (d : MemoryRange) (k : ℕ) :
    ∃ window, (Whisker.ofDomain d).windows k = .ok window ∧ window.toNat = min k 1000000 := by
  induction k with
  | zero => exact ⟨0, rfl, rfl⟩
  | succ k ih =>
    obtain ⟨previous, hprevious, hk⟩ := ih
    have hraw : (Whisker.ofDomain d).rawWindow previous = (min k 1000000 + 1 : ℕ) := by
      have hmul : (Whisker.ofDomain d).windowMultiple = 1 := rfl
      have hinc : (Whisker.ofDomain d).windowIncrement.toInt = 1 := rfl
      rw [rawWindow, hmul, hinc, hk]
      push_cast
      ring
    have htruncate : truncate ((Whisker.ofDomain d).rawWindow previous) = min k 1000000 + 1 := by
      rw [hraw, truncate_of_nonneg (Nat.cast_nonneg _), Int.floor_natCast]
      push_cast
      rfl
    obtain ⟨window, hwindow⟩ := exists_window_iff.mpr
      (show -2 ^ 31 ≤ truncate ((Whisker.ofDomain d).rawWindow previous) ∧ _ by
        rw [htruncate]
        omega)
    refine ⟨window, ?_, ?_⟩
    · rw [windows, hprevious]
      exact hwindow
    · have hclamp := toNat_window hwindow
      rw [htruncate] at hclamp
      omega

namespace System

section Default

variable [Platform] {n : UInt64} {server : Socket} {addr : Address} {sock : Socket} {track : Bool}

/-- **The window of the default table.**  It is opened by one packet for each acknowledgement that
was received, duplicates included, up to the clamp; three milliseconds lie between two packets. -/
theorem default_window {es : List Event} {s : System}
    (hrun : exec (step n server) (start addr sock .init track) es = some s)
    (hrunning : s.Running) :
    s.run.client.theWindow.toNat = min (receptions es + 1) 1000000 ∧
      s.run.client.intersendTime = 3 := by
  have hrule : WhiskerTree.decisionFor .init .init
      = .ok (some (Whisker.ofDomain WhiskerTree.rootDomain).decision) := by
    decide +kernel
  have h := oneRule_of_exec hrule hrun hrunning
  obtain ⟨window, hwindows, hwindow⟩ :=
    Whisker.windows_ofDomain WhiskerTree.rootDomain (receptions es + 1)
  have htheWindow := h.window
  rw [hwindows] at htheWindow
  refine ⟨?_, ?_⟩
  · rw [← Except.ok.inj htheWindow, UInt32.toNat_toUInt64, hwindow]
  · have hthree : toUInt64 (Whisker.ofDomain WhiskerTree.rootDomain).intersend = .ok 3 := by
      decide +kernel
    exact (Except.ok.inj (h.intersend.symm.trans hthree))

end Default

/-- One packet that is sent, answered and acknowledged. -/
def oneRoundTrip [Platform] : List Event :=
  let p : Packet := (Packet.make ⟨1, 9⟩ 0 0 0 Client.helloPayload).setSendTimestamp 5
  let reply : Datagram := Server.answer ⟨⟨1, 9⟩⟩ { p with addr_ := ⟨2, 8⟩ } 7
  [.client (.enter 1), .client (.send 5 5 true), .serve ⟨⟨2, 8⟩, ⟨1, 9⟩, p.str⟩ 6 7,
    .client (.leave 8), .client (.poll (.ready [pollIn]) (some reply) [9, 10])]

theorem exec_oneRoundTrip : letI := gcc48
    ∃ s, exec (step 1 ⟨⟨1, 9⟩⟩) (start ⟨1, 9⟩ ⟨⟨2, 8⟩⟩ .init true) oneRoundTrip = some s ∧
      s.Running ∧ receptions oneRoundTrip = 1 := by
  let _ := gcc48
  have hexec : (exec (step 1 ⟨⟨1, 9⟩⟩) (start ⟨1, 9⟩ ⟨⟨2, 8⟩⟩ .init true) oneRoundTrip).map
      (·.run.pc) = some .outer := by
    decide +kernel
  obtain ⟨s, hrun, hpc⟩ := Option.map_eq_some_iff.mp hexec
  exact ⟨s, hrun, fun why => by rw [hpc]; exact Pc.noConfusion, by decide +kernel⟩

/-- The second window of the default rule is two. -/
theorem open_loop_of_one : letI := gcc48
    ∃ s : System, exec (step 1 ⟨⟨1, 9⟩⟩) (start ⟨1, 9⟩ ⟨⟨2, 8⟩⟩ .init true) oneRoundTrip = some s ∧
      ((Whisker.ofDomain WhiskerTree.rootDomain).windows 2).map UInt32.toUInt64
        = .ok s.run.client.theWindow := by
  let _ := gcc48
  obtain ⟨s, hrun, hrunning, hone⟩ := exec_oneRoundTrip
  have hrule : WhiskerTree.init.whisker .init
      = .ok (some (Whisker.ofDomain WhiskerTree.rootDomain)) := by
    rfl
  have hwindow := (open_loop hrule hrun hrunning).2.1
  rw [hone] at hwindow
  exact ⟨s, hrun, hwindow⟩

theorem default_window_of_one : letI := gcc48
    ∃ s : System, exec (step 1 ⟨⟨1, 9⟩⟩) (start ⟨1, 9⟩ ⟨⟨2, 8⟩⟩ .init true) oneRoundTrip = some s ∧
      s.run.client.theWindow.toNat = 2 := by
  let _ := gcc48
  obtain ⟨s, hrun, hrunning, hone⟩ := exec_oneRoundTrip
  have hwindow := (default_window hrun hrunning).1
  rw [hone] at hwindow
  exact ⟨s, hrun, hwindow⟩

end System

end SendReceive
