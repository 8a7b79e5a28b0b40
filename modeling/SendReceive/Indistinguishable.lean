import SendReceive.Lib.Lockstep
import SendReceive.Lib.RegionTreeMap
import SendReceive.Dna
import SendReceive.Queries
import SendReceive.Reachable
import SendReceive.System
import SendReceive.Timer

/-!
# Tables that no run tells apart

A client asks its table for the rule of its memory and computes a window and an intersend time.
Counts, accumulators, generations and the shape of the tree never show in what it does.  So two
tables that map each memory to rules that compute alike, or both to nothing, lead the client and the
server through the same runs, from the first packet to the exit status.

Nothing is assumed of the tables: they may leave memories uncovered, and then both runs stop in
the same way.

## Main definitions

* `Whisker.decision` — how a rule computes.
* `WhiskerTree.Alike`, `Client.Alike`, `ClientRun.Alike`, `System.Alike` — alike but for the tables.
* `WhiskerTree.SameShows` — nobody tells two tables apart.

## Main results

* `WhiskerTree.Alike.useWhisker` — tables that are alike are used in lockstep, and stay alike.
* `ClientRun.Alike.step`, `System.Alike.step` — **so are the clients and the systems**.
* `WhiskerTree.upkeep_unobservable` — **what is done to tables between runs does not show**.
* `WhiskerTree.indistinguishable` — **no run tells the tables apart**.
-/

namespace SendReceive

open Transition (exec)

/-! ### Rules and tables -/

namespace Whisker

/-- How a rule computes windows and intersend times. -/
def decision (w : Whisker) : Int32 × DataType × DataType :=
  (w.windowIncrement, w.windowMultiple, w.intersend)

theorem window_eq_of_decision {w w' : Whisker} (h : w'.decision = w.decision)
    (previousWindow : UInt32) : w'.window previousWindow = w.window previousWindow := by
  simp only [decision, Prod.mk.injEq] at h
  rw [window, window, h.1, h.2.1]

theorem intersend_eq_of_decision {w w' : Whisker} (h : w'.decision = w.decision) :
    w'.intersend = w.intersend := by
  simp only [decision, Prod.mk.injEq] at h
  exact h.2.2

end Whisker

namespace WhiskerTree

open RegionTree

/-- How the rule for a memory computes. -/
def decisionFor (t : WhiskerTree) (m : Memory) :
    Except Stop (Option (Int32 × DataType × DataType)) :=
  (t.whisker m).map (Option.map Whisker.decision)

/-- Both tables map each memory to rules that compute alike, or to nothing, or fail. -/
def Alike (t t' : WhiskerTree) : Prop := ∀ m, t'.decisionFor m = t.decisionFor m

theorem Alike.refl (t : WhiskerTree) : Alike t t := fun _ => rfl

theorem Alike.symm {t t' : WhiskerTree} (h : Alike t t') : Alike t' t := fun m => (h m).symm

theorem Alike.trans {t t' t'' : WhiskerTree} (h : Alike t t') (h' : Alike t' t'') :
    Alike t t'' := fun m => (h' m).trans (h m)

/-- What a table decides is a matter of its ranges and of how its rules compute. -/
theorem decisionFor_eq (t : WhiskerTree) (m : Memory) :
    t.decisionFor m = (t.mapLabels Whisker.decision).lookup .assertFailed m :=
  (lookup_map (f := id) Whisker.decision Stop.assertFailed fun _ _ => rfl).symm

/-- Tables with the same ranges and rules that compute alike. -/
theorem Alike.of_mapLabels {t t' : WhiskerTree}
    (h : t'.mapLabels Whisker.decision = t.mapLabels Whisker.decision) : Alike t t' := by
  intro m
  rw [decisionFor_eq, decisionFor_eq, h]

/-- What `use_whisker` does at the leaf where the walk ends. -/
def useLeaf (m : Memory) (track : Bool) (domain : MemoryRange) (leaf : Whisker) :
    Except Stop (Whisker × WhiskerTree) :=
  let used := if track then leaf.use.track m else leaf.use
  .ok (used, .leaf domain used)

theorem useWhisker_eq (t : WhiskerTree) (m : Memory) (track : Bool) :
    t.useWhisker m track
      = t.visit .assertFailed (Region.contains · m) (useLeaf m track) >>= fun found =>
        match found with
        | none => .error (.exit 1)
        | some found => .ok found := rfl

/-- Counting and tracking leave alone how a rule computes. -/
theorem decision_useLeaf (m : Memory) (track : Bool) (d : MemoryRange) (w : Whisker) :
    (.ok (w.decision, .leaf d w.decision) :
      Except Stop (_ × RegionTree MemoryRange (Int32 × DataType × DataType)))
      = (useLeaf m track d w).map fun r => (r.1.decision, r.2.map id Whisker.decision) := by
  cases track <;> rfl

/-- **What the walk of `use_whisker` finds** computes as the table decides. -/
theorem decisionFor_eq_visit (t : WhiskerTree) (m : Memory) (track : Bool) :
    t.decisionFor m = (t.visit .assertFailed (Region.contains · m) (useLeaf m track)).map
      (Option.map fun r => r.1.decision) := by
  have hvisit : visit Stop.assertFailed (Region.contains · m) (fun d a => .ok (a, .leaf d a))
      (t.map id Whisker.decision)
      = (t.visit .assertFailed (Region.contains · m) (useLeaf m track)).map
        (Option.map fun r => (r.1.decision, r.2.map id Whisker.decision)) :=
    visit_map Stop.assertFailed (fun _ _ => rfl) (decision_useLeaf m track)
  rw [decisionFor_eq]
  show Except.map _ (visit _ _ _ (t.map id Whisker.decision)) = _
  rw [hvisit]
  rcases t.visit Stop.assertFailed (Region.contains · m) (useLeaf m track) with e | _ | r <;> rfl

/-- Using a rule leaves a table that is alike. -/
theorem Alike.of_useWhisker {t t' : WhiskerTree} {m : Memory} {track : Bool} {w : Whisker}
    (h : t.useWhisker m track = .ok (w, t')) : Alike t t' := by
  rw [useWhisker_eq] at h
  obtain ⟨found, hvisit, hfound⟩ := bind_eq_ok.mp h
  cases found with
  | none => cases hfound
  | some r =>
    obtain rfl := Except.ok.inj hfound
    obtain ⟨C, d, w₀, s, rfl, -, -, hact, rfl⟩ := visit_eq_some _ hvisit
    obtain ⟨-, rfl⟩ := Prod.mk.inj (Except.ok.inj hact)
    refine .of_mapLabels (Context.mapLabels_fill_congr ?_)
    cases track <;> rfl

/-- **Tables that are alike are used in lockstep**, and stay alike. -/
theorem Alike.useWhisker {t t' : WhiskerTree} (h : Alike t t') (m : Memory) (track : Bool) :
    Lockstep (fun r r' => r'.1.decision = r.1.decision ∧ Alike r.2 r'.2)
      (t.useWhisker m track) (t'.useWhisker m track) := by
  have hm := h m
  rw [decisionFor_eq_visit t' m track, decisionFor_eq_visit t m track] at hm
  generalize hx : t.useWhisker m track = x, hy : t'.useWhisker m track = y
  have hx' := hx
  have hy' := hy
  rw [useWhisker_eq] at hx' hy'
  rcases hv : t.visit .assertFailed (Region.contains · m) (useLeaf m track) with e | _ | ⟨w, s⟩
  all_goals
    rcases hv' : t'.visit .assertFailed (Region.contains · m) (useLeaf m track)
      with e' | _ | ⟨w', s'⟩
  all_goals
    rw [hv, hv'] at hm
    rw [hv] at hx'
    rw [hv'] at hy'
    simp only [Except.map, Option.map, reduceCtorEq, Except.error.injEq, Except.ok.injEq,
      Option.some.injEq] at hm
  · rw [← hx', ← hy', hm]
    exact .error e
  · rw [← hx', ← hy']
    exact .error _
  · obtain rfl : x = .ok (w, s) := hx'.symm
    obtain rfl : y = .ok (w', s') := hy'.symm
    exact .ok ⟨hm, (Alike.of_useWhisker hx).symm.trans (h.trans (.of_useWhisker hy))⟩

end WhiskerTree

/-! ### Clients -/

namespace Client

/-- Clients that differ in their tables only, which are alike. -/
def Alike (c c' : Client) : Prop :=
  ∃ table, c.whiskers.Alike table ∧ c' = { c with whiskers := table }

/-- Clients that are alike, with the same readings of the clock left. -/
def AlikeAt (r r' : Client × Clock) : Prop :=
  ∃ table, r.1.whiskers.Alike table ∧ r' = ({ r.1 with whiskers := table }, r.2)

variable {c c' : Client}

/-- `set_window_intersend` in lockstep. -/
theorem Alike.setWindowIntersend (h : Alike c c') :
    Lockstep Alike c.setWindowIntersend c'.setWindowIntersend := by
  obtain ⟨table, htable, rfl⟩ := h
  unfold Client.setWindowIntersend
  refine (htable.useWhisker c.memory c.track).bind fun r r' ⟨hdecision, hr⟩ => ?_
  dsimp only
  rw [Whisker.window_eq_of_decision hdecision, Whisker.intersend_eq_of_decision hdecision]
  refine (Lockstep.of_eq _).bind fun window _ hwindow => ?_
  subst hwindow
  refine (Lockstep.of_eq _).bind fun intersend _ hintersend => ?_
  subst hintersend
  exact .ok ⟨r'.2, hr, rfl⟩

/-- `packet_received` in lockstep. -/
theorem Alike.packetReceived (h : Alike c c') (p : Packet) (clock : Clock) :
    Lockstep AlikeAt (c.packetReceived p clock) (c'.packetReceived p clock) := by
  obtain ⟨table, htable, rfl⟩ := h
  unfold Client.packetReceived
  refine (Lockstep.of_eq _).bind ?_
  rintro ⟨sender, rest⟩ _ rfl
  refine (Lockstep.of_eq _).bind ?_
  rintro memory _ rfl
  have hset : Alike { c with largestAck := max p.sequenceNumber c.largestAck, memory := memory }
      { c with
        whiskers := table, largestAck := max p.sequenceNumber c.largestAck, memory := memory } :=
    ⟨table, htable, rfl⟩
  refine hset.setWindowIntersend.bind ?_
  rintro c₁ _ ⟨table₁, htable₁, rfl⟩
  exact .ok ⟨table₁, htable₁, rfl⟩

/-- `update_timeout` in lockstep. -/
theorem Alike.updateTimeout (h : Alike c c') (p : Packet) (clock : Clock) :
    Lockstep AlikeAt (c.updateTimeout p clock) (c'.updateTimeout p clock) := by
  obtain ⟨table, htable, rfl⟩ := h
  cases clock with
  | nil => exact .error _
  | cons now clock =>
    rw [updateTimeout_eq, updateTimeout_eq]
    exact .ok ⟨table, htable, rfl⟩

/-- **The callback in lockstep.** -/
theorem Alike.receive (h : Alike c c') (incoming : Option Datagram) (clock : Clock) :
    Lockstep AlikeAt (c.receive incoming clock) (c'.receive incoming clock) := by
  unfold Client.receive
  refine (Lockstep.of_eq _).bind ?_
  rintro p _ rfl
  refine (h.packetReceived p clock).bind ?_
  rintro ⟨c₁, clock₁⟩ _ ⟨table₁, htable₁, rfl⟩
  have h₁ : Alike c₁ { c₁ with whiskers := table₁ } := ⟨table₁, htable₁, rfl⟩
  refine (h₁.updateTimeout p clock₁).bind ?_
  rintro ⟨c₂, clock₂⟩ _ ⟨table₂, htable₂, rfl⟩
  refine (Lockstep.of_eq _).bind ?_
  rintro ⟨utility, rest⟩ _ rfl
  exact .ok ⟨table₂, htable₂, rfl⟩

/-- The callback, as a function of what it looks at. -/
theorem Alike.env_receive (h : Alike c c') (incoming : Option Datagram) (clock : Clock) :
    Lockstep (fun env env' => ∃ table, env.client.whiskers.Alike table ∧
        env' = { env with client := { env.client with whiskers := table } })
      (Env.receive ⟨c, incoming, clock⟩) (Env.receive ⟨c', incoming, clock⟩) := by
  refine (h.receive incoming clock).map ?_
  rintro ⟨c₁, rest⟩ _ ⟨table, htable, rfl⟩
  exact ⟨table, htable, rfl⟩

end Client

/-! ### Runs -/

namespace ClientRun

/-- Runs of clients that differ in their tables only, which are alike. -/
def Alike (r r' : ClientRun) : Prop :=
  ∃ table, r.client.whiskers.Alike table ∧
    r' = { r with client := { r.client with whiskers := table } }

variable {n : UInt64} {r r' : ClientRun}

/-- All of a run but the table of its client. -/
def observed (r : ClientRun) : ClientRun :=
  { r with client := { r.client with whiskers := .init } }

theorem Alike.observed_eq (h : Alike r r') : r'.observed = r.observed := by
  obtain ⟨table, -, rfl⟩ := h
  rfl

/-- The loops are come to alike. -/
theorem Alike.start {t t' : WhiskerTree} (h : t.Alike t') (addr : Address) (sock : Socket)
    (track : Bool) : Alike (start addr sock t track) (start addr sock t' track) := by
  have hmake : (Client.make addr sock t track).Alike (.make addr sock t' track) := ⟨t', h, rfl⟩
  unfold ClientRun.start
  have hset := hmake.setWindowIntersend
  generalize (Client.make addr sock t track).setWindowIntersend = x at hset ⊢
  generalize (Client.make addr sock t' track).setWindowIntersend = y at hset ⊢
  cases hset with
  | error why => exact ⟨t', h, rfl⟩
  | ok hc =>
    obtain ⟨table, htable, rfl⟩ := hc
    exact ⟨table, htable, rfl⟩

/-- Going on after a round of the poller. -/
theorem Alike.afterPoll {r r' : ClientRun} (h : Alike r r') (pollResult : Poller.Result)
    {env : Client.Env} {table : WhiskerTree} (htable : env.client.whiskers.Alike table) :
    Option.Rel Alike (r.afterPoll pollResult env)
      (r'.afterPoll pollResult { env with client := { env.client with whiskers := table } }) := by
  obtain ⟨table₀, htable₀, rfl⟩ := h
  unfold ClientRun.afterPoll
  refine Transition.rel_ite ?_ .none
  cases pollResult.result <;> exact .some ⟨table, htable, rfl⟩

variable [Platform]

/-- **A step of the client in lockstep.** -/
theorem Alike.step (h : Alike r r') (e : Event) :
    Option.Rel Alike (ClientRun.step n r e) (ClientRun.step n r' e) := by
  obtain ⟨c, sent, pc⟩ := r
  obtain ⟨table, htable, rfl⟩ := h
  have hsame : Alike ⟨c, sent, pc⟩ ⟨{ c with whiskers := table }, sent, pc⟩ := ⟨table, htable, rfl⟩
  cases pc with
  | outer =>
    cases e with
    | enter startSending => exact Transition.rel_ite (.some ⟨table, htable, rfl⟩) .none
    | finish => exact Transition.rel_ite .none (.some ⟨table, htable, rfl⟩)
    | _ => exact .none
  | inner startSending =>
    cases e with
    | wait now => exact Transition.rel_ite (.some ⟨table, htable, rfl⟩) .none
    | send now sentAt accepted =>
      refine Transition.rel_ite ?_ .none
      cases accepted with
      | true => exact .some ⟨table, htable, rfl⟩
      | false => exact .some ⟨table, htable, rfl⟩
    | leave now => exact Transition.rel_ite .none (.some ⟨table, htable, rfl⟩)
    | _ => exact .none
  | polling =>
    cases e with
    | poll outcome incoming clock =>
      unfold ClientRun.step
      dsimp only
      rw [Client.poll_receiveAction, Client.poll_receiveAction]
      cases outcome with
      | error => exact .some ⟨table, htable, rfl⟩
      | timeout => exact hsame.afterPoll _ htable
      | ready revents =>
        dsimp only
        by_cases herr : reportsError (revents.headD 0)
        · rw [if_pos herr, if_pos herr]
          exact hsame.afterPoll _ htable
        · rw [if_neg herr, if_neg herr]
          by_cases hread : Poller.readable (revents.headD 0)
          · rw [if_pos hread, if_pos hread]
            -- the callback stops both clients, or brings both back
            have hcallback := Client.Alike.env_receive ⟨table, htable, rfl⟩ incoming clock
            generalize Client.Env.receive ⟨c, incoming, clock⟩ = x at hcallback ⊢
            generalize Client.Env.receive ⟨{ c with whiskers := table }, incoming, clock⟩ = y
              at hcallback ⊢
            cases hcallback with
            | error why => exact Transition.rel_ite .none (.some ⟨table, htable, rfl⟩)
            | ok h =>
              obtain ⟨table', htable', rfl⟩ := h
              exact hsame.afterPoll _ htable'
          · rw [if_neg hread, if_neg hread]
            exact hsame.afterPoll _ htable
    | _ => exact .none
  | returned v => cases e <;> exact .none
  | stopped why => cases e <;> exact .none

end ClientRun

namespace System

/-- Systems whose clients differ in their tables only, which are alike. -/
def Alike (s s' : System) : Prop := ∃ r, s.run.Alike r ∧ s' = { s with run := r }

/-- All of a system but the table of its client. -/
def observed (s : System) : System := { s with run := s.run.observed }

theorem Alike.observed_eq {s s' : System} (h : Alike s s') : s'.observed = s.observed := by
  obtain ⟨r, hr, rfl⟩ := h
  rw [observed, observed, hr.observed_eq]

variable [Platform] {n : UInt64} {server : Socket}

/-- **A step of the system in lockstep.** -/
theorem Alike.step {s s' : System} (h : Alike s s') (e : Event) :
    Option.Rel Alike (step n server s e) (step n server s' e) := by
  obtain ⟨r, hr, rfl⟩ := h
  cases e with
  | client e =>
    refine Transition.rel_ite ?_ .none
    show Option.Rel Alike ((ClientRun.step n s.run e).map fun r => { s with run := r })
      ((ClientRun.step n r e).map fun r' => { s with run := r' })
    have hstep := hr.step (n := n) e
    generalize ClientRun.step n s.run e = x at hstep ⊢
    generalize ClientRun.step n r e = y at hstep ⊢
    cases hstep with
    | none => exact .none
    | some h => exact .some ⟨_, h, rfl⟩
  | serve request printedAt sentAt =>
    -- what the server does is a matter of what was sent
    obtain ⟨table, htable, rfl⟩ := hr
    refine Transition.rel_ite ?_ .none
    cases Server.loopBody server (some request) true [printedAt, sentAt] with
    | error why => exact .none
    | ok reply => exact .some ⟨_, ⟨table, htable, rfl⟩, rfl⟩

end System

/-! ### What nobody sees -/

/-- What can be observed of a run after the events `es`, of the client with the table `t` in any
network. -/
def WhiskerTree.clientShows [Platform] (n : UInt64) (addr : Address) (sock : Socket) (track : Bool)
    (es : List ClientRun.Event) (t : WhiskerTree) : Option ClientRun :=
  (exec (ClientRun.step n) (.start addr sock t track) es).map ClientRun.observed

/-- What can be observed of it with the server. -/
def WhiskerTree.systemShows [Platform] (n : UInt64) (server : Socket) (addr : Address)
    (sock : Socket) (track : Bool) (es : List System.Event) (t : WhiskerTree) : Option System :=
  (exec (System.step n server) (.start addr sock t track) es).map System.observed

/-- Nobody tells the tables apart: a client shows the same with either, in any network and against
the server. -/
def WhiskerTree.SameShows [Platform] (t t' : WhiskerTree) : Prop :=
  ∀ n addr sock track,
    (∀ es, t'.clientShows n addr sock track es = t.clientShows n addr sock track es) ∧
      ∀ server es,
        t'.systemShows n server addr sock track es = t.systemShows n server addr sock track es

/-- Options in lockstep show the same of what is in them. -/
theorem map_eq_of_rel {σ γ : Type} {R : σ → σ → Prop} {f : σ → γ} (hf : ∀ s s', R s s' → f s' = f s)
    {x y : Option σ} (h : Option.Rel R x y) : y.map f = x.map f := by
  cases h with
  | none => rfl
  | some hst => exact congrArg some (hf _ _ hst)

section Shows

variable [Platform] {n : UInt64} {server : Socket} {addr : Address} {sock : Socket} {track : Bool}
  {t t' : WhiskerTree}

/-- Tables that are alike show the same, in any network. -/
theorem WhiskerTree.Alike.clientShows_eq (h : t.Alike t') (es : List ClientRun.Event) :
    t'.clientShows n addr sock track es = t.clientShows n addr sock track es := by
  have hstart := ClientRun.Alike.start h addr sock track
  have hrun : Option.Rel ClientRun.Alike (exec (ClientRun.step n) (.start addr sock t track) es)
      (exec (ClientRun.step n) (.start addr sock t' track) es) :=
    Transition.exec_rel (fun _ _ e hr => hr.step e) es hstart
  exact map_eq_of_rel (fun _ _ hr => hr.observed_eq) hrun

/-- They show the same with the server. -/
theorem WhiskerTree.Alike.systemShows_eq (h : t.Alike t') (es : List System.Event) :
    t'.systemShows n server addr sock track es = t.systemShows n server addr sock track es := by
  have hstart : System.Alike (.start addr sock t track) (.start addr sock t' track) :=
    ⟨_, ClientRun.Alike.start h addr sock track, rfl⟩
  have hrun : Option.Rel System.Alike (exec (System.step n server) (.start addr sock t track) es)
      (exec (System.step n server) (.start addr sock t' track) es) :=
    Transition.exec_rel (fun _ _ e hs => hs.step e) es hstart
  exact map_eq_of_rel (fun _ _ hs => hs.observed_eq) hrun

theorem WhiskerTree.Alike.sameShows (h : t.Alike t') : t.SameShows t' := fun _ _ _ _ =>
  ⟨h.clientShows_eq, fun _ => h.systemShows_eq⟩

end Shows

/-! ### What is done to tables -/

namespace WhiskerTree

open RegionTree

variable {t t' : WhiskerTree}

/-- Changing rules without changing how they compute. -/
theorem Alike.of_change {f : Whisker → Whisker} (hf : ∀ w, (f w).decision = w.decision)
    (t : WhiskerTree) : Alike t (t.mapLabels f) := by
  refine .of_mapLabels ?_
  have hcomp : Whisker.decision ∘ f = Whisker.decision := funext hf
  rw [mapLabels_mapLabels, hcomp]

/-- Using rules, any number of times. -/
theorem Alike.of_useAll {queries : List (Memory × Bool)} : ∀ {t : WhiskerTree},
    t.useAll queries = .ok t' → Alike t t' := by
  induction queries with
  | nil =>
    intro t h
    obtain rfl := Except.ok.inj h
    exact .refl _
  | cons q queries ih =>
    intro t h
    rw [useAll, List.foldlM_cons] at h
    obtain ⟨s, hused, hrest⟩ := bind_eq_ok.mp h
    obtain ⟨⟨w, s'⟩, hw, rfl⟩ := map_eq_ok.mp hused
    exact (Alike.of_useWhisker hw).trans (ih hrest)

/-- Saving a table and loading it. -/
theorem Alike.of_loaded (ht : t.Populated) (h : ofDNA t.dna = .ok t') : Alike t t' := by
  rw [ofDNA_dna ht, Except.ok.injEq] at h
  intro m
  have hlookup : (t.map (fun d => MemoryRange.ofDNA d.dna) fun w => Whisker.ofDNA w.dna).lookup
      Stop.assertFailed m
      = (t.lookup Stop.assertFailed m).map (Option.map fun w => Whisker.ofDNA w.dna) :=
    lookup_map _ _ fun d _ => MemoryRange.contains_ofDNA_dna d m
  rw [h] at hlookup
  unfold decisionFor whisker
  rw [hlookup]
  rcases t.lookup Stop.assertFailed m with e | _ | w <;> rfl

/-- Tables with the same policy. -/
theorem Alike.of_samePolicy (h : SamePolicy t t') : Alike t t' := by
  intro m
  have haction := h.action m
  rw [decisionFor, decisionFor, h.wellFormed.whisker_eq, h.wellFormed'.whisker_eq]
  show Except.ok _ = Except.ok _
  cases hp : t.policy m with
  | none =>
    rw [hp, Option.map_none, Option.map_eq_none_iff] at haction
    rw [haction]
  | some w =>
    rw [hp, Option.map_some, Option.map_eq_some_iff] at haction
    obtain ⟨w', hw', hact⟩ := haction
    simp only [Whisker.action, Prod.mk.injEq] at hact
    rw [hw', Option.map_some, Option.map_some, Whisker.decision, Whisker.decision, hact.1, hact.2.1,
      hact.2.2.1]

section Shows

variable [Platform]

/-- **What nobody sees.**  Using the rules of a table any number of times, resetting its counts,
promoting its rules and resetting their generations, saving it and loading it again, and splitting a
rule of it at the medians of what was tracked: none of these shows in any run of the client, in any
network or against the server.  What is saved must have a child below each interior node, and a rule
that is split must have room on every axis. -/
theorem upkeep_unobservable (t : WhiskerTree) :
    (∀ queries t', t.useAll queries = .ok t' → t.SameShows t') ∧
    (t.SameShows t.resetCounts ∧ (∀ generation, t.SameShows (t.promote generation)) ∧
      t.SameShows t.resetGeneration) ∧
    (t.Populated → ∃ t', ofDNA t.dna = .ok t' ∧ t.SameShows t') ∧
    (WellFormed t → ∀ d w, (d, w) ∈ t.leaves → w.domain.Nonempty → w.domain.MediansInRange →
      ∃ dst t', ofWhisker w true = .ok dst ∧ t.replaceTree w dst = .ok (true, t') ∧
        t.SameShows t') := by
  refine ⟨fun queries t' h => (Alike.of_useAll h).sameShows, ⟨?_, fun generation => ?_, ?_⟩,
    fun ht => ?_, fun hwf d w mem room medians => ?_⟩
  · have hreset : t.Alike t.resetCounts := .of_change (f := Whisker.resetCount) (fun _ => rfl) t
    exact hreset.sameShows
  · have hpromote : t.Alike (t.promote generation) :=
      .of_change (f := (·.promote generation)) (fun _ => rfl) t
    exact hpromote.sameShows
  · have hdemote : t.Alike t.resetGeneration := .of_change (f := (·.demote 0)) (fun _ => rfl) t
    exact hdemote.sameShows
  · exact ⟨_, ofDNA_dna ht, (Alike.of_loaded ht (ofDNA_dna ht)).sameShows⟩
  · -- the pieces of the rule compute as it does
    obtain ⟨dst, hdst, hwf', hregion, haction⟩ := WellFormed.ofWhisker_bisect room medians
    obtain ⟨C, rfl, hstep⟩ := hwf.replaceAt_spec mem room (.refl _) fun _ => dst
    have hbounds : dst.region.SameBounds d := by
      rw [hregion]
      exact (hwf.domains _ mem).symm
    have hsame := SamePolicy.of_fill hwf hwf' hbounds haction
    exact ⟨dst, C.fill dst, hdst, hstep, (Alike.of_samePolicy hsame).sameShows⟩

end Shows

/-- The table in two leaves: queried twice for a memory of the lower half, saved and loaded, and
after the queries split in the lower half. -/
theorem upkeep_unobservable_of_halved : letI := gcc48
    ∃ (used saved dst split : WhiskerTree) (w : Whisker),
      (halved.useAll [(.ofData 1 2 3 4, true), (.ofData 1 2 3 4, true)] = .ok used ∧
        halved.SameShows used) ∧
      (ofDNA halved.dna = .ok saved ∧ halved.SameShows saved) ∧
      ((lowHalf, w) ∈ used.leaves ∧ w.count = 2 ∧ ofWhisker w true = .ok dst ∧
        used.replaceTree w dst = .ok (true, split) ∧ used.SameShows split) := by
  let _ := gcc48
  let m : Memory := .ofData 1 2 3 4
  let w : Whisker := ((Whisker.ofDomain lowHalf).use.track m).use.track m
  let C : Context MemoryRange Whisker :=
    .node rootDomain [] .hole [.leaf highHalf (.ofDomain highHalf)]
  have hwf : WellFormed (C.fill (.leaf lowHalf w)) :=
    WellFormed.fill (s := .leaf lowHalf (.ofDomain lowHalf)) .halved (.leaf (.refl _)) (.refl _)
  have hmed : w.domain.MediansInRange := fun i => by fin_cases i <;> decide
  have hused : halved.useAll [(m, true), (m, true)] = .ok (C.fill (.leaf lowHalf w)) := rfl
  obtain ⟨hqueries, -, hsave, -⟩ := upkeep_unobservable halved
  obtain ⟨saved, hload, hsaved⟩ := hsave populated_halved
  obtain ⟨-, -, -, hsplit⟩ := upkeep_unobservable (C.fill (.leaf lowHalf w))
  obtain ⟨dst, split, hdst, hstep, hshows⟩ :=
    hsplit hwf lowHalf w (C.mem_leaves_fill_leaf lowHalf w) WellFormed.nonempty_lowHalf hmed
  exact ⟨_, saved, dst, split, w, ⟨hused, hqueries _ _ hused⟩, ⟨hload, hsaved⟩,
    C.mem_leaves_fill_leaf lowHalf w, rfl, hdst, hstep, hshows⟩

section Shows

variable [Platform] {n : UInt64} {addr : Address} {sock : Socket} {track : Bool}

/-- **No run tells apart tables that are alike**: whatever the network delivers, and against the
server, the same events can happen, the same datagrams leave, and the clients are in the same place
with the same windows, memories, timers and statistics. -/
theorem indistinguishable {t t' : WhiskerTree} (h : t.Alike t') :
    (∀ es, t'.clientShows n addr sock track es = t.clientShows n addr sock track es) ∧
      ∀ server es,
        t'.systemShows n server addr sock track es = t.systemShows n server addr sock track es :=
  ⟨h.clientShows_eq, fun _ => h.systemShows_eq⟩

end Shows

/-- The default table, and the same rule in a leaf that was used and promoted. -/
theorem indistinguishable_of_promoted : letI := gcc48
    (WhiskerTree.init.promote 7).clientShows 1 ⟨1, 9⟩ ⟨⟨2, 8⟩⟩ true [.enter 1, .send 5 5 true]
      = WhiskerTree.init.clientShows 1 ⟨1, 9⟩ ⟨⟨2, 8⟩⟩ true [.enter 1, .send 5 5 true] := by
  let _ := gcc48
  have hpromote : Alike WhiskerTree.init (WhiskerTree.init.promote 7) :=
    .of_change (f := (·.promote 7)) (fun _ => rfl) WhiskerTree.init
  exact (indistinguishable hpromote).1 _

end WhiskerTree

end SendReceive
